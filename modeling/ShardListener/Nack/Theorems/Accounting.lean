import ShardListener.Nack.Theorems.Sweep

namespace Nack

namespace Metric

def isDetected : Metric → Bool
  | gapDetected .. => true
  | _              => false

def isSuppressed : Metric → Bool
  | gapSuppressed .. => true
  | _                => false

def isUnrecovered : Metric → Bool
  | gapUnrecovered .. => true
  | _                 => false

-- A detection opens a gap in the books, each of the two terminal bookings closes one.
def weight : Metric → Int
  | gapDetected ..    => 1
  | gapSuppressed ..  => -1
  | gapUnrecovered .. => -1
  | _                 => 0

def net (ms : List Metric) : Int :=
  (ms.map weight).sum

@[simp]
theorem net_nil : net [] = 0 :=
  rfl

@[simp]
theorem net_cons {m : Metric} {ms : List Metric} : net (m :: ms) = m.weight + net ms :=
  rfl

theorem net_append (ms ns : List Metric) : net (ms ++ ns) = net ms + net ns := by
  simp [net]

theorem net_eq_counts (ms : List Metric) :
    net ms = ms.countP isDetected - ms.countP isSuppressed - ms.countP isUnrecovered := by
  induction ms
  case nil => rfl
  case cons m ms hi =>
    cases m <;> simp [hi, weight, isDetected, isSuppressed, isUnrecovered,
      List.countP_cons] <;> omega

end Metric

-- The weight of an entry in the accounting: a probe is a question, not a loss.
def GapEntry.real (e : GapEntry) : Nat :=
  if e.speculative then 0 else 1

namespace FlowState

-- The number of non-speculative pending entries.
def real (fs : FlowState) : Nat :=
  fs.pending.sumBy fun _ e => e.real

-- The weight of the entry stored for a SeqNum.
def realAt (fs : FlowState) (seq : SeqNum) : Nat :=
  (fs.pending.lookup seq).elim 0 GapEntry.real

-- The gaps an operation loses: detected, not pending any more, and without a terminal booking.
def lost (fs : FlowState) (e : Effect) : Int :=
  fs.real + Metric.net e.metrics - e.flow.real

variable {fs : FlowState} {e : GapEntry} {seq : SeqNum} {now : Time} {cfg : Config} {i : Instant}

theorem lost_andThen {b r : Effect} {q : List GapEntry} :
    fs.lost { flow := r.flow, metrics := b.metrics ++ r.metrics, queued := q } =
      fs.lost b + b.flow.lost r := by
  simp only [lost, Metric.net_append]
  omega

theorem lost_of_pending_eq (fs fs' : FlowState) {r : Effect} (h : fs'.pending = fs.pending) :
    fs'.lost r = fs.lost r := by
  simp [lost, real, h]

theorem real_erase (fs : FlowState) (seq : SeqNum) :
    (fs.real : Int) = fs.realAt seq + { fs with pending := fs.pending.erase seq }.real := by
  cases h : fs.pending.lookup seq
  case none   => simp [real, realAt, h, AList.erase_of_lookup_none h]
  case some e => simp [real, realAt, h, AList.sumBy_eq_add_erase h]

theorem real_insert_fresh (h : fs.pending.lookup seq = none) :
    { fs with pending := fs.pending.insert seq e }.real = e.real + fs.real := by
  simp [real, AList.sumBy_insert_of_lookup_none h]

-- Overwriting an entry by one with the same speculative flag changes nothing.
theorem real_insert_stored {e' : GapEntry} (h : fs.pending.lookup seq = some e')
    (he : e.speculative = e'.speculative) :
    { fs with pending := fs.pending.insert seq e }.real = fs.real := by
  have hs := AList.sumBy_insert_of_lookup_some (f := fun _ e => e.real) (v := e) h
  simp only [GapEntry.real, he] at hs
  simp only [real, GapEntry.real]
  omega

-- A gap that is detected and becomes pending is not lost.
theorem lost_opened {label : FlowLabel} {src : Option IP} {r : Effect} {q : List GapEntry}
    (h : fs.pending.lookup seq = none) (he : e.speculative = false) :
    fs.lost { flow := r.flow, metrics := .gapDetected label src :: r.metrics, queued := q } =
      { fs with pending := fs.pending.insert seq e }.lost r := by
  have hr : { fs with pending := fs.pending.insert seq e }.real = e.real + fs.real :=
    real_insert_fresh h
  have h₁ : e.real = 1 := by simp [GapEntry.real, he]
  simp only [lost, Metric.net_cons, Metric.weight, hr, h₁]
  push_cast
  omega

theorem lost_bookFill (fs : FlowState) (e : GapEntry) :
    fs.lost (fs.bookFill true e) = if e.speculative then 0 else -1 := by
  cases h : e.speculative <;> simp [lost, bookFill, h, real, Metric.weight]

theorem lost_autoFill {r : Effect} (h : fs.autoFill true seq = some r) : fs.lost r = 0 := by
  simp only [autoFill, Option.map_eq_some_iff] at h
  obtain ⟨e, hl, rfl⟩ := h
  have he := fs.real_erase seq
  have hb := lost_bookFill { fs with pending := fs.pending.erase seq } e
  simp only [realAt, hl, Option.elim, GapEntry.real] at he
  simp only [lost] at hb ⊢
  split at hb <;> simp_all
  omega

theorem lost_bookAbandon (now : Time) (fs : FlowState) (seq : SeqNum) (src : Option IP)
    (reason : AbandonReason) : fs.lost (fs.bookAbandon now seq src reason) = -1 := by
  have hr : (fs.bookAbandon now seq src reason).flow.real = fs.real := by
    rw [bookAbandon_flow]
    rfl
  rw [lost, hr]
  simp [bookAbandon, Metric.weight]

theorem lost_noteLateFill : fs.lost (fs.noteLateFill seq) = 0 := by
  simp only [noteLateFill]
  split <;> simp [lost, real, Metric.weight]

theorem lost_fill : fs.lost (fs.fill true seq) = 0 := by
  cases fs.fill_or true seq
  case inl e  => rw [e]; exact lost_noteLateFill
  case inr hr => exact lost_autoFill hr

theorem lost_cancelGap : fs.lost (fs.cancelGap true e) = 0 := by
  cases fs.cancelGap_or true e
  case inl e  => simp [e, lost]
  case inr hr => exact lost_autoFill hr

theorem lost_evict {reason : AbandonReason} (h : fs.pending.lookup seq = some e) :
    fs.lost (fs.evict now seq e reason) = 0 := by
  have he := fs.real_erase seq
  simp only [realAt, h, Option.elim, GapEntry.real] at he
  simp only [evict]
  split
  case isTrue hs => simp_all [lost, retireProbe, real]
  case isFalse hs =>
    have hb := lost_bookAbandon now { fs with pending := fs.pending.erase seq } seq e.source
      reason
    simp only [lost] at hb ⊢
    simp_all
    omega

theorem lost_sweptEntry {r : Effect} (h : SweptEntry now fs seq r) : fs.lost r = 0 := by
  cases h
  case kept                => simp [lost]
  case evicted hl          => exact lost_evict hl
  case rescheduled hl hr _ => simp [lost, real_insert_stored hl hr.speculative]

theorem lost_sweepEntries (fs : FlowState) (room : SeqNum → Bool) (ss : List SeqNum) :
    fs.lost (fs.sweepEntries cfg now room ss) = 0 := by
  induction ss generalizing fs
  case nil          => simp [sweepEntries, lost]
  case cons s ss hi =>
    simp only [sweepEntries, lost_andThen, lost_sweptEntry sweepEntry_swept, hi, Int.add_zero]

theorem lost_maybeProbeTail {hk : HashKey} {room : Bool} (h : fs.pending.size = 0) :
    fs.lost (fs.maybeProbeTail cfg hk now room) = 0 := by
  have hl := AList.size_eq_zero_iff.mp h
  simp only [maybeProbeTail]
  split
  case isTrue => simp [lost]
  split
  case isTrue =>
    have hi := real_insert_fresh (e := fs.probe cfg hk now) (hl (fs.probe cfg hk now).seqNum)
    simp only [GapEntry.real, probe, if_true, Nat.zero_add] at hi
    simp [lost, real, Metric.weight, probe] at hi ⊢
    omega
  case isFalse =>
    have he := AList.erase_of_lookup_none (hl (fs.probe cfg hk now).seqNum)
    simp [lost, real, Metric.weight, he]

theorem lost_sweep {hk : HashKey} {room : SeqNum → Bool} :
    fs.lost (fs.sweep cfg hk now room) = 0 := by
  have hs : fs.lost ((fs.purgeAbandoned now).sweepEntries cfg now room _) = 0 :=
    lost_sweepEntries (fs.purgeAbandoned now) room (fs.purgeAbandoned now).pending.keys
  simp only [sweep]
  split
  case isTrue h  => simp only [lost_andThen, hs, lost_maybeProbeTail h, Int.add_zero]
  case isFalse h => exact hs

theorem lost_requestGaps (fs : FlowState) {hk : HashKey} {g : GroupIdx} {sub : Bytes32}
    {ss : List SeqNum} :
    fs.lost (fs.requestGaps cfg i hk g sub ss) = 0 := by
  induction ss generalizing fs
  case nil => simp [requestGaps, lost]
  case cons s ss hi =>
    simp only [requestGaps]
    split
    case h_1 => exact hi fs
    case h_2 h =>
      rw [lost_opened (e := fs.requestedGap cfg i hk g sub s) h rfl]
      exact hi _

theorem lost_request {room : Nat} {q : Request} : fs.lost (fs.request cfg i room q) = 0 :=
  lost_requestGaps { fs with owner := if q.owner = ownerUnknown then fs.owner else q.owner }

-- The copy decides what `abandonGap` books, the stored entry what it removes.
theorem lost_abandonGap {reason : AbandonReason} :
    fs.lost (fs.abandonGap now e reason) = fs.realAt e.seqNum - e.real := by
  have he := fs.real_erase e.seqNum
  simp only [abandonGap, GapEntry.real]
  split
  case isTrue hs =>
    simp only [lost, real] at he ⊢
    simp
    omega
  case isFalse hs =>
    have hb := lost_bookAbandon now
      { fs with
        pending := fs.pending.erase e.seqNum
        probing := if fs.probing = e.seqNum then 0 else fs.probing } e.seqNum fs.source reason
    simp only [lost, real] at he hb ⊢
    omega

-- `probeMissed` removes whatever is stored and books nothing.
theorem lost_probeMissed : fs.lost (fs.probeMissed e) = fs.realAt e.seqNum := by
  have he := fs.real_erase e.seqNum
  simp only [lost, probeMissed, retireProbe, real, Metric.net_cons, Metric.weight, Metric.net_nil]
    at he ⊢
  omega

theorem lost_advanceEndpoint {immediate : Bool} {n : Nat} :
    fs.lost (fs.advanceEndpoint cfg i e immediate n) = 0 := by
  simp only [advanceEndpoint]
  split
  case h_1 => simp [lost]
  case h_2 stored h =>
    have hs : (advanceEntry cfg i immediate n stored).speculative = stored.speculative := by
      simp only [advanceEntry]
      split <;> rfl
    simp [lost, real_insert_stored h hs]

theorem lost_throttleGap {flags : UInt8} : fs.lost (fs.throttleGap cfg i e flags) = 0 := by
  simp only [throttleGap]
  split
  case h_1          => simp [lost]
  case h_2 stored h => simp [lost, real_insert_stored h, Metric.weight]

variable {a : Arrival} {elapsed : Duration}

theorem lost_flushRestart (fs : FlowState) (now : Time)
    (es : List (Sigma fun _ : SeqNum => GapEntry)) :
    fs.lost (fs.flushRestart now es) = -((es.map fun e => (e.2.real : Int)).sum) := by
  induction es generalizing fs
  case nil => simp [flushRestart, lost]
  case cons e es hi =>
    simp only [flushRestart, List.map_cons, List.sum_cons, GapEntry.real]
    split
    case isTrue hs => simp [hi, GapEntry.real]
    case isFalse hs =>
      rw [lost_andThen, lost_bookAbandon, hi]
      simp [GapEntry.real]
      omega

theorem lost_restart {s : SeqNum} : fs.lost (fs.restart now s) = 0 := by
  have hf := lost_flushRestart fs now fs.pending.entries
  have hr : ((fs.pending.entries.map fun e => (e.2.real : Int)).sum) = fs.real := by
    simp [real, AList.sumBy, Function.comp_def]
  have hp : (fs.flushRestart now fs.pending.entries).flow.real = fs.real := by
    rw [real, flushRestart_agrees.pending, real]
  rw [hr, lost, hp] at hf
  simp only [restart, lost, real, AList.sumBy_empty] at hf ⊢
  omega

theorem lost_registerGaps (cfg : Config) (i : Instant) (fs : FlowState) (a : Arrival)
    (ms : List SeqNum) : fs.lost (fs.registerGaps cfg i a ms) = 0 := by
  induction ms generalizing fs
  case nil => simp [registerGaps, lost]
  case cons m ms hi =>
    simp only [registerGaps]
    split
    case h_1 => exact hi fs
    case h_2 h =>
      rw [lost_opened (e := fs.newGap cfg i a m) h rfl]
      exact hi _

theorem lost_registerTail (cfg : Config) (i : Instant) (fs : FlowState) (a : Arrival)
    {ms : List SeqNum} (hd : ms.Nodup)
    (hf : ∀ m ∈ ms, fs.pending.lookup m = none) : fs.lost (fs.registerTail cfg i a ms) = 0 := by
  induction ms generalizing fs
  case nil => simp [registerTail, lost]
  case cons m ms hi =>
    obtain ⟨hm, hd⟩ := List.nodup_cons.mp hd
    rw [registerTail, lost_opened (e := fs.newGap cfg i a m) (hf m List.mem_cons_self) rfl]
    apply hi _ hd
    intro k hk
    have hne : k ≠ m := fun h => hm (h ▸ hk)
    rw [AList.lookup_insert_eq_ite, if_neg hne]
    exact hf k (List.mem_cons_of_mem _ hk)

-- A re-baseline drops what was pending without a booking, and nothing else.
theorem lost_rebaseline : fs.lost (fs.rebaseline cfg i a elapsed) = fs.real := by
  have ht := lost_registerTail cfg i { fs with pending := ∅ } a
    (List.nodup_range' (s := a.seqNum - fs.tail cfg elapsed a.seqNum)
      (n := fs.tail cfg elapsed a.seqNum)) (by simp)
  simp only [lost, rebaseline, real, Metric.net_append, Metric.net_cons, Metric.weight,
    Metric.net_nil, AList.sumBy_empty] at ht ⊢
  omega

-- The non-speculative entries that the ladder drops as an emitter change.
def ladderDiscards (cfg : Config) (fs : FlowState) (a : Arrival) (elapsed : Duration) : Nat :=
  if fs.verdict cfg elapsed a.seqNum a.source.isSome = .emitterChange then fs.real else 0

theorem lost_ladder : fs.lost (fs.ladder cfg i a elapsed) = fs.ladderDiscards cfg a elapsed := by
  simp only [ladder, ladderDiscards]
  split
  case h_3 h => simp [h, lost_restart]
  case h_5 h => simp [h, lost_rebaseline]
  case h_6 h =>
    have hr := lost_registerGaps cfg i fs a
      (List.range' (fs.lastSeqNum + 1) (fs.missing a.seqNum))
    simp only [h, lost, openGap, real] at hr ⊢
    simpa using hr
  all_goals
    rename_i h
    simp [h, lost, real, advance]

def settleDiscards (cfg : Config) (fs : FlowState) (a : Arrival) (elapsed : Duration) : Nat :=
  match fs.autoFill true a.seqNum with
  | none   => fs.ladderDiscards cfg a elapsed
  | some r => if a.seqNum ≤ r.flow.lastSeqNum then 0 else r.flow.ladderDiscards cfg a elapsed

theorem lost_settle :
    fs.lost (fs.settle cfg i true a elapsed) = fs.settleDiscards cfg a elapsed := by
  simp only [settle, settleDiscards]
  cases h : fs.autoFill true a.seqNum
  case none => exact lost_ladder
  case some r =>
    simp only
    split
    case isTrue  => simp [lost_autoFill h]
    case isFalse => rw [lost_andThen, lost_autoFill h, lost_ladder, Int.zero_add]

def discards (cfg : Config) (i : Instant) (fs : FlowState) (a : Arrival) : Nat :=
  ((fs.touch i.now a).noteLateFill a.seqNum).flow.settleDiscards cfg a (Time.sub i.now fs.lastSeen)

theorem lost_observe : fs.lost (fs.observe cfg i true a) = fs.discards cfg i a := by
  simp only [observe, discards]
  rw [lost_andThen, lost_settle, ← lost_of_pending_eq fs (fs.touch i.now a) rfl,
    lost_noteLateFill, Int.zero_add]

theorem realAt_eq_ite : fs.realAt seq = if fs.HasGap seq then 1 else 0 := by
  cases h : fs.pending.lookup seq
  case none   => simp [realAt, HasGap, h]
  case some e => cases hs : e.speculative <;> simp [realAt, HasGap, h, GapEntry.real, hs]

end FlowState

namespace Tracker

variable {cfg : Config} {i : Instant} {t : Tracker} {hk : HashKey} {fs : FlowState}

def log (t : Tracker) : List Metric :=
  t.recorder.getD []

def real (t : Tracker) : Nat :=
  t.flows.sumBy fun _ fs => fs.real

-- The gaps that are detected and neither booked nor pending.
def missing (t : Tracker) : Int :=
  Metric.net t.log - t.real

theorem missing_emit {ms : List Metric} (h : t.recorder.isSome) :
    (t.emit ms).missing = t.missing + Metric.net ms := by
  have ⟨l, hl⟩ := Option.isSome_iff_exists.mp h
  simp only [missing, log, emit, real, hl, Option.map_some, Option.getD_some, Metric.net_append]
  omega

-- A flow that is new in the table has nothing pending.
theorem missing_put (fs : FlowState) {e : Effect} (hr : t.recorder.isSome)
    (hl : t.flows.lookup hk = some fs ∨ t.flows.lookup hk = none ∧ fs.real = 0) :
    (t.put hk e).missing = t.missing + fs.lost e := by
  have hs : (t.flows.insert hk e.flow).sumBy (fun _ fs => fs.real) + fs.real =
      e.flow.real + t.real := by
    cases hl
    case inl h => exact AList.sumBy_insert_of_lookup_some h
    case inr h => rw [AList.sumBy_insert_of_lookup_none h.1, h.2, real, Nat.add_zero]
  rw [put, missing_emit (by exact hr)]
  simp only [missing, log, real, FlowState.lost] at hs ⊢
  omega

theorem missing_onFlow {op : FlowState → Effect} (hr : t.recorder.isSome) :
    (t.onFlow hk op).missing = t.missing +
      (t.flows.lookup hk).elim 0 (fun fs => fs.lost (op fs)) := by
  simp only [onFlow]
  cases h : t.flows.lookup hk
  case none    => simp
  case some fs => simp [missing_put _ hr (.inl h)]

theorem missing_observeFrom {a : Arrival} (hr : t.recorder.isSome) :
    (t.observeFrom cfg i a).missing = t.missing +
      if a.seqNum = 0 then 0 else (t.flows.lookup a.hashKey).elim 0 (·.discards cfg i a) := by
  simp only [observeFrom, hr]
  split
  case isTrue  => simp
  case isFalse hz =>
    cases h : t.flows.lookup a.hashKey
    case some fs => simp [missing_put _ hr (.inl h), FlowState.lost_observe]
    case none =>
      simp only
      split
      case isTrue =>
        rw [missing_emit (by exact hr)]
        simp [Metric.weight, missing, log, real]
      case isFalse =>
        rw [missing_put (FlowState.new a.groupIdx a.subtreeID) hr (.inr ⟨h, rfl⟩),
          FlowState.lost_observe]
        simp [FlowState.discards, FlowState.touch, FlowState.noteLateFill, FlowState.settleDiscards,
          FlowState.autoFill, FlowState.ladderDiscards, FlowState.verdict, FlowState.new]

theorem missing_requestGapsFrom {room : Nat} {q : Request} (hr : t.recorder.isSome) :
    (t.requestGapsFrom cfg i room q).missing = t.missing := by
  simp only [requestGapsFrom]
  split
  case isTrue  => rfl
  case isFalse =>
    cases h : t.flows.lookup q.hashKey
    case some fs => simp [missing_put _ hr (.inl h), FlowState.lost_request]
    case none =>
      simp only
      split
      case isTrue  => rfl
      case isFalse =>
        rw [missing_put _ hr (.inr ⟨h, ?_⟩), FlowState.lost_request, Int.add_zero]
        rfl

theorem missing_sweepFlow {now : Time} {room : HashKey → SeqNum → Bool} (hr : t.recorder.isSome) :
    (t.sweepFlow cfg now room hk).missing = t.missing := by
  have hs : (t.onFlow hk (·.sweep cfg hk now (room hk))).missing = t.missing := by
    rw [missing_onFlow hr]
    cases t.flows.lookup hk <;> simp [FlowState.lost_sweep]
  simp only [sweepFlow]
  split
  case h_1 => exact hs
  case h_2 fs h =>
    split
    case isFalse => exact hs
    case isTrue hi =>
      -- Only a flow without pending entries is evicted.
      have hz : fs.real = 0 := by
        rw [FlowState.real, AList.sumBy_eq_zero_iff]
        intro k v hv
        rw [AList.size_eq_zero_iff.mp hi.1 k] at hv
        cases hv
      have he := AList.sumBy_eq_add_erase (f := fun _ fs => FlowState.real fs) h
      simp only [missing, log, real] at hs he ⊢
      omega

theorem missing_sweepOnce {now : Time} {room : HashKey → SeqNum → Bool} (hr : t.recorder.isSome) :
    (t.sweepOnce cfg now room).missing = t.missing := by
  simp only [sweepOnce]
  generalize t.flows.keys = hks
  induction hks generalizing t
  case nil => rfl
  case cons hk hks hi =>
    have hm := hi (t := t.sweepFlow cfg now room hk) (isSome_recorder_sweepFlow.trans hr)
    exact hm.trans (missing_sweepFlow hr)

-- The gaps an operation drops as part of an emitter change.
def discards (cfg : Config) (t : Tracker) : Op → Nat
  | .observe i a =>
    if a.seqNum = 0 then 0 else (t.flows.lookup a.hashKey).elim 0 (·.discards cfg i a)
  | _            => 0

-- The gaps an operation closes in the books without removing them, or removes without a booking.
def strays (t : Tracker) : Op → Int
  | .complete _ e (.abandon _) =>
    (t.flows.lookup e.hashKey).elim 0 fun fs => fs.realAt e.seqNum - e.real
  | .complete _ e .probeMiss => (t.flows.lookup e.hashKey).elim 0 fun fs => fs.realAt e.seqNum
  | _                        => 0

theorem missing_step (op : Op) (hr : t.recorder.isSome) :
    (t.step cfg op).missing = t.missing + t.discards cfg op + t.strays op := by
  cases op
  case observe i a      => simp [step, missing_observeFrom hr, discards, strays]
  case request i room q => simp [step, missing_requestGapsFrom hr, discards, strays]
  case sweep now room   => simp [step, missing_sweepOnce hr, discards, strays]
  case fill hk s =>
    simp only [step, fill, discards, strays, hr]
    split
    case isTrue => simp
    case isFalse =>
      rw [missing_onFlow hr]
      cases t.flows.lookup hk <;> simp [FlowState.lost_fill]
  case complete i e c =>
    have he : ∀ t' : Tracker, { t' with inFlight := t.inFlight.erase e }.missing = t'.missing :=
      fun _ => rfl
    simp only [step, he, discards]
    cases c <;> simp only [complete, strays, cancelGap, abandonGap, advanceEndpoint, throttleGap,
      probeMissed, missing_onFlow hr, hr]
    all_goals
      cases t.flows.lookup e.hashKey <;>
        simp [FlowState.lost_cancelGap, FlowState.lost_abandonGap, FlowState.lost_advanceEndpoint,
          FlowState.lost_throttleGap, FlowState.lost_probeMissed]

-- A completion is faithful if the entry copy still agrees with what is stored: a rejected copy of a
-- real gap finds a real gap, and a rejected or missed probe does not.
def Faithful (t : Tracker) : Op → Prop
  | .complete _ e (.abandon _) =>
    ∀ fs, t.flows.lookup e.hashKey = some fs → (fs.HasGap e.seqNum ↔ e.speculative = false)
  | .complete _ e .probeMiss => ∀ fs, t.flows.lookup e.hashKey = some fs → ¬fs.HasGap e.seqNum
  | _ => True

theorem strays_eq_zero_iff (op : Op) : t.strays op = 0 ↔ t.Faithful op := by
  cases op
  case complete i e c =>
    cases c
    case abandon r =>
      simp only [strays, Faithful]
      cases t.flows.lookup e.hashKey
      case none => simp
      case some fs =>
        cases h : e.speculative <;> simp [FlowState.realAt_eq_ite, GapEntry.real, h]
        split <;> simp_all
    case probeMiss =>
      simp only [strays, Faithful]
      cases t.flows.lookup e.hashKey <;> simp [FlowState.realAt_eq_ite]
    all_goals simp [strays, Faithful]
  all_goals simp [strays, Faithful]

end Tracker

-- The tracker together with the number of gaps that emitter changes have dropped so far.
structure Ledger where
  tracker   : Tracker := .new
  discarded : Nat := 0

namespace Ledger

variable (cfg : Config)

def step (l : Ledger) (op : Op) : Ledger where
  tracker   := l.tracker.step cfg op
  discarded := l.discarded + l.tracker.discards cfg op

def booked (l : Ledger) (p : Metric → Bool) : Nat :=
  l.tracker.log.countP p

-- Every detected gap has exactly one terminal booking, was dropped by an emitter change, or is
-- still pending.
def Conserved (l : Ledger) : Prop :=
  l.booked Metric.isDetected =
    l.booked Metric.isSuppressed + l.booked Metric.isUnrecovered + l.discarded + l.tracker.real

instance {l : Ledger} : Decidable l.Conserved :=
  inferInstanceAs (Decidable (_ = _))

theorem conserved_iff {l : Ledger} : l.Conserved ↔ l.tracker.missing = l.discarded := by
  simp only [Conserved, Tracker.missing, booked, Metric.net_eq_counts]
  omega

theorem conserved_step_iff {l : Ledger} (op : Op) (hr : l.tracker.recorder.isSome)
    (hc : l.Conserved) : (l.step cfg op).Conserved ↔ l.tracker.Faithful op := by
  rw [conserved_iff] at hc ⊢
  simp only [step, Tracker.missing_step op hr, ← Tracker.strays_eq_zero_iff]
  push_cast
  omega

-- Accounting is conserved along a run exactly if all its completions are faithful.
theorem conserved_iff_faithful (ops : List Op) :
    Run.Always (step cfg) Conserved {} ops ↔
      Run.Along (step cfg) (fun l op => l.tracker.Faithful op) {} ops :=
  Run.always_iff_along (J := fun l => l.tracker.recorder.isSome)
    (fun _ op hr => (Tracker.isSome_recorder_step op).trans hr)
    (fun _ op hr hc => conserved_step_iff cfg op hr hc) rfl rfl

-- SeqNum 2 of a block flow is lost. Its NACK waits for a free dispatch slot long enough for the
-- next sweep to queue a second copy, and the pipeline rejects the retransmit that answers each of
-- them.
def twiceRejected : List Op :=
  let at' (n : Int) : Instant := { now := Time.ms n, jitter := fun _ => 0 }
  let frame (seq : SeqNum) : Arrival :=
    { owner := 0, groupIdx := 0xFFFE, subtreeID := .zero, hashKey := 7, seqNum := seq
      source := some 1 }
  let copy (next : Int) : GapEntry :=
    { hashKey := 7, seqNum := 2, groupIdx := 0xFFFE, subtreeID := .zero, source := some 1
      nextAttempt := Time.ms next, deadline := Time.ms 600001, owner := 0 }
  [.observe (at' 0) (frame 1), .observe (at' 1) (frame 3),
    .sweep (Time.ms 10) (fun _ _ => true), .sweep (Time.ms 420) (fun _ _ => true),
    .complete (at' 500) (copy 410) (.abandon .rejected),
    .complete (at' 600) (copy 820) (.abandon .rejected)]

theorem twiceRejected_not_conserved :
    Run.Along (step .default) (fun l op => l.tracker.Enabled op) {} twiceRejected ∧
      ¬(Run.exec (step .default) {} twiceRejected).Conserved := by
  decide

end Ledger
end Nack
