import ShardListener.Nack.Theorems.Walk
import ShardListener.Worker.Recovery
import ShardListener.Worker.Theorems.Reinject

namespace Nack

section

variable {σ : Type} {f : Bytes → σ → Bool × σ} {e : GapEntry} {n : Nat} {deadline : Time}
variable {ack : Bool} {w : σ}
variable {ds : List (Time × Bytes)}

theorem drain_declines (h : Declines deadline ack ds) (hs : e.speculative = false) :
    ∃ imm k, drain (some f) e n deadline ack w ds = (.advance imm k, w) := by
  have hne : MsgType.miss ≠ MsgType.ack := by decide
  induction h
  case silence ack => cases ack <;> exact ⟨_, _, rfl⟩
  case late ack _ _ h =>
    simp only [drain, if_pos h]
    cases ack <;> exact ⟨_, _, rfl⟩
  case miss h hr hd hm =>
    simp only [drain, if_neg (not_lt.mpr h), hr, decide_false, hd, hm, if_neg hne, if_true, hs,
      Bool.false_eq_true, if_false]
    exact ⟨_, _, rfl⟩
  case junk h hr hd _ hi =>
    simp only [drain, if_neg (not_lt.mpr h), hr, decide_false, hd]
    exact hi
  case ack h hr hd hm hu _ hi =>
    simp only [drain, if_neg (not_lt.mpr h), hr, decide_false, hd, hm, if_true]
    rw [if_pos ⟨hu, rfl⟩]
    exact hi

theorem drain_delivers {frame : Bytes} (h : Delivers frame deadline ds) (hf : isRetransmit frame) :
    drain (some f) e n deadline ack w ds =
      (if (f frame w).1 then .cancel else .abandon .rejected, (f frame w).2) := by
  induction h generalizing ack
  case data h => simp only [drain, if_neg (not_lt.mpr h), hf, decide_true]
  case junk h hr hd _ hi => simp only [drain, if_neg (not_lt.mpr h), hr, decide_false, hd, hi]
  case ack h hr hd hm hu _ hi =>
    simp only [drain, if_neg (not_lt.mpr h), hr, decide_false, hd, hm, if_true, hi]
    exact if_pos ⟨hu, rfl⟩

end

-- The entry as the sweep leaves it when it queues a copy.
def GapEntry.dispatched (now : Time) (g : GapEntry) : GapEntry :=
  { g with nextAttempt := now + (respTimeout + Time.ms 100) }

-- It is time to ask for the frame.
structure GapEntry.Due (cfg : Config) (now : Time) (g : GapEntry) : Prop where
  due  : g.nextAttempt < now
  kept : ¬g.expired cfg now

instance {cfg : Config} {now : Time} {g : GapEntry} : Decidable (g.Due cfg now) :=
  decidable_of_iff (g.nextAttempt < now ∧ ¬g.expired cfg now) ⟨fun h => ⟨h.1, h.2⟩,
    fun h => ⟨h.1, h.2⟩⟩

-- The entry of the same gap, with `k` endpoints tried since.
structure GapEntry.MovedOn (k : Nat) (g g' : GapEntry) : Prop where
  hashKey     : g'.hashKey = g.hashKey
  seqNum      : g'.seqNum = g.seqNum
  speculative : g'.speculative = g.speculative
  endpointIdx : g'.endpointIdx = g.endpointIdx + k

namespace GapEntry.MovedOn

variable {k m : Nat} {g g' g'' : GapEntry} {cfg : Config} {i : Instant} {now : Time} {imm : Bool}
variable {n : Nat}

theorem refl : g.MovedOn 0 g :=
  ⟨rfl, rfl, rfl, rfl⟩

theorem trans (h : g.MovedOn k g') (h' : g'.MovedOn m g'') : g.MovedOn (k + m) g'' where
  hashKey     := h'.hashKey.trans h.hashKey
  seqNum      := h'.seqNum.trans h.seqNum
  speculative := h'.speculative.trans h.speculative
  endpointIdx := by rw [h'.endpointIdx, h.endpointIdx, Nat.add_assoc]

theorem dispatched : g.MovedOn 0 (g.dispatched now) :=
  ⟨rfl, rfl, rfl, rfl⟩

theorem advanceEntry : g.MovedOn 1 (FlowState.advanceEntry cfg i imm n g) := by
  simp only [FlowState.advanceEntry]
  split
  case isTrue  => exact ⟨rfl, rfl, rfl, rfl⟩
  case isFalse => exact ⟨rfl, rfl, rfl, rfl⟩

end GapEntry.MovedOn

namespace FlowState

variable {cfg : Config} {now : Time} {fs : FlowState} {seq : SeqNum} {g : GapEntry}
variable {room : SeqNum → Bool}

theorem sweepEntry_due (hl : fs.pending.lookup seq = some g) (hg : g.Due cfg now) :
    fs.sweepEntry cfg now true seq =
      { flow   := { fs with pending := fs.pending.insert seq (g.dispatched now) }
        queued := [g.dispatched now] } := by
  obtain ⟨hd, hr⟩ := not_or.mp hg.kept
  simp only [sweepEntry, hl, if_neg hd, if_neg hr, if_pos hg.due, if_true]
  rfl

theorem lookup_sweepEntries_of_not_mem {ss : List SeqNum} (hm : seq ∉ ss) :
    (fs.sweepEntries cfg now room ss).flow.pending.lookup seq = fs.pending.lookup seq := by
  induction ss generalizing fs
  case nil => rfl
  case cons s ss hi =>
    obtain ⟨hne, hm⟩ := not_or.mp (List.mem_cons.not.mp hm)
    exact (hi hm).trans (sweepEntry_swept.lookup_ne hne)

theorem sweepEntries_due (room : SeqNum → Bool) {ss : List SeqNum} (hn : ss.Nodup) (hm : seq ∈ ss)
    (hroom : room seq) (hl : fs.pending.lookup seq = some g) (hg : g.Due cfg now) :
    (fs.sweepEntries cfg now room ss).flow.pending.lookup seq = some (g.dispatched now) ∧
      g.dispatched now ∈ (fs.sweepEntries cfg now room ss).queued := by
  induction ss generalizing fs
  case nil => cases hm
  case cons s ss hi =>
    obtain ⟨hnot, hn⟩ := List.nodup_cons.mp hn
    by_cases es : seq = s
    case pos =>
      subst es
      simp only [sweepEntries, hroom, sweepEntry_due hl hg]
      refine ⟨(lookup_sweepEntries_of_not_mem hnot).trans (AList.lookup_insert _), ?_⟩
      exact List.mem_append_left _ (List.mem_singleton_self _)
    case neg =>
      have hl' : (fs.sweepEntry cfg now (room s) s).flow.pending.lookup seq = some g :=
        (sweepEntry_swept.lookup_ne es).trans hl
      obtain ⟨hlook, hq⟩ := hi hn ((List.mem_cons.mp hm).resolve_left es) hl'
      exact ⟨hlook, List.mem_append_right _ hq⟩

theorem sweep_due (hk : HashKey) (hroom : room seq) (hl : fs.pending.lookup seq = some g)
    (hg : g.Due cfg now) :
    (∃ f, fs.swept cfg hk now room = some f ∧ f.pending.lookup seq = some (g.dispatched now)) ∧
      g.dispatched now ∈ (fs.sweep cfg hk now room).queued := by
  have hp : (fs.purgeAbandoned now).pending.lookup seq = some g := hl
  have hm : seq ∈ (fs.purgeAbandoned now).pending.keys :=
    AList.mem_keys.mpr (AList.mem_iff_lookup.mpr ⟨g, hp⟩)
  obtain ⟨hlook, hq⟩ := sweepEntries_due room (AList.keys_nodup _) hm hroom hp hg
  have hz : ((fs.purgeAbandoned now).sweepEntries cfg now room
      (fs.purgeAbandoned now).pending.keys).flow.pending.size ≠ 0 := by
    intro hz
    cases (AList.size_eq_zero_iff.mp hz seq).symm.trans hlook
  have hs : fs.sweep cfg hk now room = (fs.purgeAbandoned now).sweepEntries cfg now room
    (fs.purgeAbandoned now).pending.keys := if_neg hz
  refine ⟨⟨_, ?_, hlook⟩, hs ▸ hq⟩
  simp only [swept, hs]
  exact if_neg fun hi => hz hi.1

end FlowState

namespace Tracker

variable {cfg : Config} {now : Time} {room : HashKey → SeqNum → Bool} {t : Tracker}
variable {hk hk' : HashKey}
variable {fs : FlowState} {e g : GapEntry} {seq : SeqNum} {i : Instant}

theorem mem_inFlight_sweepFlow (he : e ∈ t.inFlight) :
    e ∈ (t.sweepFlow cfg now room hk).inFlight := by
  have ho : e ∈ (t.onFlow hk (·.sweep cfg hk now (room hk))).inFlight := by
    unfold onFlow
    split
    case h_1 => exact he
    case h_2 => exact List.mem_append_left _ he
  simp only [sweepFlow]
  split
  case h_1 => exact ho
  case h_2 => split <;> exact ho

theorem mem_inFlight_sweepFlow_self (hl : t.flows.lookup hk = some fs)
    (he : e ∈ (fs.sweep cfg hk now (room hk)).queued) :
    e ∈ (t.sweepFlow cfg now room hk).inFlight := by
  have ho : e ∈ (t.onFlow hk (·.sweep cfg hk now (room hk))).inFlight := by
    simp only [onFlow, hl]
    exact List.mem_append_right _ he
  simp only [sweepFlow]
  split
  case h_1 => exact ho
  case h_2 => split <;> exact ho

-- What the sweep of a flow queues is in flight after the sweep of all.
theorem mem_inFlight_sweepOnce (hl : t.flows.lookup hk = some fs)
    (he : e ∈ (fs.sweep cfg hk now (room hk)).queued) :
    e ∈ (t.sweepOnce cfg now room).inFlight := by
  have hlater {hks : List HashKey} {t : Tracker} (he : e ∈ t.inFlight) :
      e ∈ (hks.foldl (sweepFlow cfg now room) t).inFlight :=
    Run.exec_of_step (e ∈ Tracker.inFlight ·) (fun _ _ => mem_inFlight_sweepFlow) he
  have hm : hk ∈ t.flows.keys := AList.mem_keys.mpr (AList.mem_iff_lookup.mpr ⟨fs, hl⟩)
  rw [sweepOnce]
  generalize t.flows.keys = hks at hm
  induction hks generalizing t
  case nil => cases hm
  case cons hk' hks hi =>
    rw [List.foldl_cons]
    by_cases ek : hk = hk'
    case pos => subst ek; exact hlater (mem_inFlight_sweepFlow_self hl he)
    case neg =>
      refine hi ?_ ((List.mem_cons.mp hm).resolve_left ek)
      rw [lookup_sweepFlow, if_neg ek, hl]

-- The sweep asks for the frame, if it is time.
theorem entry_sweepOnce_due (hroom : room hk seq) (hg : t.entry hk seq = some g)
    (hdue : g.Due cfg now) :
    (t.sweepOnce cfg now room).entry hk seq = some (g.dispatched now) ∧
      g.dispatched now ∈ (t.sweepOnce cfg now room).inFlight := by
  obtain ⟨fs, hl, hp⟩ := Option.bind_eq_some_iff.mp hg
  obtain ⟨⟨f, hf, hlook⟩, hq⟩ := FlowState.sweep_due hk hroom hp hdue
  refine ⟨?_, mem_inFlight_sweepOnce hl hq⟩
  rw [entry, lookup_sweepOnce, hl, Option.bind_some, hf, Option.bind_some, hlook]

theorem entry_advanceEndpoint {imm : Bool} {n : Nat} (hk' : e.hashKey = hk) (hs : e.seqNum = seq)
    (hg : t.entry hk seq = some g) :
    (t.advanceEndpoint cfg i e imm n).entry hk seq =
      some (FlowState.advanceEntry cfg i imm n g) := by
  obtain ⟨fs, hl, hp⟩ := Option.bind_eq_some_iff.mp hg
  simp only [Tracker.advanceEndpoint, entry_onFlow, hk', if_true, hl, Option.bind_some,
    FlowState.lookup_advanceEndpoint, hs, hp, Option.map_some]

-- A gap that is cancelled or abandoned is not pending.

theorem entry_cancelGap (hk' : e.hashKey = hk) (hs : e.seqNum = seq) :
    (t.cancelGap e).entry hk seq = none := by
  simp only [Tracker.cancelGap, entry_onFlow, hk', if_true]
  cases t.flows.lookup hk
  case none => rfl
  case some fs =>
    rw [Option.bind_some, FlowState.cancelGap]
    cases ha : fs.autoFill t.recorder.isSome e.seqNum
    case none   => exact FlowState.autoFill_none_iff.mp (hs ▸ ha)
    case some r =>
      have hp := (FlowState.autoFill_some ha).1.pending
      rw [Option.getD_some, hp, hs, AList.lookup_erase]

theorem entry_abandonGap {reason : AbandonReason} (hk' : e.hashKey = hk) (hs : e.seqNum = seq) :
    (t.abandonGap now e reason).entry hk seq = none := by
  simp only [Tracker.abandonGap, entry_onFlow, hk', if_true]
  cases t.flows.lookup hk
  case none    => rfl
  case some fs => rw [Option.bind_some, FlowState.abandonGap_pending, hs, AList.lookup_erase]

end Tracker
end Nack

namespace Node

open Worker Nack

variable {wire : Wire} {cfg : Settings} {n : Node} {hk : HashKey} {seq : SeqNum} {g e : GapEntry}
variable {a : Attempt} {as : List Attempt} {num : Nat} {frame : Bytes}

-- The event leaves the gap alone: the frame does not come, and the gap is not given up.
def Spares (wire : Wire) (cfg : Settings) (hk : HashKey) (seq : SeqNum) (n : Node) (ev : Event) :
    Prop :=
  (n.react wire cfg ev).entry hk seq = n.entry hk seq

theorem entry_exec {evs : List Event}
    (h : Run.Along (react wire cfg) (Spares wire cfg hk seq) n evs) :
    (Run.exec (react wire cfg) n evs).entry hk seq = n.entry hk seq := by
  induction evs generalizing n
  case nil => rfl
  case cons ev evs hi => exact (hi h.2).trans h.1

theorem entry_tracker {op : Op} :
    (n.react wire cfg (.tracker op)).entry hk seq =
      n.worker.tracker.bind fun t => (t.step cfg.nack op).entry hk seq := by
  simp only [react, entry, Option.bind_map]
  rfl

-- The sweep comes when it is time, there is room in the queue, and the other events leave the gap
-- alone.
structure Fits (wire : Wire) (cfg : Settings) (hk : HashKey) (seq : SeqNum) (n : Node)
    (a : Attempt) : Prop where
  due    : ∀ g ∈ n.entry hk seq, g.Due cfg.nack a.now
  room   : a.room hk seq
  before : Run.Along (react wire cfg) (Spares wire cfg hk seq) n a.before
  during : Run.Along (react wire cfg) (Spares wire cfg hk seq) (n.swept wire cfg a) a.during

theorem Fits.swept (h : n.Fits wire cfg hk seq a) (hg : n.entry hk seq = some g) :
    (n.swept wire cfg a).entry hk seq = some (g.dispatched a.now) ∧
      g.dispatched a.now ∈ (n.swept wire cfg a).inFlight := by
  have hb : (Run.exec (react wire cfg) n a.before).entry hk seq = some g :=
    (entry_exec h.before).trans hg
  obtain ⟨t, ht, he⟩ := Option.bind_eq_some_iff.mp hb
  obtain ⟨hentry, hq⟩ := Tracker.entry_sweepOnce_due h.room he (h.due g hg)
  refine ⟨?_, ?_⟩
  case refine_1 =>
    rw [Node.swept, entry_tracker, ht]
    exact hentry
  case refine_2 =>
    simp only [Node.swept, react, Node.inFlight, ht, Option.map_some, Option.getD_some]
    exact hq

theorem Fits.asked (h : n.Fits wire cfg hk seq a) (hg : n.entry hk seq = some g) :
    (n.asked wire cfg a).entry hk seq = some (g.dispatched a.now) :=
  (entry_exec h.during).trans (h.swept hg).1

theorem Fits.attempt (h : n.Fits wire cfg hk seq a) (hg : n.entry hk seq = some g) :
    n.attempt wire cfg num hk seq a =
      (n.asked wire cfg a).concluded wire cfg num a (g.dispatched a.now) := by
  obtain ⟨hentry, hq⟩ := h.swept hg
  simp only [Node.attempt, hentry, if_pos hq]

-- If the endpoint does not bring the frame, the gap moves on to the next one.
theorem entry_concluded_declines (hg : n.entry hk seq = some g) (hk' : g.hashKey = hk)
    (hs : g.seqNum = seq) (hspec : g.speculative = false)
    (hd : Declines (a.sentAt + respTimeout) false (a.answer (g.snapshotIdx num))) :
    ∃ g', (n.concluded wire cfg num a g).entry hk seq = some g' ∧ g.MovedOn 1 g' := by
  obtain ⟨imm, k, hdrain⟩ :
      ∃ imm k, Nack.drain (some fun raw (n : Node) => n.reinject wire cfg a.env raw) g num
    (a.sentAt + respTimeout) false n (a.answer (g.snapshotIdx num)) = (.advance imm k, n) :=
      drain_declines hd hspec
  obtain ⟨t, ht, he⟩ := Option.bind_eq_some_iff.mp hg
  refine ⟨FlowState.advanceEntry cfg.nack a.instant imm k g, ?_, .advanceEntry⟩
  simp only [concluded, sendNACK, hdrain, entry_tracker, ht, Option.bind_some]
  exact Tracker.entry_advanceEndpoint hk' hs he

-- If it does, the frame is processed as one off the wire, and the gap is closed.
theorem concluded_delivers (hk' : g.hashKey = hk) (hs : g.seqNum = seq) (hf : isRetransmit frame)
    (hd : Delivers frame (a.sentAt + respTimeout) (a.answer (g.snapshotIdx num))) :
    (n.concluded wire cfg num a g).entry hk seq = none ∧
      ∃ op, n.concluded wire cfg num a g =
        (n.react wire cfg (.datagram { a.env with source := none } frame)).react wire cfg
          (.tracker op) := by
  simp only [concluded, sendNACK, drain_delivers hd hf]
  refine ⟨?_, _, rfl⟩
  rw [entry_tracker, Option.bind_eq_none_iff]
  intro t _
  split
  case isTrue  => exact Tracker.entry_cancelGap hk' hs
  case isFalse => exact Tracker.entry_abandonGap hk' hs

theorem snapshotIdx_eq_min : g.snapshotIdx num = min g.endpointIdx (num - 1) := by
  simp only [GapEntry.snapshotIdx]
  split <;> omega

-- The attempts that do not bring the frame take the gap from one endpoint to the next, and at last
-- to the deepest.
theorem entry_attempts (hg : n.entry hk seq = some g) (hk' : g.hashKey = hk) (hs : g.seqNum = seq)
    (hspec : g.speculative = false)
    (hfit : Run.Along (attempt wire cfg num hk seq) (Fits wire cfg hk seq) n as)
    (hd : ∀ (k : Nat) (r : Attempt), as[k]? = some r →
      Declines (r.sentAt + respTimeout) false (r.answer (min (g.endpointIdx + k) (num - 1)))) :
    ∃ g', (Run.exec (attempt wire cfg num hk seq) n as).entry hk seq = some g' ∧
      g.MovedOn as.length g' := by
  induction as generalizing n g
  case nil => exact ⟨g, hg, .refl⟩
  case cons r rs hi =>
    have h₀ :
        Declines (r.sentAt + respTimeout) false (r.answer ((g.dispatched r.now).snapshotIdx num)) :=
      snapshotIdx_eq_min ▸ hd 0 r rfl
    obtain ⟨g₁, hg₁, hm₁⟩ :
        ∃ g₁, ((n.asked wire cfg r).concluded wire cfg num r (g.dispatched r.now)).entry hk seq =
      some g₁ ∧ (g.dispatched r.now).MovedOn 1 g₁ :=
        entry_concluded_declines (hfit.1.asked hg) hk' hs hspec h₀
    have hm : g.MovedOn 1 g₁ := (GapEntry.MovedOn.dispatched.trans hm₁ : g.MovedOn (0 + 1) g₁)
    have hg₁ : (n.attempt wire cfg num hk seq r).entry hk seq = some g₁ :=
      (hfit.1.attempt hg).symm ▸ hg₁
    obtain ⟨g₂, hg₂, hm₂⟩ :=
      hi hg₁ (hm.hashKey.trans hk') (hm.seqNum.trans hs) (hm.speculative.trans hspec) hfit.2
      fun k x hx => by
        rw [hm.endpointIdx, Nat.add_assoc, Nat.add_comm 1]
        exact hd (k + 1) x hx
    refine ⟨g₂, hg₂, ?_⟩
    rw [List.length_cons, Nat.add_comm]
    exact hm.trans hm₂

def gapped : Node where
  buffer := none
  worker := { tracker := some Tracker.gappedTracker }

def lostTwo : GapEntry where
  hashKey     := 7
  seqNum      := 2
  groupIdx    := 0xFFFE
  subtreeID   := .zero
  source      := some 1
  nextAttempt := Time.ms 10
  deadline    := Time.ms 600010
  owner       := 0

def quiet (sweep done : Int) (answer : Nat → List (Time × Bytes)) : Attempt where
  before  := []
  now     := Time.ms sweep
  room    := fun _ _ => true
  during  := []
  env     := Env.blank
  instant := ⟨Time.ms done, fun _ => 0⟩
  sentAt  := Time.ms sweep
  answer  := answer

def missForTwo : Bytes :=
  [0xE3, 0xE1, 0xF3, 0xE8, 0, 0, MsgType.miss] ++ List.replicate 9 0

def declined : List Attempt :=
  [quiet 50 350 fun _ => [], quiet 1000 1010 fun _ => [(Time.ms 1010, missForTwo)]]

def repaired : Attempt :=
  quiet 1050 1060 fun _ => [(Time.ms 1060, magicOnly)]

theorem quiet_fits {sweep done : Int} {answer : Nat → List (Time × Bytes)}
    (hdue : ∀ g ∈ n.entry hk seq, g.Due cfg.nack (Time.ms sweep)) :
    n.Fits wire cfg hk seq (quiet sweep done answer) :=
  ⟨hdue, rfl, trivial, trivial⟩

end Node
