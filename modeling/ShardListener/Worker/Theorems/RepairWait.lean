import ShardListener.Extensions.Run
import ShardListener.Nack.System
import ShardListener.Nack.Theorems.Pending
import ShardListener.Reassembly.Theorems.Exact
import ShardListener.Reassembly.Theorems.Wait
import ShardListener.Worker.Theorems.Lossless

-- The reassembly buffer of a worker and the gap tracker, wired as in `main`.
namespace Repair

open Worker Reassembly

-- The state, with a record of the completed objects.
abbrev State := Buffer × (Worker × List Delivery)

-- Fragments and ticks reach the buffer. The tracker is also driven by other frames, by its own
-- sweeps and by the answers to NACKs.
inductive Event
  | fragment (env : Env) (ff : FragFrame)
  | tick (env : Env)
  | tracker (op : Nack.Op)

variable (wire : Wire) (cfg : Settings)

def callbacks (env : Env) : Hooks (Worker × List Delivery) :=
  (hooks wire cfg env true).recorded

def step (p : State) : Event → State
  | .fragment env ff =>
    let h := callbacks wire cfg env
    let p := Buffer.observe wire.toFormats cfg.reassembly h env.instant p ff
    (p.1, p.2.1.trackFragment cfg env ff, p.2.2)
  | .tick env => Buffer.tick cfg.reassembly (callbacks wire cfg env) env.instant p
  | .tracker op =>
    (p.1, { p.2.1 with tracker := p.2.1.tracker.map (·.step cfg.nack op) }, p.2.2)

-- The sweep of the buffer that the event starts with.
def Event.sweep (b : Buffer) : Event → Option Env
  | fragment env _ =>
    if Buffer.sweepEvery cfg.reassembly ≤ Time.sub env.instant.now b.lastEvict then some env
    else none
  | tick env       => some env
  | tracker _      => none

-- One object is followed.
variable (o : Object)

-- The fragments under its key are its own. They may come in any flow, and under any SeqNum.
def Event.Legal : Event → Prop
  | fragment _ ff =>
    slotKey wire.toFormats ff = o.key wire.toFormats →
      ∃ j < o.total, ff = o.fragment j ff.hashKey ff.seqNum
  | _ => True

instance : DecidablePred (Event.Legal wire o)
  | .fragment .. => inferInstanceAs (Decidable (_ → ∃ j < o.total, _))
  | .tick _      => .isTrue trivial
  | .tracker _   => .isTrue trivial

-- The fragments of the object that have arrived.
def Event.after (got : Finset Nat) : Event → Finset Nat
  | fragment _ ff =>
    if slotKey wire.toFormats ff = o.key wire.toFormats then insert ff.fragIndex got else got
  | _ => got

def arrived (es : List Event) : Finset Nat :=
  es.foldl (Event.after wire o) ∅

-- The tracker has the flow.
def Tracked (hk : HashKey) (w : Worker) : Prop :=
  ∃ t ∈ w.tracker, (t.flows.lookup hk).isSome

-- No capacity pressure, no flow refusal, and the object has not reached the age limit. A refused
-- flow is not there after the sweep in which the slot asks.
def Promised (p : State) (e : Event) : Prop :=
  (e matches .fragment .. → p.1.slots.size < cfg.reassembly.maxSlots) ∧
    ∀ env ∈ e.sweep cfg p.1, ∀ s ∈ p.1.slots.lookup (o.key wire.toFormats),
      s.deadline < env.instant.now →
        env.instant.now < s.born + cfg.reassembly.maxAge ∧
          (s.requested = false → Tracked s.hashKey
            (Buffer.evictExpired cfg.reassembly (callbacks wire cfg env) env.instant p).2.1)

-- A sweep that finds the slot past its deadline finds a SeqNum for one of the missing fragments
-- and, if it is not for the first time, finds one of these SeqNums pending.
def Awaited (p : State) (e : Event) : Prop :=
  ∀ env ∈ e.sweep cfg p.1, ∀ s ∈ p.1.slots.lookup (o.key wire.toFormats),
    s.deadline < env.instant.now →
      s.missingSeqNums ≠ [] ∧ (s.requested = true →
        ∃ t ∈ p.2.1.tracker, t.pending s.hashKey s.missingSeqNums = true)

-- The slot of the object is open from its first fragment to its last, and then it is delivered.
def Intact (got : Finset Nat) (p : State) : Prop :=
  (got ≠ ∅ → got ≠ Finset.range o.total → o.key wire.toFormats ∈ p.1.slots) ∧
    (got = Finset.range o.total → ∃ d ∈ p.2.2, d.unstamped = o.delivery 0 0)

instance {hk : HashKey} {w : Worker} : Decidable (Tracked hk w) :=
  inferInstanceAs (Decidable (∃ t ∈ _, _))

instance {p : State} {e : Event} : Decidable (Promised wire cfg o p e) :=
  inferInstanceAs (Decidable (_ ∧ ∀ env ∈ _, ∀ s ∈ _, _))

instance {p : State} {e : Event} : Decidable (Awaited wire cfg o p e) :=
  inferInstanceAs (Decidable (∀ env ∈ _, ∀ s ∈ _, _))

instance {got : Finset Nat} {p : State} : Decidable (Intact wire o got p) :=
  inferInstanceAs (Decidable (_ ∧ _))

section

variable {wire : Wire} {cfg : Settings} {o : Object} {hk : HashKey} {seq : SeqNum} {env : Env}
variable {i : Instant} {got : Finset Nat} {p : State} {s : Slot} {j : Nat} {ff : FragFrame}
variable {w : Worker × List Delivery} {e : Event} {es : List Event}

-- The answer of the tracker to the buffer's question.
def pending (w : Worker × List Delivery) (hk : HashKey) (seqs : List SeqNum) : Bool :=
  w.1.tracker.any (·.pending hk seqs)

theorem pending_iff {seqs : List SeqNum} :
    pending w hk seqs = true ↔ ∃ t, w.1.tracker = some t ∧ t.pending hk seqs = true := by
  simp [pending, Option.any_eq_true]

theorem tracker_onIncomplete {t : Nack.Tracker} {q : Incomplete} (ht : w.1.tracker = some t) :
    ((callbacks wire cfg env).onIncomplete i q w).1.tracker =
      some (t.requestGapsFrom cfg.nack i env.room (gapRequest cfg q)) := by
  simp only [callbacks, Hooks.recorded, hooks, ht, Option.map_some]

theorem pending_onIncomplete {seqs : List SeqNum} {q : Incomplete}
    (hp : pending w hk seqs = true) :
    pending ((callbacks wire cfg env).onIncomplete i q w) hk seqs = true := by
  have ⟨t, ht, hp⟩ := pending_iff.mp hp
  exact pending_iff.mpr
    ⟨_, tracker_onIncomplete ht, Nack.Tracker.pending_requestGapsFrom _ _ _ _ hp⟩

-- The tracker has the flow, or has room for it.
def Accepts (cfg : Settings) (hk : HashKey) (w : Worker) : Prop :=
  ∃ t, w.tracker = some t ∧ ((t.flows.lookup hk).isSome ∨ ¬t.full cfg.nack)

theorem Tracked.accepts {w : Worker} (h : Tracked hk w) : Accepts cfg hk w := by
  obtain ⟨t, ht, hl⟩ := h
  exact ⟨t, ht, .inl hl⟩

theorem Accepts.of_onIncomplete {q : Incomplete}
    (h : Accepts cfg hk ((callbacks wire cfg env).onIncomplete i q w).1) : Accepts cfg hk w.1 := by
  obtain ⟨t', ht', ha⟩ := h
  cases ht : w.1.tracker
  case none =>
    simp only [callbacks, Hooks.recorded, hooks, ht, Option.map_none] at ht'
    cases ht'
  case some t =>
    obtain rfl := Option.some.inj ((tracker_onIncomplete ht).symm.trans ht')
    refine ⟨t, ht, ?_⟩
    by_contra hno
    obtain ⟨hn, hf⟩ := not_or.mp hno
    obtain ⟨hn', hf'⟩ := Nack.Tracker.requestGapsFrom_refuses cfg.nack i env.room (gapRequest cfg q)
      (Option.not_isSome_iff_eq_none.mp hn) (not_not.mp hf)
    rcases ha with hl | hr
    case inl => simp [hn'] at hl
    case inr => exact hr hf'

-- The tracker grants the slot what it needs to wait.
theorem grants :
    (callbacks wire cfg env).Grants pending s fun w => Accepts cfg s.hashKey w.1 where
  installed := rfl
  waits     := ⟨fun _ _ _ hp => hp, fun _ _ _ hp => pending_onIncomplete hp⟩
  refuses   := ⟨fun _ _ _ hn => hn, fun _ _ _ hn h => hn h.of_onIncomplete⟩
  asks hm i w ha := by
    obtain ⟨t, ht, ha⟩ := ha
    let q := gapRequest cfg (Buffer.incomplete s s.missingSeqNums)
    have hp : (t.requestGapsFrom cfg.nack i env.room q).pending q.hashKey q.seqs = true :=
      Nack.Tracker.pending_requested i env.room hm ha
    exact pending_iff.mpr ⟨_, tracker_onIncomplete ht, hp⟩

-- The object is on its way: no fragment has come, or its slot has those that have.
def Underway (wire : Wire) (o : Object) (got : Finset Nat) : Option Slot → Prop
  | none   => got = ∅
  | some s => got ≠ ∅ ∧ SlotOf wire.toFormats o got s

-- What holds of the followed object after the fragments in `got`.
structure Tracks (wire : Wire) (o : Object) (got : Finset Nat) (p : State) : Prop where
  keyed : p.1.Keyed
  slot  : got ≠ Finset.range o.total →
    Underway wire o got (p.1.slots.lookup (o.key wire.toFormats))
  done  : got ≠ Finset.range o.total → o.key wire.toFormats ∉ p.1.done
  log   : got = Finset.range o.total → ∃ d ∈ p.2.2, d.unstamped = o.delivery 0 0

theorem Tracks.intact (ht : Tracks wire o got p) : Intact wire o got p := by
  refine ⟨fun hne hn => ?_, ht.log⟩
  have hs := ht.slot hn
  cases hl : p.1.slots.lookup (o.key wire.toFormats)
  case none   => rw [hl] at hs; exact absurd hs hne
  case some s => exact AList.mem_iff_lookup.mpr ⟨s, hl⟩

-- A delivery that is recorded stays so.
theorem spares_log {d : Delivery} : (callbacks wire cfg env).Spares fun w => d ∈ w.2 where
  metric _ _ _ hw       := hw
  onIncomplete _ _ _ hw := hw

theorem gather_log {d : Delivery} (hd : d ∈ p.2.2) :
    d ∈ (Buffer.gather wire.toFormats cfg.reassembly (callbacks wire cfg env) i ff p).2.2 := by
  refine Buffer.gather_env (P := fun w : Worker × List Delivery => d ∈ w.2) (Q := fun w => d ∈ w.2)
    (fun _ _ h => h) (fun _ h => h) (fun s _ w h => ?_) hd
  rw [callbacks, Hooks.recorded_deliver]
  exact List.mem_append_left _ h

-- The sweep.
theorem Tracks.evictExpired (ht : Tracks wire o got p)
    (hp : ∀ s ∈ p.1.slots.lookup (o.key wire.toFormats), s.deadline < env.instant.now →
      env.instant.now < s.born + cfg.reassembly.maxAge ∧
        (s.requested = false → Tracked s.hashKey
          (Buffer.evictExpired cfg.reassembly (callbacks wire cfg env) env.instant p).2.1))
    (hw : ∀ s ∈ p.1.slots.lookup (o.key wire.toFormats), s.deadline < env.instant.now →
      s.missingSeqNums ≠ [] ∧ (s.requested = true →
        ∃ t ∈ p.2.1.tracker, t.pending s.hashKey s.missingSeqNums = true)) :
    Tracks wire o got
      (Buffer.evictExpired cfg.reassembly (callbacks wire cfg env) env.instant p) where
  keyed      := ht.keyed.sweep fun _ => Buffer.evictExpired_outlives
  done hn hm := ht.done hn (Buffer.mem_done_of_evictExpired hm)
  log hn     := by
    have ⟨d, hd, e⟩ := ht.log hn
    exact ⟨d, spares_log.evictExpired hd, e⟩
  slot hn    := by
    have hs := ht.slot hn
    have ho : Outlives (p.1.slots.lookup (o.key wire.toFormats))
        ((Buffer.evictExpired cfg.reassembly (callbacks wire cfg env) env.instant p).1.slots.lookup
          (o.key wire.toFormats)) := Buffer.evictExpired_outlives
    cases hl : p.1.slots.lookup (o.key wire.toFormats)
    case none =>
      rw [hl] at hs ho
      cases hl' : (Buffer.evictExpired cfg.reassembly (callbacks wire cfg env) env.instant
        p).1.slots.lookup (o.key wire.toFormats)
      case none => exact hs
      case some s' =>
        have ⟨_, e, _⟩ := ho s' hl'
        cases e
    case some s =>
      rw [hl] at hs hp hw
      have ⟨hne, hso⟩ := hs
      obtain ⟨s', hl', hkept⟩ := Buffer.evictExpired_keeps grants hl
        (fun hd => ⟨(hw s rfl hd).1, (hp s rfl hd).1⟩)
        (fun hd hr => ((hp s rfl hd).2 hr).accepts)
        fun hd hr => pending_iff.mpr ((hw s rfl hd).2 hr)
      rw [hl']
      have ⟨_, _, _, e⟩ := hkept
      subst e
      exact ⟨hne, hso.kept⟩

-- A fragment of another object.
theorem Tracks.gather_other (ht : Tracks wire o got p)
    (hroom : p.1.slots.size < cfg.reassembly.maxSlots)
    (hne : slotKey wire.toFormats ff ≠ o.key wire.toFormats) :
    Tracks wire o got
      (Buffer.gather wire.toFormats cfg.reassembly (callbacks wire cfg env) i ff p) := by
  exact
    { keyed := ht.keyed.gather
      slot  := fun hn => by
        rw [(Buffer.gather_of_ne ht.keyed hroom hne.symm).1]
        exact ht.slot hn
      done  := fun hn hm => ht.done hn ((Buffer.gather_of_ne ht.keyed hroom hne.symm).2 hm)
      log   := fun hn => (ht.log hn).imp fun _ ⟨hm, e⟩ => ⟨gather_log hm, e⟩ }

-- A fragment of the object meets its slot.
theorem Tracks.accept (hkd : p.1.Keyed) (hd : o.key wire.toFormats ∉ p.1.done)
    (ha : o.Admissible wire.toFormats cfg.reassembly) (hj : j < o.total)
    (hl : p.1.slots.lookup (o.key wire.toFormats) = some s) (hs : SlotOf wire.toFormats o got s)
    (hn : got ≠ Finset.range o.total) :
    Tracks wire o (insert j got)
      (Buffer.accept wire.toFormats cfg.reassembly (callbacks wire cfg env) i
        (o.fragment j hk seq) p
        s) := by
  have hkeyed : (Buffer.accept wire.toFormats cfg.reassembly (callbacks wire cfg env) i
      (o.fragment j hk seq) p s).1.Keyed := Buffer.All.accept (fun _ => Slot.receive_key) hkd
  by_cases hm : j ∈ got
  case pos =>
    rw [Buffer.accept_old hs hj hm, Finset.insert_eq_of_mem hm]
    refine ⟨hkd, fun _ => ?_, fun _ => hd, fun e => absurd e hn⟩
    rw [hl]
    exact ⟨Finset.ne_empty_of_mem hm, hs⟩
  case neg =>
    by_cases hall : insert j got = Finset.range o.total
    case neg =>
      rw [Buffer.accept_next hs hj hm hall] at hkeyed ⊢
      refine ⟨hkeyed, fun _ => ?_, fun _ => hd, fun e => absurd e hall⟩
      rw [Buffer.lookup_putSlot, if_pos rfl]
      exact ⟨Finset.insert_ne_empty j got, hs.receive hk seq hj hm⟩
    case pos =>
      rw [Buffer.accept_last hs ha hj hm hall] at hkeyed ⊢
      refine ⟨hkeyed, fun hn => absurd hall hn, fun hn => absurd hall hn, fun _ => ?_⟩
      refine ⟨o.delivery s.hashKey s.seqNum, ?_, Delivery.unstamped_delivery⟩
      rw [callbacks, Hooks.recorded_deliver]
      exact List.mem_append_right _ List.mem_cons_self

-- A fragment of the object.
theorem Tracks.gather_own (ht : Tracks wire o got p)
    (hroom : p.1.slots.size < cfg.reassembly.maxSlots)
    (ha : o.Admissible wire.toFormats cfg.reassembly) (hj : j < o.total) :
    Tracks wire o (insert j got)
      (Buffer.gather wire.toFormats cfg.reassembly (callbacks wire cfg env) i (o.fragment j hk seq)
        p) := by
  by_cases hn : got = Finset.range o.total
  case pos =>
    have e : insert j got = Finset.range o.total := by
      rw [hn, Finset.insert_eq_of_mem (Finset.mem_range.mpr hj)]
    refine ⟨ht.keyed.gather, fun hn => absurd e hn, fun hn => absurd e hn, fun _ => ?_⟩
    exact (ht.log hn).imp fun _ ⟨hm, e⟩ => ⟨gather_log hm, e⟩
  case neg =>
    have hs := ht.slot hn
    cases hl : p.1.slots.lookup (o.key wire.toFormats)
    case some s =>
      rw [hl] at hs
      rw [Buffer.gather_slot (o.fragment j hk seq) hl]
      exact Tracks.accept ht.keyed (ht.done hn) ha hj hl hs.2 hn
    case none =>
      rw [hl] at hs
      have hempty : got = ∅ := hs
      subst hempty
      rw [Buffer.gather_first ha.fits hj hl (ht.done hn)]
      refine Tracks.accept (Buffer.All.openSlot rfl ht.keyed) ?_ ha hj ?_ Buffer.slotOf_newSlot hn
      case refine_1 =>
        simp only [Buffer.openSlot, if_neg (not_le.mpr hroom)]
        exact ht.done hn
      case refine_2 => simp only [Buffer.openSlot, Buffer.lookup_putSlot, if_true]

-- The sweep an event starts with.
theorem Tracks.sweepIfDue (ht : Tracks wire o got p)
    (hp : Promised wire cfg o p (.fragment env ff)) (hw : Awaited wire cfg o p (.fragment env ff)) :
    Tracks wire o got
      (Buffer.sweepIfDue cfg.reassembly (callbacks wire cfg env) env.instant p) := by
  unfold Buffer.sweepIfDue
  split
  case isTrue hdue =>
    have hsweep : Event.sweep cfg p.1 (.fragment env ff) = some env := if_pos hdue
    have hev : Tracks wire o got
        (Buffer.evictExpired cfg.reassembly (callbacks wire cfg env) env.instant p) :=
      ht.evictExpired (hp.2 env hsweep) (hw env hsweep)
    exact ⟨hev.keyed, hev.slot, hev.done, hev.log⟩
  case isFalse => exact ht

theorem Tracks.step (ht : Tracks wire o got p) (ha : o.Admissible wire.toFormats cfg.reassembly)
    (hl : e.Legal wire o) (hp : Promised wire cfg o p e) (hw : Awaited wire cfg o p e) :
    Tracks wire o (e.after wire o got) (step wire cfg p e) := by
  cases e
  case fragment env ff =>
    have hsw := ht.sweepIfDue hp hw
    have hsize : (Buffer.sweepIfDue cfg.reassembly (callbacks wire cfg env) env.instant
        p).1.slots.size < cfg.reassembly.maxSlots :=
      (Buffer.size_le_of_outlives fun _ => Buffer.sweepIfDue_outlives).trans_lt (hp.1 rfl)
    have hg : Tracks wire o (Event.after wire o got (.fragment env ff))
        (Buffer.observe wire.toFormats cfg.reassembly (callbacks wire cfg env)
          env.instant p ff) := by
      by_cases hkey : slotKey wire.toFormats ff = o.key wire.toFormats
      case pos =>
        have ⟨j, hj, e⟩ := hl hkey
        simp only [Event.after, if_pos hkey]
        rw [e]
        exact hsw.gather_own hsize ha hj
      case neg =>
        simp only [Event.after, if_neg hkey]
        exact hsw.gather_other hsize hkey
    exact ⟨hg.keyed, hg.slot, hg.done, hg.log⟩
  case tick env   => exact ht.evictExpired (hp.2 env rfl) (hw env rfl)
  case tracker op => exact ⟨ht.keyed, ht.slot, ht.done, ht.log⟩

theorem Tracks.exec (ht : Tracks wire o got p) (ha : o.Admissible wire.toFormats cfg.reassembly)
    (hl : ∀ e ∈ es, e.Legal wire o)
    (hp : Run.Along (Repair.step wire cfg) (Promised wire cfg o) p es)
    (hw : Run.Along (Repair.step wire cfg) (Awaited wire cfg o) p es) :
    Tracks wire o (es.foldl (Event.after wire o) got) (Run.exec (Repair.step wire cfg) p es) := by
  induction es generalizing p got
  case nil => exact ht
  case cons e es hi =>
    have hs := ht.step ha (hl e List.mem_cons_self) hp.1 hw.1
    exact hi hs (fun e' hm => hl e' (List.mem_cons_of_mem _ hm)) hp.2 hw.2

theorem Tracks.new {w : Worker} : Tracks wire o ∅ (({}, w, []) : State) where
  keyed _ _ h := nomatch h
  slot _      := rfl
  done _      := AList.notMem_empty _
  log e       := absurd e.symm o.range_total_ne_empty

-- Repair is not bypassed: in every run in which the sweeps past the deadline of an object's slot
-- find one of the SeqNums pending that the slot gives to its missing fragments, the slot stays open
-- until the last fragment has arrived, and then the object is delivered.
theorem intact_of_awaited {w : Worker} {es pre : List Event}
    (ha : o.Admissible wire.toFormats cfg.reassembly) (hl : ∀ e ∈ es, e.Legal wire o)
    (hp : Run.Along (step wire cfg) (Promised wire cfg o) ({}, w, []) es)
    (hw : Run.Along (step wire cfg) (Awaited wire cfg o) ({}, w, []) es) (hpre : pre <+: es) :
    Intact wire o (arrived wire o pre) (Run.exec (step wire cfg) ({}, w, []) pre) := by
  have ⟨suf, e⟩ := hpre
  subst e
  have ht := Tracks.new.exec ha (fun e hm => hl e (List.mem_append_left _ hm))
    (Run.Along.append.mp hp).1 (Run.Along.append.mp hw).1
  exact ht.intact

end

-- The SeqNums that have been answered by an ACK of which the repaired frame comes by multicast.
def acked (es : List Event) : List (HashKey × SeqNum) :=
  es.filterMap fun
    | .tracker (.complete _ e .cancel) => some (e.hashKey, e.seqNum)
    | _                                => none

-- The fragments are sent in the flow `hk`, the fragment `j` as `seq j`. After the first expiry of
-- the slot, each that is missing is pending or answered by such an ACK.
def Attended (hk : HashKey) (seq : Nat → SeqNum) (w : Worker) (es : List Event) : Prop :=
  ∀ n ∈ List.range (es.length + 1),
    let p := Run.exec (step wire cfg) ({}, w, []) (es.take n)
    ∀ s ∈ p.1.slots.lookup (o.key wire.toFormats), s.requested = true →
      ∀ j ∈ List.range o.total, s.held[j]? = some false →
        (∃ t ∈ p.2.1.tracker, t.pending hk [seq j] = true) ∨ (hk, seq j) ∈ acked (es.take n)

instance {hk : HashKey} {seq : Nat → SeqNum} {w : Worker} {es : List Event} :
    Decidable (Attended wire cfg o hk seq w es) :=
  inferInstanceAs (Decidable (∀ n ∈ _, ∀ s ∈ _, _))

-- The answers are to NACKs that are out.
def Answered (p : State) : Event → Prop
  | .tracker op => ∃ t ∈ p.2.1.tracker, t.Enabled op
  | _           => True

instance {p : State} : DecidablePred (Answered p)
  | .tracker _   => inferInstanceAs (Decidable (∃ t ∈ _, _))
  | .tick _      => .isTrue trivial
  | .fragment .. => .isTrue trivial

-- An object of two fragments, 1 and 2 of the flow 7. The second one comes after 20 s.

theorem twoFragments_total_le : 2 ≤ 65535 := by
  decide

def twoFragments : Object :=
  Node.bytewise 2 Nat.two_pos twoFragments_total_le

def tracked : Worker where
  tracker := some Nack.Tracker.new

def moment (ms : Int) : Env :=
  { Env.blank with instant := ⟨Time.ms ms, fun _ => 0⟩, source := some 1, room := 1 }

-- The copy of the gap that the first expiry, after 10 s, puts on the NACK queue.
def queuedGap : Nack.GapEntry where
  hashKey     := 7
  seqNum      := 2
  groupIdx    := 0
  subtreeID   := .zero
  source      := some 1
  nextAttempt := Time.ms 10001
  deadline    := Time.ms 610001
  owner       := 0

def waiting : List Event :=
  [.fragment (moment 0) (twoFragments.fragment 0 7 1), .tick (moment 10001), .tick (moment 20002),
    .fragment (moment 20005) (twoFragments.fragment 1 7 2)]

def ackedEarly : List Event :=
  [.fragment (moment 0) (twoFragments.fragment 0 7 1), .tick (moment 10001),
    .tracker (.complete ⟨Time.ms 19990, fun _ => 0⟩ queuedGap .cancel), .tick (moment 20002),
    .fragment (moment 20005) (twoFragments.fragment 1 7 2)]

theorem intact_waiting :
    Intact Wire.blank twoFragments (arrived Wire.blank twoFragments waiting)
      (Run.exec (step Wire.blank Settings.blank) ({}, tracked, []) waiting) :=
  intact_of_awaited ⟨by decide, by decide⟩ (by decide +kernel) (by decide +kernel)
    (by decide +kernel) List.prefix_rfl

-- The ACK for the missing fragment empties the pending set, the next sweep abandons the slot, and
-- the fragment that comes 3 ms later opens a new one.
theorem ackedEarly_not_intact :
    (∀ e ∈ ackedEarly, e.Legal Wire.blank twoFragments) ∧
      Run.Along (step Wire.blank Settings.blank) (Promised Wire.blank Settings.blank twoFragments)
        ({}, tracked, []) ackedEarly ∧
      Run.Along (step Wire.blank Settings.blank) Answered ({}, tracked, []) ackedEarly ∧
      Attended Wire.blank Settings.blank twoFragments 7 (· + 1) tracked ackedEarly ∧
      ¬Intact Wire.blank twoFragments (arrived Wire.blank twoFragments ackedEarly)
        (Run.exec (step Wire.blank Settings.blank) ({}, tracked, []) ackedEarly) := by
  decide +kernel

end Repair
