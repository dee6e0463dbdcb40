import ShardListener.Nack.Theorems.Marker
import ShardListener.Nack.Theorems.Provenance

namespace Nack
namespace FlowState

variable {cfg : Config} {i : Instant} {fs : FlowState} {a : Arrival} {e : GapEntry} {seq : SeqNum}
variable {recorded : Bool}

-- What a recorder makes of a fill: the misses of the flow are forgotten if a probe is filled.
theorem bookFill_recorded :
    (fs.bookFill true e).flow =
      if e.speculative then { (fs.bookFill false e).flow with probeMisses := 0 }
      else (fs.bookFill false e).flow := by
  cases h : e.speculative <;> simp [bookFill, h]

theorem bookFill_alike_iff :
    (fs.bookFill false e).flow = (fs.bookFill true e).flow ↔
      (e.speculative = true → fs.probeMisses = 0) := by
  have hm : (fs.bookFill false e).flow.probeMisses = fs.probeMisses := rfl
  rw [bookFill_recorded]
  constructor
  case mp =>
    intro hf h
    rw [if_pos h] at hf
    exact hm.symm.trans (congrArg probeMisses hf)
  case mpr =>
    intro hz
    split
    case isFalse  => rfl
    case isTrue h => rw [← hz h, ← hm]

-- The fill of the SeqNum is not that of a probe, or there are no misses to be forgotten.
def NeutralAt (fs : FlowState) (seq : SeqNum) : Prop :=
  ∀ e ∈ fs.pending.lookup seq, e.speculative = true → fs.probeMisses = 0

theorem fill_alike_iff : (fs.fill false seq).flow = (fs.fill true seq).flow ↔ fs.NeutralAt seq := by
  simp only [fill, autoFill, NeutralAt]
  cases fs.pending.lookup seq
  case none   => simp
  case some e => simp [bookFill_alike_iff]

theorem cancelGap_alike_iff :
    (fs.cancelGap false e).flow = (fs.cancelGap true e).flow ↔ fs.NeutralAt e.seqNum := by
  simp only [cancelGap, autoFill, NeutralAt]
  cases fs.pending.lookup e.seqNum
  case none   => simp
  case some e => simp [bookFill_alike_iff]

-- A frame has put the misses to zero by the time its own entry is closed.
theorem observe_alike : (fs.observe cfg i false a).flow = (fs.observe cfg i true a).flow := by
  simp only [observe, settle, autoFill]
  have hz : ((fs.touch i.now a).noteLateFill a.seqNum).flow.probeMisses = 0 := by
    rw [noteLateFill_flow]
    rfl
  generalize ((fs.touch i.now a).noteLateFill a.seqNum).flow = late at hz
  cases late.pending.lookup a.seqNum
  case none => rfl
  case some e =>
    let closed := { late with pending := late.pending.erase a.seqNum }
    have hb : (closed.bookFill false e).flow = (closed.bookFill true e).flow :=
      bookFill_alike_iff.mpr fun _ => hz
    simp only [Option.map_some, closed, hb]
    split
    case isTrue  => exact hb
    case isFalse => rfl

theorem queued_fill : (fs.fill recorded seq).queued = [] := by
  simp only [fill]
  cases h : fs.autoFill recorded seq
  case none   => exact queued_noteLateFill
  case some r => exact queued_autoFill h

theorem queued_cancelGap : (fs.cancelGap recorded e).queued = [] := by
  simp only [cancelGap]
  cases h : fs.autoFill recorded e.seqNum
  case none   => rfl
  case some r => exact queued_autoFill h

end FlowState

namespace Tracker

variable {cfg : Config} {i : Instant} {t u : Tracker} {hk : HashKey} {op : Op}

-- The same flows, and the same copies on their way.
structure Alike (t u : Tracker) : Prop where
  flows    : t.flows = u.flows
  inFlight : t.inFlight = u.inFlight

namespace Alike

theorem put {r r' : Effect} (h : t.Alike u) (hf : r.flow = r'.flow) (hq : r.queued = r'.queued) :
    (t.put hk r).Alike (u.put hk r') where
  flows    := by simp only [Tracker.put, emit, h.flows, hf]
  inFlight := by simp only [Tracker.put, emit, h.inFlight, hq]

theorem onFlow {f f' : FlowState → Effect} (h : t.Alike u)
    (hf : ∀ fs ∈ t.flows.lookup hk, (f fs).flow = (f' fs).flow)
    (hq : ∀ fs, (f fs).queued = (f' fs).queued) : (t.onFlow hk f).Alike (u.onFlow hk f') := by
  simp only [Tracker.onFlow, ← h.flows]
  cases hl : t.flows.lookup hk
  case none    => exact h
  case some fs => exact h.put (hf fs hl) (hq fs)

theorem flows_onFlow_iff {f f' : FlowState → Effect} (h : t.Alike u)
    (hq : ∀ fs, (f fs).queued = (f' fs).queued) :
    (t.onFlow hk f).flows = (u.onFlow hk f').flows ↔
      ∀ fs ∈ t.flows.lookup hk, (f fs).flow = (f' fs).flow := by
  constructor
  case mp =>
    intro ho fs hl
    have hu : u.flows.lookup hk = some fs := h.flows ▸ hl
    simp only [Tracker.onFlow, Option.mem_def.mp hl, hu] at ho
    have hp : (t.put hk (f fs)).flows.lookup hk = (u.put hk (f' fs)).flows.lookup hk := by rw [ho]
    simpa [lookup_put] using hp
  case mpr => exact fun hf => (h.onFlow hf hq).flows

theorem full_iff (h : t.Alike u) : t.full cfg ↔ u.full cfg := by
  simp only [full, h.flows]

theorem observeFrom {a : Arrival} (h : t.Alike u) (hn : t.recorder = none)
    (hu : u.recorder.isSome) :
    (t.observeFrom cfg i a).Alike (u.observeFrom cfg i a) := by
  have hq {fs : FlowState} : (fs.observe cfg i false a).queued = (fs.observe cfg i true a).queued :=
    FlowState.queued_observe.trans FlowState.queued_observe.symm
  simp only [Tracker.observeFrom, ← h.flows, hn, hu, Option.isSome_none]
  split
  case isTrue => exact h
  case isFalse =>
    split
    case h_1 => exact h.put FlowState.observe_alike hq
    case h_2 =>
      by_cases hf : t.full cfg
      case pos => rw [if_pos hf, if_pos (h.full_iff.mp hf)]; exact ⟨rfl, h.inFlight⟩
      case neg =>
        rw [if_neg hf, if_neg (h.full_iff.not.mp hf)]; exact h.put FlowState.observe_alike hq

theorem requestGapsFrom {room : Nat} {q : Request} (h : t.Alike u) :
    (t.requestGapsFrom cfg i room q).Alike (u.requestGapsFrom cfg i room q) := by
  simp only [Tracker.requestGapsFrom, ← h.flows]
  split
  case isTrue => exact h
  case isFalse =>
    split
    case h_1 => exact h.put rfl rfl
    case h_2 =>
      by_cases hf : t.full cfg
      case pos => rw [if_pos hf, if_pos (h.full_iff.mp hf)]; exact h
      case neg => rw [if_neg hf, if_neg (h.full_iff.not.mp hf)]; exact h.put rfl rfl

theorem sweepFlow {now : Time} {room : HashKey → SeqNum → Bool} (h : t.Alike u) :
    (t.sweepFlow cfg now room hk).Alike (u.sweepFlow cfg now room hk) := by
  have ho :
      (t.onFlow hk (·.sweep cfg hk now (room hk))).Alike
      (u.onFlow hk (·.sweep cfg hk now (room hk))) :=
    h.onFlow (fun _ _ => rfl) fun _ => rfl
  simp only [Tracker.sweepFlow, ← ho.flows]
  split
  case h_1 => exact ho
  case h_2 =>
    split
    case isTrue  => exact ⟨rfl, ho.inFlight⟩
    case isFalse => exact ho

theorem sweepOnce {now : Time} {room : HashKey → SeqNum → Bool} (h : t.Alike u) :
    (t.sweepOnce cfg now room).Alike (u.sweepOnce cfg now room) := by
  simp only [Tracker.sweepOnce, ← h.flows]
  generalize t.flows.keys = keys
  induction keys generalizing t u
  case nil              => exact h
  case cons key keys hi => exact hi h.sweepFlow

theorem complete_iff {e : GapEntry} {c : Completion} (h : t.Alike u) :
    (t.step cfg (.complete i e c)).Alike (u.step cfg (.complete i e c)) ↔
      (t.complete cfg i e c).flows = (u.complete cfg i e c).flows :=
  ⟨fun ha => ha.flows, fun hf => ⟨hf, congrArg (List.erase · e) h.inFlight⟩⟩

end Alike

-- The operation closes no probe of a flow with misses, or it is a frame.
def Neutral (t : Tracker) : Op → Prop
  | .fill hk seq          => seq ≠ 0 → ∀ fs ∈ t.flows.lookup hk, fs.NeutralAt seq
  | .complete _ e .cancel => ∀ fs ∈ t.flows.lookup e.hashKey, fs.NeutralAt e.seqNum
  | _                     => True

theorem Alike.fill_iff {seq : SeqNum} (h : t.Alike u) (hn : t.recorder = none)
    (hu : u.recorder.isSome) :
    (t.fill hk seq).Alike (u.fill hk seq) ↔ t.Neutral (.fill hk seq) := by
  have hq (fs : FlowState) : (fs.fill false seq).queued = (fs.fill true seq).queued :=
    FlowState.queued_fill.trans FlowState.queued_fill.symm
  simp only [Tracker.fill, hn, hu, Option.isSome_none, Neutral, ← FlowState.fill_alike_iff]
  by_cases hz : seq = 0
  case pos => simp [hz, h]
  case neg =>
    simp only [ne_eq, hz, not_false_eq_true, true_imp_iff]
    exact ⟨fun ha => (h.flows_onFlow_iff hq).mp ha.flows, fun hf => h.onFlow hf hq⟩

theorem Alike.cancelGap_iff {e : GapEntry} (h : t.Alike u) (hn : t.recorder = none)
    (hu : u.recorder.isSome) :
    (t.cancelGap e).flows = (u.cancelGap e).flows ↔ t.Neutral (.complete i e .cancel) := by
  have hq (fs : FlowState) : (fs.cancelGap false e).queued = (fs.cancelGap true e).queued :=
    FlowState.queued_cancelGap.trans FlowState.queued_cancelGap.symm
  simp only [Tracker.cancelGap, hn, hu, Option.isSome_none, Neutral,
    ← FlowState.cancelGap_alike_iff]
  exact h.flows_onFlow_iff hq

theorem Alike.step_iff (h : t.Alike u) (hn : t.recorder = none) (hu : u.recorder.isSome) :
    (t.step cfg op).Alike (u.step cfg op) ↔ t.Neutral op := by
  cases op
  case observe i a      => exact iff_of_true (h.observeFrom hn hu) trivial
  case request i room q => exact iff_of_true h.requestGapsFrom trivial
  case fill hk seq      => exact h.fill_iff hn hu
  case sweep now room   => exact iff_of_true h.sweepOnce trivial
  case complete i e c =>
    have hof {f : FlowState → Effect} : (t.onFlow e.hashKey f).flows =
        (u.onFlow e.hashKey f).flows :=
      (h.onFlow (fun _ _ => rfl) fun _ => rfl).flows
    rw [h.complete_iff]
    cases c
    case cancel => exact h.cancelGap_iff hn hu
    case lost   => exact iff_of_true h.flows trivial
    all_goals exact iff_of_true hof trivial

-- A tracker without a recorder and one with it, in the same calls.
abbrev Pair := Tracker × Tracker

namespace Pair

def new : Pair :=
  ({ recorder := none }, { recorder := some [] })

def step (cfg : Config) (p : Pair) (op : Op) : Pair :=
  (p.1.step cfg op, p.2.step cfg op)

-- The flow tables stay equal and the same NACKs are queued exactly as long as no ACK and no fill
-- closes a probe on a flow that has probe misses.
theorem alike_iff_neutral {ops : List Op} :
    Run.Always (step cfg) (fun p => p.1.Alike p.2) new ops ↔
      Run.Along (Tracker.step cfg) Neutral { recorder := none } ops := by
  have hrec (p : Pair) (op : Op) (hp : p.1.recorder = none ∧ p.2.recorder.isSome) :
      (step cfg p op).1.recorder = none ∧ (step cfg p op).2.recorder.isSome := by
    rw [← Option.not_isSome_iff_eq_none] at hp ⊢
    exact ⟨(isSome_recorder_step op).symm ▸ hp.1, (isSome_recorder_step op).trans hp.2⟩
  rw [Run.always_iff_along hrec (fun p op hp h => h.step_iff hp.1 hp.2) ⟨rfl, rfl⟩ ⟨rfl, rfl⟩]
  exact Run.Along.map_iff (f := Prod.fst) fun _ _ => rfl

-- The copy of the probe that the sweep of the given millisecond sends on `probedFlow`.
def probeAt (ms : Int) : GapEntry where
  hashKey     := 7
  seqNum      := 218
  groupIdx    := 0xFFFE
  subtreeID   := .zero
  source      := some 1
  nextAttempt := Time.ms ms
  deadline    := Time.ms ms + Config.default.gapTTL
  speculative := true
  owner       := 0

-- The NACK of a probe is answered, and the next sweep sends another one.
def answered (ms : Int) (c : Completion) : List Op :=
  [.complete ⟨Time.ms ms, fun _ => 0⟩ (probeAt ms) c, .sweep (Time.ms (ms + 100)) fun _ _ => true]

-- Two MISSes, an ACK and a third MISS: they use up the misses only if the ACK did not put them back
-- to zero.
def missedTwice : List Op :=
  probedFlow ++ answered 1000 .probeMiss ++ answered 1100 .probeMiss ++ answered 1200 .cancel ++
    answered 1300 .probeMiss

theorem recorder_keeps_probing :
    Run.Along (Tracker.step .default) Enabled new.1 missedTwice ∧
      Run.Along (Tracker.step .default) Enabled new.2 missedTwice ∧
      (Run.exec (step .default) new missedTwice).1.inFlight = [] ∧
      (Run.exec (step .default) new missedTwice).2.inFlight = [probeAt 1400] ∧
      ¬Run.Always (step .default) (fun p => p.1.Alike p.2) new missedTwice := by
  have hrun :
      Run.Along (Tracker.step .default) Enabled new.1 missedTwice ∧
        Run.Along (Tracker.step .default) Enabled new.2 missedTwice ∧
        (Run.exec (step .default) new missedTwice).1.inFlight = [] ∧
        (Run.exec (step .default) new missedTwice).2.inFlight = [probeAt 1400] := by
    decide +kernel
  have ⟨he₁, he₂, h₁, h₂⟩ := hrun
  refine ⟨he₁, he₂, h₁, h₂, fun h => ?_⟩
  have hf := h.last.inFlight
  rw [h₁, h₂] at hf
  cases hf

end Pair
end Tracker
end Nack
