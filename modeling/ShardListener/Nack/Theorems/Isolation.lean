import ShardListener.Nack.Lane
import ShardListener.Nack.Theorems.Provenance

-- Flows do not disturb each other.

namespace Nack

open Tracker

variable {cfg : Config} {i : Instant} {t : Tracker} {hk hk' : HashKey} {now : Time} {r : Effect}
variable {room : HashKey → SeqNum → Bool} {fs : FlowState} {e : GapEntry} {c : Completion} {op : Op}

-- The entries bear the HashKeys of their flows.
def Keyed : HashKey → Tag → Prop :=
  fun _ _ => True

theorem lane_put_self (hr : r.Marked Keyed hk) : (t.put hk r).lane hk = (t.lane hk).put r := by
  have hq : r.queued.filter (·.hashKey = hk) = r.queued :=
    List.filter_eq_self.mpr fun e he => decide_eq_true (hr.queued e he).hashKey
  have hf : (t.put hk r).inFlight = t.inFlight ++ r.queued := rfl
  simp only [lane, Lane.put, lookup_put, if_pos, hf, List.filter_append, hq]

theorem lane_put_of_ne (hr : r.Marked Keyed hk') (hne : hk' ≠ hk) :
    (t.put hk' r).lane hk = t.lane hk := by
  have hq : r.queued.filter (·.hashKey = hk) = [] :=
    List.filter_eq_nil_iff.mpr fun e he => by simpa [(hr.queued e he).hashKey] using hne
  have hf : (t.put hk' r).inFlight = t.inFlight ++ r.queued := rfl
  simp only [lane, lookup_put, if_neg hne.symm, hf, List.filter_append, hq, List.append_nil]

theorem Keyed.allows {tag : Tag} {named : Int} {sub : Bytes32} : tag.Allows Keyed hk named sub :=
  ⟨trivial, trivial⟩

theorem Keyed.suits : t.Suits Keyed op := by
  cases op
  case observe  => exact Keyed.allows
  case request  => exact Keyed.allows
  case fill     => trivial
  case sweep    => trivial
  case complete => trivial

-- There is room for the flow when an operation opens it.
def Roomy (cfg : Config) (hk : HashKey) (t : Tracker) : Op → Prop
  | .observe _ a   => a.hashKey = hk → t.flows.lookup hk = none → ¬t.full cfg
  | .request _ _ q => q.hashKey = hk → t.flows.lookup hk = none → ¬t.full cfg
  | _              => True

instance : DecidablePred (Roomy cfg hk t)
  | .observe ..  => inferInstanceAs (Decidable (_ → _ → _))
  | .request ..  => inferInstanceAs (Decidable (_ → _ → _))
  | .fill ..     => .isTrue trivial
  | .sweep ..    => .isTrue trivial
  | .complete .. => .isTrue trivial

-- A call that opens the flow if it is not there.
section

variable {f : FlowState → Effect} {fs₀ : FlowState} {refused : Tracker}

theorem lane_open_self (hm : ∀ fs, t.flows.lookup hk = some fs ∨ fs = fs₀ → (f fs).Marked Keyed hk)
    (hroom : t.flows.lookup hk = none → ¬t.full cfg) :
    (match t.flows.lookup hk with
      | some fs => t.put hk (f fs)
      | none    => if t.full cfg then refused else t.put hk (f fs₀)).lane hk =
      (t.lane hk).put (f ((t.lane hk).flow.getD fs₀)) := by
  have hflow : (t.lane hk).flow = t.flows.lookup hk := rfl
  rw [hflow]
  cases hl : t.flows.lookup hk
  case some fs => exact lane_put_self (hm fs (.inl hl))
  case none =>
    dsimp only
    rw [if_neg (hroom hl)]
    exact lane_put_self (hm fs₀ (.inr rfl))

theorem lane_open_of_ne (hne : hk' ≠ hk)
    (hm : ∀ fs, t.flows.lookup hk' = some fs ∨ fs = fs₀ → (f fs).Marked Keyed hk')
    (hr : refused.lane hk = t.lane hk) :
    (match t.flows.lookup hk' with
      | some fs => t.put hk' (f fs)
      | none    => if t.full cfg then refused else t.put hk' (f fs₀)).lane hk = t.lane hk := by
  cases hl : t.flows.lookup hk'
  case some fs => exact lane_put_of_ne (hm fs (.inl hl)) hne
  case none =>
    dsimp only
    split
    case isTrue  => exact hr
    case isFalse => exact lane_put_of_ne (hm fs₀ (.inr rfl)) hne

theorem lane_onFlow_self (hm : ∀ fs, t.flows.lookup hk = some fs → (f fs).Marked Keyed hk) :
    (t.onFlow hk f).lane hk = match (t.lane hk).flow with
      | none    => t.lane hk
      | some fs => (t.lane hk).put (f fs) := by
  have hflow : (t.lane hk).flow = t.flows.lookup hk := rfl
  rw [hflow, onFlow]
  cases hl : t.flows.lookup hk
  case none    => rfl
  case some fs => exact lane_put_self (hm fs hl)

theorem lane_onFlow_of_ne (hne : hk' ≠ hk)
    (hm : ∀ fs, t.flows.lookup hk' = some fs → (f fs).Marked Keyed hk') :
    (t.onFlow hk' f).lane hk = t.lane hk := by
  rw [onFlow]
  cases hl : t.flows.lookup hk'
  case none    => rfl
  case some fs => exact lane_put_of_ne (hm fs hl) hne

end

theorem marked_observe {a : Arrival} (ht : t.Marked Keyed) {recorded : Bool}
    (h : t.flows.lookup a.hashKey = some fs ∨ fs = .new a.groupIdx a.subtreeID) :
    (fs.observe cfg i recorded a).Marked Keyed a.hashKey := by
  refine FlowState.Marked.observe ?_ rfl Keyed.allows
  rcases h with hl | rfl
  case inl => exact (ht.flows _ fs hl).gaps
  case inr => exact nofun

theorem marked_request {q : Request} {room : Nat} (ht : t.Marked Keyed)
    (h : t.flows.lookup q.hashKey = some fs ∨
      fs = { FlowState.new q.groupIdx q.subtreeID with lastSeen := i.now }) :
    (fs.request cfg i room q).Marked Keyed q.hashKey := by
  refine FlowState.Marked.request ?_ rfl Keyed.allows
  rcases h with hl | rfl
  case inl => exact (ht.flows _ fs hl).gaps
  case inr => exact nofun

-- A sweep goes through the flows one after the other.

theorem lane_sweepFlow_of_ne (ht : t.Marked Keyed) (hne : hk' ≠ hk) :
    (t.sweepFlow cfg now room hk').lane hk = t.lane hk := by
  have ho : (t.onFlow hk' (·.sweep cfg hk' now (room hk'))).lane hk = t.lane hk :=
    lane_onFlow_of_ne hne fun fs hl => (ht.flows _ fs hl).sweep
  simp only [sweepFlow]
  split
  case h_1 => exact ho
  case h_2 =>
    split
    case isFalse => exact ho
    case isTrue  =>
      rw [← ho]
      simp only [lane, AList.lookup_erase_ne hne.symm]

theorem lane_sweepFlow_self (ht : t.Marked Keyed) :
    (t.sweepFlow cfg now room hk).lane hk =
      (t.lane hk).act cfg t.recorder.isSome hk (.sweep now room) := by
  have hflow : (t.lane hk).flow = t.flows.lookup hk := rfl
  have ho : (t.onFlow hk (·.sweep cfg hk now (room hk))).lane hk = match (t.lane hk).flow with
      | none    => t.lane hk
      | some fs => (t.lane hk).put (fs.sweep cfg hk now (room hk)) :=
    lane_onFlow_self fun fs hl => (ht.flows _ fs hl).sweep
  simp only [sweepFlow, Lane.act]
  rw [hflow] at ho ⊢
  cases hl : t.flows.lookup hk
  case none =>
    rw [hl] at ho
    have hn : (t.onFlow hk (·.sweep cfg hk now (room hk))).flows.lookup hk = none :=
      (congrArg Lane.flow ho).trans hl
    rw [hn]
    exact ho
  case some fs =>
    rw [hl] at ho
    have hs : (t.onFlow hk (·.sweep cfg hk now (room hk))).flows.lookup hk =
        some (fs.sweep cfg hk now (room hk)).flow := congrArg Lane.flow ho
    have hq := congrArg Lane.inFlight ho
    rw [hs]
    dsimp only
    split
    case isTrue  => exact congrArg₂ Lane.mk (AList.lookup_erase hk _) hq
    case isFalse => exact ho

theorem lane_foldl_sweepFlow_of_not_mem {hks : List HashKey} (ht : t.Marked Keyed) (hm : hk ∉ hks) :
    (hks.foldl (sweepFlow cfg now room) t).lane hk = t.lane hk := by
  induction hks generalizing t
  case nil => rfl
  case cons hk' hks hi =>
    obtain ⟨hne, hm⟩ := not_or.mp (List.mem_cons.not.mp hm)
    have ht' : (t.sweepFlow cfg now room hk').Marked Keyed :=
      Marked.iff_each.mpr <| (Marked.iff_each.mp ht).sweepFlow fun _ hf => Marked.meets hf.sweep
    rw [List.foldl_cons, hi ht' hm, lane_sweepFlow_of_ne ht (Ne.symm hne)]

theorem lane_foldl_sweepFlow {hks : List HashKey} (ht : t.Marked Keyed) (hn : hks.Nodup)
    (hm : hk ∈ hks) :
    (hks.foldl (sweepFlow cfg now room) t).lane hk =
      (t.lane hk).act cfg t.recorder.isSome hk (.sweep now room) := by
  induction hks generalizing t
  case nil => cases hm
  case cons hk' hks hi =>
    obtain ⟨hnot, hn⟩ := List.nodup_cons.mp hn
    have ht' : (t.sweepFlow cfg now room hk').Marked Keyed :=
      Marked.iff_each.mpr <| (Marked.iff_each.mp ht).sweepFlow fun _ hf => Marked.meets hf.sweep
    rw [List.foldl_cons]
    by_cases e : hk' = hk
    case pos =>
      subst e
      rw [lane_foldl_sweepFlow_of_not_mem ht' hnot, lane_sweepFlow_self ht]
    case neg =>
      have hm : hk ∈ hks := (List.mem_cons.mp hm).resolve_left (Ne.symm e)
      rw [hi ht' hn hm, lane_sweepFlow_of_ne ht e, isSome_recorder_sweepFlow]

theorem lane_sweepOnce (ht : t.Marked Keyed) :
    (t.sweepOnce cfg now room).lane hk =
      (t.lane hk).act cfg t.recorder.isSome hk (.sweep now room) := by
  by_cases hm : hk ∈ t.flows.keys
  case pos => exact lane_foldl_sweepFlow ht t.flows.keys_nodup hm
  case neg =>
    have hl : (t.lane hk).flow = none := AList.lookup_eq_none.mpr hm
    rw [sweepOnce, lane_foldl_sweepFlow_of_not_mem ht hm]
    simp only [Lane.act, hl]

-- The end of a NACK takes one copy from the flight, and queues nothing.

theorem lookup_complete : (t.complete cfg i e c).flows.lookup hk =
    if hk = e.hashKey then
      (t.flows.lookup e.hashKey).map fun fs => (c.effect cfg i t.recorder.isSome e fs).flow
    else t.flows.lookup hk := by
  cases c
  case lost =>
    split
    case isTrue h => subst h; simp [Tracker.complete, Completion.effect]
    case isFalse  => rfl
  all_goals exact lookup_onFlow t e.hashKey hk _

theorem lane_complete_self :
    (t.step cfg (.complete i e c)).lane e.hashKey =
      (t.lane e.hashKey).act cfg t.recorder.isSome e.hashKey (.complete i e c) := by
  simp only [Tracker.step, lane, Lane.act, lookup_complete, if_pos, List.erase_filter]

theorem lane_complete_of_ne (hne : e.hashKey ≠ hk) :
    (t.step cfg (.complete i e c)).lane hk = t.lane hk := by
  have hq : (t.inFlight.erase e).filter (·.hashKey = hk) = t.inFlight.filter (·.hashKey = hk) := by
    rw [← List.erase_filter]
    exact List.erase_of_not_mem fun he => hne (of_decide_eq_true (List.mem_filter.mp he).2)
  simp only [Tracker.step, lane, lookup_complete, if_neg hne.symm, hq]

-- What the operation does to the flow is what the machine of the flow does.
theorem lane_step (ht : t.Marked Keyed) (hr : Roomy cfg hk t op) :
    (t.step cfg op).lane hk = (t.lane hk).step cfg t.recorder.isSome hk op := by
  unfold Lane.step
  split
  case isTrue hc =>
    cases op
    case sweep now room => exact lane_sweepOnce ht
    case observe i a =>
      obtain rfl : a.hashKey = hk := hc
      simp only [Tracker.step, observeFrom, Lane.act]
      split
      case isTrue  => rfl
      case isFalse => exact lane_open_self (fun fs h => marked_observe ht h) (hr rfl)
    case request i room q =>
      obtain rfl : q.hashKey = hk := hc
      simp only [Tracker.step, requestGapsFrom, Lane.act]
      split
      case isTrue  => rfl
      case isFalse => exact lane_open_self (fun fs h => marked_request ht h) (hr rfl)
    case fill hk' seq =>
      obtain rfl : hk' = hk := hc
      simp only [Tracker.step, Tracker.fill, Lane.act]
      split
      case isTrue  => rfl
      case isFalse => exact lane_onFlow_self fun fs hl => (ht.flows _ fs hl).fill
    case complete i e c =>
      obtain rfl : e.hashKey = hk := hc
      exact lane_complete_self
  case isFalse hc =>
    cases op
    case sweep now room => exact absurd trivial hc
    case observe i a =>
      simp only [Tracker.step, observeFrom]
      split
      case isTrue  => rfl
      case isFalse => exact lane_open_of_ne hc (fun fs h => marked_observe ht h) rfl
    case request i room q =>
      simp only [Tracker.step, requestGapsFrom]
      split
      case isTrue  => rfl
      case isFalse => exact lane_open_of_ne hc (fun fs h => marked_request ht h) rfl
    case fill hk' seq =>
      simp only [Tracker.step, Tracker.fill]
      split
      case isTrue  => rfl
      case isFalse => exact lane_onFlow_of_ne hc fun fs hl => (ht.flows _ fs hl).fill
    case complete i e c => exact lane_complete_of_ne hc

-- The tracker follows the machines of its flows.
theorem lane_exec {ops : List Op} (ht : t.Marked Keyed)
    (hr : Run.Along (Tracker.step cfg) (Roomy cfg hk) t ops) :
    (Run.exec (Tracker.step cfg) t ops).lane hk =
      Run.exec (Lane.step cfg t.recorder.isSome hk) (t.lane hk) ops := by
  induction ops generalizing t
  case nil => rfl
  case cons op ops hi =>
    have hrec : (t.step cfg op).recorder.isSome = t.recorder.isSome := isSome_recorder_step op
    rw [Run.exec_cons, Run.exec_cons, hi (ht.step Keyed.suits) hr.2, lane_step ht hr.1, hrec]

theorem step_part {l : Lane} {recorded : Bool} :
    l.step cfg recorded hk op = (op.part hk).elim l (l.act cfg recorded hk) := by
  cases op
  case sweep => exact if_pos trivial
  all_goals
    simp only [Lane.step, Op.part]
    split <;> rfl

-- Take two runs with the same operations on a flow, in the same order, with sweeps at the same
-- times, and with the same answers of the NACK queue to the copies of its gaps. The flow ends up in
-- the same state, with the same NACKs of it in flight, whatever happens to the other flows.
theorem flow_isolated {ops ops' : List Op}
    (h : ops.filterMap (Op.part hk) = ops'.filterMap (Op.part hk))
    (hr : Run.Along (Tracker.step cfg) (Roomy cfg hk) .new ops)
    (hr' : Run.Along (Tracker.step cfg) (Roomy cfg hk) .new ops') :
    (Run.exec (Tracker.step cfg) .new ops).lane hk =
      (Run.exec (Tracker.step cfg) .new ops').lane hk := by
  have hpart (l : Lane) (op : Op) : l.step cfg true hk op = _ := step_part
  calc
    _ = Run.exec (Lane.step cfg true hk) (Tracker.new.lane hk) ops := lane_exec .new hr
    _ = Run.exec (Lane.step cfg true hk) (Tracker.new.lane hk) ops' := by
      rw [Run.exec_filterMap hpart, h, ← Run.exec_filterMap hpart]
    _ = _ := (lane_exec .new hr').symm

-- A frame of a flow at some second.
def frameAt (hashKey : HashKey) (seqNum : SeqNum) (sec : Int) : Op :=
  .observe ⟨Time.ms (1000 * sec), fun _ => 0⟩ ⟨0, 0, .zero, hashKey, seqNum, some 1⟩

def sweepAt (sec : Int) : Op :=
  .sweep (Time.ms (1000 * sec)) fun _ _ => true

-- A flow loses three frames. It makes no difference to it that another one loses some, too, for
-- which the queue has no room, and restarts.
theorem gaps_isolated :
    (Run.exec (Tracker.step .default) .new
        [frameAt 5 1 0, frameAt 6 200 0, frameAt 5 5 1, frameAt 6 203 1,
          .sweep (Time.ms 2000) fun hk _ => hk = 5, frameAt 6 1 3, .fill 6 202,
          frameAt 5 3 4]).lane 5 =
      (Run.exec (Tracker.step .default) .new
        [frameAt 5 1 0, frameAt 5 5 1, sweepAt 2, frameAt 5 3 4]).lane 5 :=
  flow_isolated rfl (by decide +kernel) (by decide +kernel)

end Nack
