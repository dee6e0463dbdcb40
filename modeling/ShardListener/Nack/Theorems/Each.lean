import ShardListener.Nack.Theorems.Complete

-- A value that is there, or the one that is made if there is room for it.
theorem Option.or_unless_eq_some {α : Type} {c : Prop} [Decidable c] {o : Option α} {a b : α}
    (h : (o.or <| if c then none else some b) = some a) : o = some a ∨ o = none ∧ a = b := by
  rcases Option.or_eq_some_iff.mp h with h | ⟨hn, h⟩
  case inl => exact .inl h
  case inr =>
    split at h
    case isTrue  => cases h
    case isFalse => cases h; exact .inr ⟨hn, rfl⟩

namespace Nack

variable {I : HashKey → FlowState → Prop} {J : GapEntry → Prop} {hk : HashKey}

-- An operation on a flow leaves it as `I` wants it, and queues copies as `J` wants them.
structure Effect.Meets (I : HashKey → FlowState → Prop) (J : GapEntry → Prop) (hk : HashKey)
    (r : Effect) : Prop where
  flow   : I hk r.flow
  queued : ∀ e ∈ r.queued, J e

namespace Tracker

variable {cfg : Config} {i : Instant} {t : Tracker} {now : Time} {fs : FlowState} {a : Arrival}
variable {q : Request}

-- Every flow is as `I` wants it, and every copy in flight as `J` wants it.
structure Each (I : HashKey → FlowState → Prop) (J : GapEntry → Prop) (t : Tracker) : Prop where
  flows    : ∀ hk fs, t.flows.lookup hk = some fs → I hk fs
  inFlight : ∀ e ∈ t.inFlight, J e

theorem flowFor_cases (h : t.flowFor cfg a = some fs) :
    t.flows.lookup a.hashKey = some fs ∨
      t.flows.lookup a.hashKey = none ∧ fs = .new a.groupIdx a.subtreeID :=
  Option.or_unless_eq_some h

theorem requestFlow_cases (h : t.requestFlow cfg i q = some fs) :
    t.flows.lookup q.hashKey = some fs ∨
      t.flows.lookup q.hashKey = none ∧
        fs = { FlowState.new q.groupIdx q.subtreeID with lastSeen := i.now } :=
  Option.or_unless_eq_some h

-- What holds of the flows one by one holds of the tracker: each operation acts on one of them, and
-- the sweep on one after the other.
namespace Each

theorem new : Tracker.new.Each I J where
  flows _ _ h  := nomatch h
  inFlight _ h := nomatch h

theorem put {r : Effect} (ht : t.Each I J) (hr : r.Meets I J hk) : (t.put hk r).Each I J where
  flows hk' fs hl := by
    rw [lookup_put] at hl
    split at hl
    case isTrue e => cases hl; exact e ▸ hr.flow
    case isFalse  => exact ht.flows hk' fs hl
  inFlight e he := (List.mem_append.mp he).elim (ht.inFlight e) (hr.queued e)

theorem onFlow {op : FlowState → Effect} (ht : t.Each I J)
    (hop : ∀ fs, t.flows.lookup hk = some fs → (op fs).Meets I J hk) :
    (t.onFlow hk op).Each I J := by
  simp only [Tracker.onFlow]
  split
  case h_1    => exact ht
  case h_2 hl => exact ht.put (hop _ hl)

theorem observeFrom (ht : t.Each I J)
    (hop : ∀ fs, t.flowFor cfg a = some fs →
      (fs.observe cfg i t.recorder.isSome a).Meets I J a.hashKey) :
    (t.observeFrom cfg i a).Each I J := by
  simp only [flowFor] at hop
  simp only [Tracker.observeFrom]
  split
  case isTrue => exact ht
  case isFalse =>
    split
    case h_1 fs hl => exact ht.put (hop fs (by rw [hl, Option.some_or]))
    case h_2 hl =>
      split
      case isTrue       => exact ⟨ht.flows, ht.inFlight⟩
      case isFalse hnot => exact ht.put (hop _ (by rw [hl, Option.none_or, if_neg hnot]))

theorem requestGapsFrom {room : Nat} (ht : t.Each I J)
    (hop : ∀ fs, t.requestFlow cfg i q = some fs → (fs.request cfg i room q).Meets I J q.hashKey) :
    (t.requestGapsFrom cfg i room q).Each I J := by
  simp only [requestFlow] at hop
  simp only [Tracker.requestGapsFrom]
  split
  case isTrue => exact ht
  case isFalse =>
    split
    case h_1 fs hl => exact ht.put (hop fs (by rw [hl, Option.some_or]))
    case h_2 hl =>
      split
      case isTrue       => exact ht
      case isFalse hnot => exact ht.put (hop _ (by rw [hl, Option.none_or, if_neg hnot]))

theorem sweepFlow {room : HashKey → SeqNum → Bool} (ht : t.Each I J)
    (hop : ∀ fs, I hk fs → (fs.sweep cfg hk now (room hk)).Meets I J hk) :
    (t.sweepFlow cfg now room hk).Each I J := by
  have ho : (t.onFlow hk (·.sweep cfg hk now (room hk))).Each I J :=
    ht.onFlow fun fs hl => hop fs (ht.flows hk fs hl)
  simp only [Tracker.sweepFlow]
  split
  case h_1 => exact ho
  case h_2 =>
    split
    case isFalse => exact ho
    case isTrue =>
      refine ⟨fun hk' fs hl => ?_, ho.inFlight⟩
      rw [AList.lookup_erase_eq_ite] at hl
      split at hl
      case isTrue  => cases hl
      case isFalse => exact ho.flows hk' fs hl

theorem sweepOnce {room : HashKey → SeqNum → Bool} (ht : t.Each I J)
    (hop : ∀ hk fs, I hk fs → (fs.sweep cfg hk now (room hk)).Meets I J hk) :
    (t.sweepOnce cfg now room).Each I J := by
  have hs : (Run.exec (Tracker.sweepFlow cfg now room) t t.flows.keys).Each I J :=
    Run.exec_of_step (Each I J) (fun _ hk ht => ht.sweepFlow (hop hk)) ht
  exact hs

theorem fill {seq : SeqNum} (ht : t.Each I J)
    (hop : ∀ fs, I hk fs → (fs.fill t.recorder.isSome seq).Meets I J hk) :
    (t.fill hk seq).Each I J := by
  simp only [Tracker.fill]
  split
  case isTrue  => exact ht
  case isFalse => exact ht.onFlow fun fs hl => hop fs (ht.flows hk fs hl)

end Each
end Tracker

-- What the operations on a flow preserve, a frame if `O` admits it.
structure FlowState.Invariant (cfg : Config) (O : FlowState → Instant → Arrival → Prop)
    (P : FlowState → Prop) : Prop where
  new         :
    ∀ groupIdx subtreeID lastSeen, P { new groupIdx subtreeID with lastSeen := lastSeen }
  observe     : ∀ fs i recorded a, P fs → O fs i a → P (fs.observe cfg i recorded a).flow
  request     : ∀ fs i room q, P fs → P (fs.request cfg i room q).flow
  late        : ∀ fs seq, P fs → P (fs.noteLateFill seq).flow
  closed      : ∀ fs recorded seq r, fs.autoFill recorded seq = some r → P fs → P r.flow
  sweep       : ∀ fs hk now room, P fs → P (fs.sweep cfg hk now room).flow
  abandonGap  : ∀ fs now e reason, P fs → P (fs.abandonGap now e reason).flow
  answered    : ∀ fs seq r, fs.Answered seq r → P fs → P r.flow
  probeMissed : ∀ fs e, P fs → P (fs.probeMissed e).flow

namespace FlowState.Invariant

variable {cfg : Config} {O : FlowState → Instant → Arrival → Prop} {P : FlowState → Prop}
variable {fs : FlowState}

theorem fill (hP : Invariant cfg O P) (recorded : Bool) (seq : SeqNum) (hf : P fs) :
    P (fs.fill recorded seq).flow := by
  cases fs.fill_or recorded seq
  case inl e  => rw [e]; exact hP.late fs seq hf
  case inr hr => exact hP.closed fs recorded seq _ hr hf

theorem cancelGap (hP : Invariant cfg O P) (recorded : Bool) (e : GapEntry) (hf : P fs) :
    P (fs.cancelGap recorded e).flow := by
  cases fs.cancelGap_or recorded e
  case inl e  => rwa [e]
  case inr hr => exact hP.closed fs recorded e.seqNum _ hr hf

end FlowState.Invariant

namespace Tracker

variable {cfg : Config} {O : FlowState → Instant → Arrival → Prop} {P : FlowState → Prop}
variable {t : Tracker}
variable {op : Op} {fs : FlowState}

-- The frame of an operation is admitted on its flow.
def Admits (O : FlowState → Instant → Arrival → Prop) (cfg : Config) (t : Tracker) : Op → Prop
  | .observe i a => a.seqNum ≠ 0 → ∀ fs ∈ t.flowFor cfg a, O fs i a
  | _            => True

def Flows (P : FlowState → Prop) (t : Tracker) : Prop :=
  ∀ hk fs, t.flows.lookup hk = some fs → P fs

namespace Flows

theorem new {recorder : Option (List Metric)} : Flows P { recorder := recorder } :=
  nofun

theorem iff_each : t.Flows P ↔ t.Each (fun _ => P) fun _ => True :=
  ⟨fun ht => ⟨ht, fun _ _ => trivial⟩, fun ht => ht.flows⟩

theorem meets {r : Effect} (hr : P r.flow) : r.Meets (fun _ => P) (fun _ => True) hk :=
  ⟨hr, fun _ _ => trivial⟩

theorem onFlow {op : FlowState → Effect} (ht : t.Flows P) (hop : ∀ fs, P fs → P (op fs).flow) :
    (t.onFlow hk op).Flows P :=
  iff_each.mpr <| (iff_each.mp ht).onFlow fun fs hl => meets (hop fs (ht hk fs hl))

theorem flowFor {a : Arrival} (hP : FlowState.Invariant cfg O P) (ht : t.Flows P)
    (hf : t.flowFor cfg a = some fs) : P fs := by
  rcases flowFor_cases hf with hl | ⟨_, rfl⟩
  case inl => exact ht _ fs hl
  case inr => exact hP.new a.groupIdx a.subtreeID Time.zero

theorem requestFlow {i : Instant} {q : Request} (hP : FlowState.Invariant cfg O P) (ht : t.Flows P)
    (hf : t.requestFlow cfg i q = some fs) : P fs := by
  rcases requestFlow_cases hf with hl | ⟨_, rfl⟩
  case inl => exact ht _ fs hl
  case inr => exact hP.new q.groupIdx q.subtreeID i.now

theorem complete {i : Instant} {e : GapEntry} {c : Completion} (hP : FlowState.Invariant cfg O P)
    (ht : t.Flows P) : (t.complete cfg i e c).Flows P := by
  cases c
  case cancel    => exact ht.onFlow fun _ => hP.cancelGap t.recorder.isSome e
  case abandon r => exact ht.onFlow fun fs => hP.abandonGap fs i.now e r
  case advance   => exact ht.onFlow fun fs => hP.answered fs _ _ FlowState.advanceEndpoint_answered
  case throttle  => exact ht.onFlow fun fs => hP.answered fs _ _ FlowState.throttleGap_answered
  case probeMiss => exact ht.onFlow fun fs => hP.probeMissed fs e
  case lost      => exact ht

theorem step (hP : FlowState.Invariant cfg O P) (ht : t.Flows P) (ho : t.Admits O cfg op) :
    (t.step cfg op).Flows P := by
  cases op
  case observe i a =>
    by_cases hz : a.seqNum = 0
    case pos =>
      have hs : t.step cfg (.observe i a) = t := if_pos hz
      rwa [hs]
    case neg =>
      refine iff_each.mpr <| (iff_each.mp ht).observeFrom fun fs hf => meets ?_
      exact hP.observe fs i t.recorder.isSome a (ht.flowFor hP hf) (ho hz fs hf)
  case request i room q =>
    refine iff_each.mpr <| (iff_each.mp ht).requestGapsFrom fun fs hf => meets ?_
    exact hP.request fs i room q (ht.requestFlow hP hf)
  case fill hk seq =>
    exact iff_each.mpr <| (iff_each.mp ht).fill fun _ h => meets (hP.fill t.recorder.isSome seq h)
  case sweep now room =>
    exact iff_each.mpr <| (iff_each.mp ht).sweepOnce fun hk fs h =>
      meets (hP.sweep fs hk now (room hk) h)
  case complete i e c => exact ht.complete hP

end Flows
end Tracker
end Nack
