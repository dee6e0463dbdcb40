import ShardListener.Nack.Theorems.Complete

namespace Nack

-- The same entry, with another time for its next attempt.
def GapEntry.Rescheduled (e e' : GapEntry) : Prop :=
  ∃ time, e' = { e with nextAttempt := time }

namespace GapEntry.Rescheduled

variable {e e' e'' : GapEntry}

theorem refl : e.Rescheduled e :=
  ⟨_, rfl⟩

theorem trans (h : e.Rescheduled e') (h' : e'.Rescheduled e'') : e.Rescheduled e'' := by
  obtain ⟨_, rfl⟩ := h
  obtain ⟨time, rfl⟩ := h'
  exact ⟨time, rfl⟩

theorem speculative (h : e.Rescheduled e') : e'.speculative = e.speculative := by
  obtain ⟨_, rfl⟩ := h
  rfl

end GapEntry.Rescheduled

namespace FlowState

variable {cfg : Config} {fs : FlowState} {e e' : GapEntry} {seq s : SeqNum} {now : Time}
variable {hk : HashKey}
variable {r : Effect}

theorem evict_pending {reason : AbandonReason} :
    (fs.evict now seq e reason).flow.pending = fs.pending.erase seq := by
  simp only [evict]
  split
  case isTrue  => rfl
  case isFalse => exact bookAbandon_agrees.pending

theorem evict_queued {reason : AbandonReason} : (fs.evict now seq e reason).queued = [] := by
  simp only [evict]
  split <;> rfl

-- What the sweep does about a SeqNum: nothing, give up on its entry, or set the time for the next
-- attempt, with a copy on the queue if there is room.
inductive SweptEntry (now : Time) (fs : FlowState) (seq : SeqNum) : Effect → Prop
  | kept : SweptEntry now fs seq { flow := fs }
  | evicted {e : GapEntry} {reason : AbandonReason} (stored : fs.pending.lookup seq = some e) :
    SweptEntry now fs seq (fs.evict now seq e reason)
  | rescheduled {e e' : GapEntry} {copies : List GapEntry} (stored : fs.pending.lookup seq = some e)
    (same : e.Rescheduled e') (copies_eq : ∀ g ∈ copies, g = e') :
    SweptEntry now fs seq
      { flow := { fs with pending := fs.pending.insert seq e' }, queued := copies }

theorem sweepEntry_swept {room : Bool} :
    SweptEntry now fs seq (fs.sweepEntry cfg now room seq) := by
  simp only [sweepEntry]
  split
  case h_1 => exact .kept
  case h_2 e hl =>
    split
    case isTrue => exact .evicted hl
    case isFalse =>
      split
      case isTrue => exact .evicted hl
      case isFalse =>
        split
        case isFalse => exact .kept
        case isTrue =>
          split
          case isTrue  => exact .rescheduled hl ⟨_, rfl⟩ fun g hg => List.mem_singleton.mp hg
          case isFalse => exact .rescheduled hl ⟨_, rfl⟩ nofun

namespace SweptEntry

theorem lookup_ne (h : SweptEntry now fs s r) (hne : seq ≠ s) :
    r.flow.pending.lookup seq = fs.pending.lookup seq := by
  cases h
  case kept        => rfl
  case evicted     => rw [evict_pending, AList.lookup_erase_ne hne]
  case rescheduled => exact AList.lookup_insert_ne hne

-- The entries that a sweep leaves, and those that it queues, were pending before.

theorem pending (h : SweptEntry now fs s r) (he : r.flow.pending.lookup seq = some e') :
    ∃ e, fs.pending.lookup seq = some e ∧ e.Rescheduled e' := by
  by_cases hne : seq = s
  case neg => exact ⟨e', h.lookup_ne hne ▸ he, .refl⟩
  case pos =>
    subst hne
    cases h
    case kept => exact ⟨e', he, .refl⟩
    case evicted =>
      rw [evict_pending, AList.lookup_erase] at he
      cases he
    case rescheduled hl hr _ =>
      cases (AList.lookup_insert _).symm.trans he
      exact ⟨_, hl, hr⟩

theorem queued (h : SweptEntry now fs s r) (he : e' ∈ r.queued) :
    ∃ e, fs.pending.lookup s = some e ∧ e.Rescheduled e' := by
  cases h
  case kept    => cases he
  case evicted => rw [evict_queued] at he; cases he
  case rescheduled hl hr hc => exact ⟨_, hl, hc e' he ▸ hr⟩

end SweptEntry

theorem sweepEntries_pending {room : SeqNum → Bool} {ss : List SeqNum}
    (h : (fs.sweepEntries cfg now room ss).flow.pending.lookup seq = some e') :
    ∃ e, fs.pending.lookup seq = some e ∧ e.Rescheduled e' := by
  induction ss generalizing fs
  case nil => exact ⟨e', h, .refl⟩
  case cons s ss hi =>
    have ⟨e₁, h₁, hr₁⟩ := hi h
    have ⟨e, he, hr⟩ := sweepEntry_swept.pending h₁
    exact ⟨e, he, hr.trans hr₁⟩

theorem sweepEntries_queued {room : SeqNum → Bool} {ss : List SeqNum}
    (h : e' ∈ (fs.sweepEntries cfg now room ss).queued) :
    ∃ seq e, fs.pending.lookup seq = some e ∧ e.Rescheduled e' := by
  induction ss generalizing fs
  case nil => cases h
  case cons s ss hi =>
    rcases List.mem_append.mp h with h | h
    case inl => exact ⟨s, sweepEntry_swept.queued h⟩
    case inr =>
      have ⟨seq, e₁, h₁, hr₁⟩ := hi h
      have ⟨e, he, hr⟩ := sweepEntry_swept.pending h₁
      exact ⟨seq, e, he, hr.trans hr₁⟩

theorem maybeProbeTail_pending {room : Bool}
    (h : (fs.maybeProbeTail cfg hk now room).flow.pending.lookup seq = some e') :
    fs.pending.lookup seq = some e' ∨ seq = e'.seqNum ∧ e' = fs.probe cfg hk now := by
  simp only [maybeProbeTail] at h
  split at h
  case isTrue => exact .inl h
  case isFalse =>
    split at h
    case isTrue =>
      rw [AList.lookup_insert_eq_ite] at h
      split at h
      case isTrue es => cases h; exact .inr ⟨es, rfl⟩
      case isFalse   => exact .inl h
    case isFalse =>
      rw [AList.lookup_erase_eq_ite] at h
      split at h
      case isTrue  => cases h
      case isFalse => exact .inl h

theorem maybeProbeTail_queued {room : Bool} (h : e' ∈ (fs.maybeProbeTail cfg hk now room).queued) :
    e' = fs.probe cfg hk now := by
  simp only [maybeProbeTail] at h
  split at h
  case isTrue => cases h
  case isFalse =>
    split at h
    case isTrue  => exact List.mem_singleton.mp h
    case isFalse => cases h

-- A probe that the sweep adds is asked for the SeqNum after the last one.
theorem sweep_pending {room : SeqNum → Bool}
    (h : (fs.sweep cfg hk now room).flow.pending.lookup seq = some e') :
    (∃ e, fs.pending.lookup seq = some e ∧ e.Rescheduled e') ∨
      seq = e'.seqNum ∧ ∃ f : FlowState, e' = f.probe cfg hk now := by
  simp only [sweep] at h
  split at h
  case isTrue =>
    rcases maybeProbeTail_pending h with h | ⟨es, h⟩
    case inl =>
      have ⟨e, he, hr⟩ := sweepEntries_pending h
      exact .inl ⟨e, he, hr⟩
    case inr => exact .inr ⟨es, _, h⟩
  case isFalse =>
    have ⟨e, he, hr⟩ := sweepEntries_pending h
    exact .inl ⟨e, he, hr⟩

theorem sweep_queued {room : SeqNum → Bool} (h : e' ∈ (fs.sweep cfg hk now room).queued) :
    (∃ seq e, fs.pending.lookup seq = some e ∧ e.Rescheduled e') ∨
      ∃ f : FlowState, e' = f.probe cfg hk now := by
  simp only [sweep] at h
  split at h
  case isTrue =>
    rcases List.mem_append.mp h with h | h
    case inl =>
      have ⟨seq, e, he, hr⟩ := sweepEntries_queued h
      exact .inl ⟨seq, e, he, hr⟩
    case inr => exact .inr ⟨_, maybeProbeTail_queued h⟩
  case isFalse =>
    have ⟨seq, e, he, hr⟩ := sweepEntries_queued h
    exact .inl ⟨seq, e, he, hr⟩

-- What is left of a flow.
def swept (cfg : Config) (hk : HashKey) (now : Time) (room : SeqNum → Bool) (fs : FlowState) :
    Option FlowState :=
  let f := (fs.sweep cfg hk now room).flow
  if f.idle cfg now then none else some f

end FlowState

namespace Tracker

variable {cfg : Config} {t : Tracker} {hk hk' : HashKey} {now : Time}
variable {room : HashKey → SeqNum → Bool}

theorem lookup_sweepFlow :
    (t.sweepFlow cfg now room hk').flows.lookup hk =
      if hk = hk' then (t.flows.lookup hk).bind (·.swept cfg hk now (room hk))
      else t.flows.lookup hk := by
  have ho := lookup_onFlow t hk' hk' (·.sweep cfg hk' now (room hk'))
  have hne := lookup_onFlow t hk' hk (·.sweep cfg hk' now (room hk'))
  rw [if_pos rfl] at ho
  simp only [sweepFlow]
  by_cases e : hk = hk'
  case pos =>
    subst e
    rw [if_pos rfl]
    cases hl : t.flows.lookup hk
    case none =>
      rw [hl] at ho
      simp only [Option.map_none] at ho
      simp [ho]
    case some fs =>
      rw [hl] at ho
      simp only [Option.map_some] at ho
      simp only [ho, Option.bind_some, FlowState.swept]
      split
      case isTrue  => exact AList.lookup_erase ..
      case isFalse => exact ho
  case neg =>
    rw [if_neg e] at hne ⊢
    repeat' split
    case h_1         => exact hne
    case h_2.isTrue  => rw [AList.lookup_erase_ne e]; exact hne
    case h_2.isFalse => exact hne

theorem lookup_foldl_sweepFlow {hks : List HashKey} (hn : hks.Nodup) :
    (hks.foldl (sweepFlow cfg now room) t).flows.lookup hk =
      if hk ∈ hks then (t.flows.lookup hk).bind (·.swept cfg hk now (room hk))
      else t.flows.lookup hk := by
  induction hks generalizing t
  case nil => rfl
  case cons hk' hks hi =>
    have ⟨hm, hn⟩ := List.nodup_cons.mp hn
    rw [List.foldl_cons, hi hn, lookup_sweepFlow]
    by_cases e : hk = hk'
    case pos =>
      subst e
      rw [if_neg hm, if_pos rfl, if_pos List.mem_cons_self]
    case neg => simp only [e, if_false, List.mem_cons, false_or]

-- Every flow is swept once, whatever becomes of the others.
theorem lookup_sweepOnce :
    (t.sweepOnce cfg now room).flows.lookup hk =
      (t.flows.lookup hk).bind (·.swept cfg hk now (room hk)) := by
  rw [sweepOnce, lookup_foldl_sweepFlow t.flows.keys_nodup]
  split
  case isTrue => rfl
  case isFalse hm =>
    have hl : t.flows.lookup hk = none := AList.lookup_eq_none.mpr hm
    rw [hl]
    rfl

end Tracker
end Nack
