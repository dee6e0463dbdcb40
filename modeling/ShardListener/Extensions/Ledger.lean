import Mathlib.Tactic

-- The way of items through a queue to a worker, which writes them or gives up on them. An item that
-- finds no place in the queue is refused.
structure Ledger (α : Type) where
  waiting : List α
  taken   : List α
  queued  : List α
  written : List α
  failed  : List α
  refused : List α

namespace Ledger

variable {α : Type} {l l' : Ledger α} {e : Option α} {a b : α}

-- `e` is the item that the step brings in.
inductive Step (l : Ledger α) : Option α → Ledger α → Prop
  | idle : Step l none l
  | queue {m : α} :
    Step l (some m) { l with waiting := l.waiting ++ [m], queued := l.queued ++ [m] }
  | refuse {m : α} : Step l (some m) { l with refused := l.refused ++ [m] }
  | take {m : α} {rest : List α} (h : l.waiting = m :: rest) :
    Step l none { l with waiting := rest, taken := l.taken ++ [m] }
  | giveUp {m : α} {rest : List α} (h : l.taken = m :: rest) :
    Step l none { l with taken := rest, failed := l.failed ++ [m] }
  | write (n : Nat) :
    Step l none { l with taken := l.taken.drop n, written := l.written ++ l.taken.take n }

def settled (l : Ledger α) : List α :=
  l.written ++ l.failed ++ l.refused

def items (l : Ledger α) : List α :=
  l.waiting ++ l.taken ++ l.settled

-- Every queued item is dealt with, taken or waiting, in this order in the queue, and of those dealt
-- with the written ones are in the order of the queue.
def Ordered (l : Ledger α) : Prop :=
  ∃ dealt, l.queued = dealt ++ l.taken ++ l.waiting ∧ l.written.Sublist dealt ∧
    (l.written ++ l.failed).Perm dealt

namespace Step

-- No step loses or doubles an item.
theorem items_perm (h : l.Step e l') : l'.items.Perm (e.toList ++ l.items) := by
  classical
  rw [List.perm_iff_count]
  intro x
  cases h
  case idle => exact rfl
  case write n =>
    have ht := congrArg (List.count x) (List.take_append_drop n l.taken)
    simp only [items, settled, Option.toList_none, List.nil_append, List.count_append] at ht ⊢
    omega
  case queue  => simp only [items, settled, Option.toList_some, List.count_append]; omega
  case refuse => simp only [items, settled, Option.toList_some, List.count_append]; omega
  case take h =>
    simp only [items, settled, h, Option.toList_none, List.nil_append,
      List.count_append, List.count_cons, List.count_nil]
    omega
  case giveUp h =>
    simp only [items, settled, h, Option.toList_none, List.nil_append,
      List.count_append, List.count_cons, List.count_nil]
    omega

theorem ordered (h : l.Step e l') (ho : l.Ordered) : l'.Ordered := by
  have ⟨dealt, hq, hw, hp⟩ := ho
  cases h
  case idle   => exact ho
  case queue  => exact ⟨dealt, by simp [hq], hw, hp⟩
  case refuse => exact ho
  case take h => exact ⟨dealt, by simp [hq, h], hw, hp⟩
  case giveUp m rest h =>
    refine ⟨dealt ++ [m], by simp [hq, h], hw.trans (List.sublist_append_left ..), ?_⟩
    rw [← List.append_assoc]
    exact hp.append_right [m]
  case write n =>
    refine ⟨dealt ++ l.taken.take n, by simp [hq], hw.append_right _, ?_⟩
    have hc : (l.taken.take n ++ l.failed).Perm (l.failed ++ l.taken.take n) :=
      List.perm_append_comm
    simpa only [List.append_assoc] using (hc.append_left l.written).trans
      (List.append_assoc .. ▸ hp.append_right (l.taken.take n))

theorem queued_prefix (h : l.Step e l') : l.queued <+: l'.queued := by
  cases h
  case queue   => exact List.prefix_append ..
  case idle    => exact List.prefix_rfl
  case refuse  => exact List.prefix_rfl
  case take    => exact List.prefix_rfl
  case giveUp  => exact List.prefix_rfl
  case write   => exact List.prefix_rfl

theorem refused_prefix (h : l.Step e l') : l.refused <+: l'.refused := by
  cases h
  case refuse  => exact List.prefix_append ..
  case idle    => exact List.prefix_rfl
  case queue   => exact List.prefix_rfl
  case take    => exact List.prefix_rfl
  case giveUp  => exact List.prefix_rfl
  case write   => exact List.prefix_rfl

end Step

namespace Ordered

theorem written_sublist (h : l.Ordered) : l.written.Sublist l.queued := by
  have ⟨_, hq, hw, _⟩ := h
  rw [hq, List.append_assoc]
  exact hw.trans (List.sublist_append_left ..)

-- An item was queued or refused.
theorem items_perm_queued (h : l.Ordered) : l.items.Perm (l.queued ++ l.refused) := by
  classical
  have ⟨dealt, hq, _, hp⟩ := h
  rw [List.perm_iff_count]
  intro x
  have hc := hp.count_eq x
  simp only [items, settled, hq, List.count_append] at hc ⊢
  omega

-- Items that came one after the other are written one after the other.
theorem written_in_order (h : l'.Ordered) (hn : l'.items.Nodup) (hq : l.queued <+: l'.queued)
    (ha : a ∈ l.queued) (hb : b ∉ l.queued) (hwa : a ∈ l'.written) (hwb : b ∈ l'.written) :
    [a, b].Sublist l'.written := by
  have ⟨later, hl⟩ := hq
  have hnd : (l.queued ++ later).Nodup := by
    rw [hl]
    exact (h.items_perm_queued.nodup_iff.mp hn).of_append_left
  have ⟨w₁, w₂, hw, h₁, h₂⟩ := List.sublist_append_iff.mp (hl ▸ h.written_sublist)
  rw [hw] at hwa hwb ⊢
  have ha₁ : a ∈ w₁ := by
    refine (List.mem_append.mp hwa).resolve_right fun ha₂ => ?_
    exact (List.nodup_append.mp hnd).2.2 a ha a (h₂.mem ha₂) rfl
  have hb₂ : b ∈ w₂ := (List.mem_append.mp hwb).resolve_left fun hb₁ => hb (h₁.mem hb₁)
  exact (List.singleton_sublist.mpr ha₁).append (List.singleton_sublist.mpr hb₂)

end Ordered
end Ledger
