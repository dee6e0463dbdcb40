import Mathlib.Data.List.Pairwise
import Mathlib.Tactic

-- Sorting by a comparison that may leave elements tied, without a promise on the order of the tied
-- ones. What such a sort makes of a list is any rearrangement of it in which no element stands
-- behind a greater one.
structure Sorter {α : Type} (less : α → α → Bool) where
  sort   : List α → List α
  perm   : ∀ l, (sort l).Perm l
  sorted : ∀ l, (sort l).Pairwise fun a b => ¬less b a

-- The comparisons one can sort by.
structure StrictWeak {α : Type} (less : α → α → Bool) : Prop where
  asymm : ∀ {a b}, less a b → ¬less b a
  trans : ∀ {a b c}, ¬less b a → ¬less c b → ¬less c a

namespace StrictWeak

variable {α : Type} {less : α → α → Bool} {a b c : α}

theorem ne_of_less (w : StrictWeak less) (h : less a b) : a ≠ b := by
  intro e
  subst e
  exact w.asymm h h

-- `b` is not less than `a`. This is a total preorder, as the merge sort of the library wants it.
def le (less : α → α → Bool) (a b : α) : Bool :=
  !less b a

theorem le_iff : le less a b ↔ ¬less b a := by
  simp [le]

theorem le_trans (w : StrictWeak less) (a b c : α) (hab : le less a b) (hbc : le less b c) :
    le less a c :=
  le_iff.mpr (w.trans (le_iff.mp hab) (le_iff.mp hbc))

theorem le_total (w : StrictWeak less) (a b : α) : le less a b || le less b a := by
  rw [Bool.or_eq_true, le_iff, le_iff]
  by_cases h : less b a
  case pos => exact .inr (w.asymm h)
  case neg => exact .inl h

end StrictWeak

namespace Sorter

variable {α : Type} {less : α → α → Bool} {l : List α} {a b : α} {P : α → α → Prop}

theorem mem_sort (σ : Sorter less) : a ∈ σ.sort l ↔ a ∈ l :=
  (σ.perm l).mem_iff

-- Of two elements of a list that is related pairwise, one is related to the other.
theorem rel_or_rel {R : α → α → Prop} (h : l.Pairwise R) (ha : a ∈ l) (hb : b ∈ l) (hne : a ≠ b) :
    R a b ∨ R b a := by
  have : Std.Symm fun x y => R x y ∨ R y x := ⟨fun _ _ => Or.symm⟩
  have hs : l.Pairwise fun x y => R x y ∨ R y x := h.imp .inl
  exact hs.forall ha hb hne

-- Elements that are told apart have one order in every arrangement.
theorem rel_of_less (σ : Sorter less) (w : StrictWeak less) (h : (σ.sort l).Pairwise P) (ha : a ∈ l)
    (hb : b ∈ l) (hl : less a b) : P a b := by
  have hs := h.and (σ.sorted l)
  have hr := rel_or_rel hs (σ.mem_sort.mpr ha) (σ.mem_sort.mpr hb) (w.ne_of_less hl)
  exact hr.elim (·.1) fun h => absurd hl h.2

theorem pairwise_sort (σ : Sorter less) (h : ∀ a ∈ l, ∀ b ∈ l, ¬P a b → less b a) :
    (σ.sort l).Pairwise P := by
  refine (σ.sorted l).imp_of_mem fun {a b} ha hb hs => ?_
  by_contra hp
  exact hs (h a (σ.mem_sort.mp ha) b (σ.mem_sort.mp hb) hp)

-- The elements that are told apart from each other come out as they stand when they are in order.
theorem filter_sort (σ : Sorter less) {p : α → Bool} (h : (l.filter p).Pairwise fun a b => less a b)
    (w : StrictWeak less) : (σ.sort l).filter p = l.filter p := by
  have hp : ((σ.sort l).filter p).Perm (l.filter p) := (σ.perm l).filter p
  have hs : ((σ.sort l).filter p).Pairwise fun a b => ¬less b a := (σ.sorted l).filter p
  refine hp.eq_of_pairwise ?_ hs (h.imp w.asymm)
  intro a b ha hb hab hba
  by_contra hne
  exact (rel_or_rel h (hp.mem_iff.mp ha) hb hne).elim hba hab

variable [DecidableEq α]

-- The list with `a` and `b` moved to the front.
def advance (a b : α) (l : List α) : List α :=
  if a ∈ l ∧ b ∈ l.erase a then a :: b :: (l.erase a).erase b else l

theorem advance_perm : (advance a b l).Perm l := by
  simp only [advance]
  split
  case isTrue h =>
    exact ((List.perm_cons_erase h.2).symm.cons a).trans (List.perm_cons_erase h.1).symm
  case isFalse => exact .refl l

-- A stable sort of the list with `a` and `b` moved to the front.
def favour (w : StrictWeak less) (a b : α) : Sorter less where
  sort l   := (advance a b l).mergeSort (StrictWeak.le less)
  perm _   := (List.mergeSort_perm _ _).trans advance_perm
  sorted _ := (List.pairwise_mergeSort w.le_trans w.le_total _).imp StrictWeak.le_iff.mp

theorem favour_sublist (w : StrictWeak less) (ha : a ∈ l) (hb : b ∈ l) (hne : a ≠ b)
    (h : ¬less b a) : [a, b].Sublist ((favour w a b).sort l) := by
  have hm : a ∈ l ∧ b ∈ l.erase a := ⟨ha, (List.mem_erase_of_ne hne.symm).mpr hb⟩
  have hs : [a, b].Sublist (advance a b l) := by
    simp only [advance, hm, and_self, if_true]
    exact List.Sublist.cons_cons a (List.Sublist.cons_cons b (List.nil_sublist _))
  exact List.pair_sublist_mergeSort w.le_trans w.le_total (StrictWeak.le_iff.mpr h) hs

-- All arrangements respect a relation exactly if the comparison separates the pairs that would
-- break it.
theorem forall_pairwise_iff (w : StrictWeak less) (hr : ∀ a, P a a) :
    (∀ σ : Sorter less, (σ.sort l).Pairwise P) ↔ ∀ a ∈ l, ∀ b ∈ l, ¬P a b → less b a := by
  refine ⟨fun h a ha b hb hp => ?_, fun h σ => σ.pairwise_sort h⟩
  by_contra hl
  have hne : a ≠ b := by
    intro e
    subst e
    exact hp (hr a)
  have hs := (h (favour w a b)).sublist (favour_sublist w ha hb hne hl)
  exact hp ((List.pairwise_pair).mp hs)

end Sorter
