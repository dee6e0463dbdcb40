import Mathlib.Data.List.Basic
import Mathlib.Tactic

abbrev Ptr := ℕ

-- A memory of cells and of arrays of pointers to cells. The pointers from `next` on are not in use.
structure Heap (α : Type) where
  cells  : Ptr → α
  arrays : Ptr → List Ptr
  next   : Ptr

namespace Heap

variable {α : Type} {h h' h'' : Heap α} {p a : Ptr} {x : α} {xs : List α} {ps : List Ptr}

def write (h : Heap α) (p : Ptr) (x : α) : Heap α :=
  { h with cells := Function.update h.cells p x }

def store (h : Heap α) (a : Ptr) (ps : List Ptr) : Heap α :=
  { h with arrays := Function.update h.arrays a ps }

def alloc (h : Heap α) (x : α) : Ptr × Heap α :=
  (h.next, { h.write h.next x with next := h.next + 1 })

-- A new cell for each element.
def allocAll (h : Heap α) : List α → List Ptr × Heap α
  | []      => ([], h)
  | x :: xs =>
    let r := (h.alloc x).2.allocAll xs
    ((h.alloc x).1 :: r.1, r.2)

-- A new array, with a new cell for each element.
def slice (h : Heap α) (xs : List α) : Ptr × Heap α :=
  let r := h.allocAll xs
  (r.2.next, { r.2.store r.2.next r.1 with next := r.2.next + 1 })

def read (h : Heap α) (a : Ptr) : List α :=
  (h.arrays a).map h.cells

theorem read_congr (ha : h'.arrays a = h.arrays a) (hc : ∀ p ∈ h.arrays a, h'.cells p = h.cells p) :
    h'.read a = h.read a := by
  rw [read, read, ha]
  exact List.map_congr_left hc

-- What was in use before is as it was.
structure Extends (h h' : Heap α) : Prop where
  next   : h.next ≤ h'.next
  cells  : ∀ p < h.next, h'.cells p = h.cells p
  arrays : ∀ p < h.next, h'.arrays p = h.arrays p

namespace Extends

theorem refl : Extends h h :=
  ⟨le_rfl, fun _ _ => rfl, fun _ _ => rfl⟩

theorem trans (e : Extends h h') (e' : Extends h' h'') : Extends h h'' where
  next   := e.next.trans e'.next
  cells  := fun p hp => (e'.cells p (hp.trans_le e.next)).trans (e.cells p hp)
  arrays := fun p hp => (e'.arrays p (hp.trans_le e.next)).trans (e.arrays p hp)

theorem alloc : Extends h (h.alloc x).2 where
  next   := Nat.le_succ _
  cells  := fun _ hp => Function.update_of_ne hp.ne _ _
  arrays := fun _ _ => rfl

theorem allocAll : Extends h (h.allocAll xs).2 := by
  induction xs generalizing h
  case nil          => exact .refl
  case cons x xs hi => exact alloc.trans hi

theorem slice : Extends h (h.slice xs).2 := by
  have e : Extends (h.allocAll xs).2 (h.slice xs).2 :=
    ⟨Nat.le_succ _, fun _ _ => rfl, fun _ hp => Function.update_of_ne hp.ne _ _⟩
  exact allocAll.trans e

end Extends

theorem alloc_cell : (h.alloc x).2.cells (h.alloc x).1 = x :=
  Function.update_self _ _ _

theorem allocAll_cells : (h.allocAll xs).1.map (h.allocAll xs).2.cells = xs := by
  induction xs generalizing h
  case nil => rfl
  case cons x xs hi =>
    have hlt : (h.alloc x).1 < (h.alloc x).2.next := Nat.lt_succ_self _
    simp only [allocAll, List.map_cons, hi, Extends.allocAll.cells _ hlt, alloc_cell]

-- The new cells were not in use before.
theorem mem_allocAll (hp : p ∈ (h.allocAll xs).1) : h.next ≤ p ∧ p < (h.allocAll xs).2.next := by
  induction xs generalizing h
  case nil => cases hp
  case cons x xs hi =>
    simp only [allocAll] at hp ⊢
    cases List.mem_cons.mp hp
    case inl e =>
      have hle : (h.alloc x).2.next ≤ ((h.alloc x).2.allocAll xs).2.next := Extends.allocAll.next
      exact e ▸ ⟨le_rfl, hle⟩
    case inr hp =>
      have ⟨hle, hlt⟩ := hi hp
      exact ⟨(Nat.le_succ _).trans hle, hlt⟩

theorem slice_fst : h.next ≤ (h.slice xs).1 ∧ (h.slice xs).1 < (h.slice xs).2.next :=
  ⟨Extends.allocAll.next, Nat.lt_succ_self _⟩

theorem slice_array : (h.slice xs).2.arrays (h.slice xs).1 = (h.allocAll xs).1 :=
  Function.update_self _ _ _

theorem mem_slice (hp : p ∈ (h.slice xs).2.arrays (h.slice xs).1) :
    h.next ≤ p ∧ p < (h.slice xs).2.next := by
  rw [slice_array] at hp
  have ⟨hle, hlt⟩ := mem_allocAll hp
  exact ⟨hle, hlt.trans (Nat.lt_succ_self _)⟩

theorem read_slice : (h.slice xs).2.read (h.slice xs).1 = xs := by
  rw [read, slice_array]
  exact allocAll_cells

end Heap
