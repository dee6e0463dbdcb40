import Mathlib.Data.List.Nodup
import Mathlib.Tactic

-- A ring of `c` slots, in which every pushed element takes the slot of the oldest one, and an index
-- of its elements from which an element is removed when a slot with it is taken.
namespace Ring

variable {α : Type} {c head count : ℕ} {slots log os ns : List α} {a x : α}

-- The ring after the elements of the log were pushed, the latest of which is the first.
structure Holds (c : ℕ) (slots : List α) (head count : ℕ) (log : List α) : Prop where
  length : slots.length = c
  head   : head = log.length % c
  count  : count = min log.length c
  slot   : ∀ age i, age + i + 1 = log.length → age < c → slots[i % c]? = log[age]?

-- The index has the element after the elements of the log were pushed. The last of the `c` latest
-- elements of a log is in the slot that the next push takes.
def Indexed (c : ℕ) (a : α) : List α → Prop
  | []       => False
  | x :: log => a = x ∨ Indexed c a log ∧ log[c - 1]? ≠ some a

theorem mod_ne_mod {i j : ℕ} (hlt : i < j) (hc : j < i + c) : i % c ≠ j % c := by
  intro e
  have hd : c ∣ j - i := (Nat.modEq_iff_dvd' hlt.le).mp e
  have := Nat.le_of_dvd (by omega) hd
  omega

namespace Holds

theorem empty (hl : slots.length = c) : Holds c slots 0 0 [] where
  length := hl
  head   := by simp
  count  := by simp
  slot   := by
    intro age i he
    rw [List.length_nil] at he
    omega

theorem count_le (h : Holds c slots head count log) : count ≤ c :=
  h.count ▸ min_le_right _ _

theorem head_lt (h : Holds c slots head count log) (hc : 0 < c) : head < c :=
  h.head ▸ Nat.mod_lt _ hc

-- The slot that the next push takes holds the oldest element once the ring is full.
theorem oldest (h : Holds c slots head count log) (hc : 0 < c) (hf : count = c) :
    slots[head]? = log[c - 1]? := by
  have hlen : c ≤ log.length := by have := h.count; omega
  have hslot := h.slot (c - 1) (log.length - c) (by omega) (by omega)
  rwa [← Nat.mod_eq_sub_mod hlen, ← h.head] at hslot

theorem oldest_of_ne (h : Holds c slots head count log) (hf : count ≠ c) : log[c - 1]? = none := by
  rw [List.getElem?_eq_none_iff]
  have := h.count
  omega

theorem push (h : Holds c slots head count log) (hc : 0 < c) :
    Holds c (slots.set head x) ((head + 1) % c)
      (if count = c then count else count + 1) (x :: log) where
  length := by rw [List.length_set, h.length]
  head   := by rw [h.head, Nat.mod_add_mod, List.length_cons]
  count  := by
    have := h.count
    rw [List.length_cons]
    split <;> omega
  slot := by
    intro age i he ha
    rw [List.length_cons] at he
    cases age
    case zero =>
      have hi : i % c = head := by rw [h.head]; congr 1; omega
      rw [hi, List.getElem?_set_self (h.length ▸ h.head_lt hc), List.getElem?_cons_zero]
    case succ age =>
      have hne : head ≠ i % c := h.head ▸ (mod_ne_mod (by omega) (by omega)).symm
      rw [List.getElem?_set_ne hne, List.getElem?_cons_succ]
      exact h.slot age i (by omega) (by omega)

-- Every one of the `c` latest elements is in one of the populated slots.
theorem mem_slots (h : Holds c slots head count log) (hm : a ∈ log.take c) :
    a ∈ slots.take count := by
  have ⟨age, ha⟩ := List.mem_iff_getElem?.mp hm
  have hage : age < (log.take c).length := (List.getElem?_eq_some_iff.mp ha).1
  rw [List.length_take] at hage
  rw [List.getElem?_take_of_lt (by omega),
    ← h.slot age (log.length - 1 - age) (by omega) (by omega)] at ha
  have hlt : (log.length - 1 - age) % c < count := by
    rw [h.count, lt_min_iff]
    exact ⟨(Nat.mod_le _ _).trans_lt (by omega), Nat.mod_lt _ (by omega)⟩
  rw [← List.getElem?_take_of_lt hlt] at ha
  exact List.mem_of_getElem? ha

end Holds

namespace Indexed

-- What is in the index is among the `c` latest elements.
theorem mem_take (hc : 0 < c) (hi : Indexed c a log) : a ∈ log.take c := by
  have ⟨n, hn⟩ : ∃ n, c = n + 1 := ⟨c - 1, by omega⟩
  subst hn
  induction log
  case nil => exact hi.elim
  case cons x log ih =>
    rw [List.take_succ_cons, List.mem_cons]
    refine hi.imp_right ?_
    intro ⟨hi, hne⟩
    have hm := ih hi
    rw [List.take_add_one, List.mem_append] at hm
    refine hm.resolve_right ?_
    intro hm
    exact hne (Option.mem_toList.mp hm)

-- With fewer than `c` pushes since the latest one of an element, the index has it if and only if
-- the slot of every push of it before was taken by that push already, or is still not taken.
theorem append_cons_iff (hn : a ∉ ns) (hlt : ns.length < c) :
    Indexed c a (ns ++ a :: os) ↔
      ∀ age, os[age]? = some a → c ≤ age + 1 ∨ age + ns.length + 2 ≤ c := by
  induction ns
  case nil =>
    refine ⟨fun _ age _ => ?_, fun _ => .inl rfl⟩
    rw [List.length_nil]
    omega
  case cons x ns ih =>
    have ⟨hx, hn⟩ := not_or.mp (List.mem_cons.not.mp hn)
    rw [List.length_cons] at hlt
    have ⟨n, e⟩ : ∃ n, c - 1 = ns.length + (n + 1) := ⟨c - 2 - ns.length, by omega⟩
    have hnext : (ns ++ a :: os)[c - 1]? = os[n]? := by
      rw [e, List.getElem?_append_right (Nat.le_add_right _ _), Nat.add_sub_cancel_left,
        List.getElem?_cons_succ]
    simp only [List.cons_append, Indexed, hx, false_or, ih hn (by omega), hnext, List.length_cons]
    constructor
    case mp =>
      intro ⟨h, hne⟩ age ha
      have : age ≠ n := by rintro rfl; exact hne ha
      have := h age ha
      omega
    case mpr =>
      intro h
      refine ⟨fun age ha => (h age ha).imp_right (by omega), ?_⟩
      intro ha
      have := h n ha
      omega

end Indexed
end Ring
