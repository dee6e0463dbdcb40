import Mathlib.Tactic

namespace List

variable {α : Type} {l data : List α} {off j : Nat}

-- `copy(l[off:], data)`: overwrites the positions from `off` on, as far as both lists reach.
def writeAt (l : List α) (off : Nat) (data : List α) : List α :=
  l.take off ++ (data.take (l.length - off) ++ l.drop (off + data.length))

@[simp]
theorem length_writeAt : (l.writeAt off data).length = l.length := by
  simp only [writeAt, length_append, length_take, length_drop]
  omega

theorem getElem?_writeAt :
    (l.writeAt off data)[j]? =
      if off ≤ j ∧ j < off + data.length ∧ j < l.length then data[j - off]? else l[j]? := by
  simp only [writeAt, getElem?_append, getElem?_take, getElem?_drop, length_take]
  grind

-- Pieces that lie side by side: all of them but the last are of length `size`.
section

variable {data : Nat → List α} {size n i r : Nat}

def Tiles (size n : Nat) (data : Nat → List α) : Prop :=
  ∀ i, i + 1 < n → (data i).length = size

theorem Tiles.of_succ (h : Tiles size (n + 1) data) : Tiles size n data :=
  fun i hi => h i (Nat.lt_succ_of_lt hi)

theorem Tiles.length_flatMap (h : Tiles size (n + 1) data) :
    ((range n).flatMap data).length = n * size := by
  induction n
  case zero => simp
  case succ n hi =>
    rw [range_succ, flatMap_append, length_append, hi h.of_succ, flatMap_singleton,
      h n (Nat.lt_succ_self _), Nat.succ_mul]

-- A byte of a piece is where its number says.
theorem Tiles.getElem?_flatMap (h : Tiles size n data) (hi : i < n) (hr : r < (data i).length) :
    ((range n).flatMap data)[i * size + r]? = (data i)[r]? := by
  induction n
  case zero => cases hi
  case succ n hn =>
    have hlen := h.length_flatMap
    rw [range_succ, flatMap_append, flatMap_singleton, getElem?_append, hlen]
    rcases Nat.lt_succ_iff_lt_or_eq.mp hi with hlt | e
    case inl =>
      have hle : (i + 1) * size ≤ n * size := Nat.mul_le_mul_right size hlt
      have hsize := h i (Nat.succ_lt_succ hlt)
      rw [Nat.succ_mul] at hle
      rw [if_pos (by omega)]
      exact hn h.of_succ hlt
    case inr =>
      subst e
      rw [if_neg (by omega), Nat.add_sub_cancel_left]

-- Two pieces do not overlap.
theorem Tiles.outside {j : Nat} (h : Tiles size n data) (hi : i < n) (hj : j < n) (hne : i ≠ j)
    (hr : r < (data i).length) :
    ¬(j * size ≤ i * size + r ∧ i * size + r < j * size + (data j).length) := by
  rcases Nat.lt_or_gt_of_ne hne with hlt | hgt
  case inl =>
    have hle : (i + 1) * size ≤ j * size := Nat.mul_le_mul_right size hlt
    have hlen := h i (Nat.lt_of_le_of_lt hlt hj)
    rw [Nat.succ_mul] at hle
    omega
  case inr =>
    have hle : (j + 1) * size ≤ i * size := Nat.mul_le_mul_right size hgt
    have hlen := h j (Nat.lt_of_le_of_lt hgt hi)
    rw [Nat.succ_mul] at hle
    omega

-- A buffer that has every piece in its place is their concatenation.
theorem Tiles.eq_flatMap (h : Tiles size (n + 1) data) (hs : 0 < size)
    (hl : l.length = n * size + (data n).length)
    (hd : ∀ i ≤ n, ∀ r < (data i).length, l[i * size + r]? = (data i)[r]?) :
    l = (range (n + 1)).flatMap data := by
  have hlen : ((range (n + 1)).flatMap data).length = n * size + (data n).length := by
    rw [range_succ, flatMap_append, length_append, h.length_flatMap, flatMap_singleton]
  apply ext_getElem?
  intro j
  by_cases hj : j < l.length
  case neg => rw [getElem?_eq_none (not_lt.mp hj), getElem?_eq_none (by omega)]
  case pos =>
    -- The number of the piece, and the place in it.
    have ⟨i, r, hi, hr, e⟩ : ∃ i r, i ≤ n ∧ r < (data i).length ∧ j = i * size + r := by
      have hdiv : j = j / size * size + j % size := (Nat.div_add_mod' j size).symm
      by_cases hlt : j / size < n
      case pos =>
        refine ⟨j / size, j % size, hlt.le, ?_, hdiv⟩
        rw [h _ (Nat.succ_lt_succ hlt)]
        exact Nat.mod_lt _ hs
      case neg =>
        have hle : n * size ≤ j / size * size := Nat.mul_le_mul_right size (not_lt.mp hlt)
        exact ⟨n, j - n * size, le_rfl, by omega, by omega⟩
    rw [e, hd i hi r hr, h.getElem?_flatMap (Nat.lt_succ_of_le hi) hr]

end

end List
