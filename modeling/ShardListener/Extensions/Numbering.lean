import Mathlib.Tactic

-- The elements of a list, numbered by key: each one comes with its number among those of its key.
namespace Numbering

variable {α κ : Type} [DecidableEq κ] {key : α → κ} {seen : List κ} {as bs : List α} {a b : α}
variable {n : ℕ}

-- `seen` are the keys of the elements that came before the list.
def number (key : α → κ) (seen : List κ) : List α → List (α × ℕ)
  | []      => []
  | a :: as => (a, seen.count (key a) + 1) :: number key (seen ++ [key a]) as

theorem number_append :
    number key seen (as ++ bs) = number key seen as ++ number key (seen ++ as.map key) bs := by
  induction as generalizing seen
  case nil          => simp [number]
  case cons a as hi => simp [number, hi]

theorem map_fst_number : (number key seen as).map Prod.fst = as := by
  induction as generalizing seen
  case nil          => rfl
  case cons a as hi => simp [number, hi]

theorem mem_of_mem_number (h : (a, n) ∈ number key seen as) : a ∈ as := by
  have hm := List.mem_map_of_mem (f := Prod.fst) h
  rwa [map_fst_number] at hm

theorem exists_number (key : α → κ) (seen : List κ) (h : a ∈ as) :
    ∃ n, (a, n) ∈ number key seen as := by
  have hm : a ∈ (number key seen as).map Prod.fst := by rwa [map_fst_number]
  have ⟨⟨a', n⟩, hm', e⟩ := List.mem_map.mp hm
  cases e
  exact ⟨n, hm'⟩

-- The number of an element is its position in the list of those with its key.
theorem getElem?_of_mem (h : (a, n) ∈ number key seen as) :
    ∃ i, n = seen.count (key a) + i + 1 ∧ (as.filter (key · = key a))[i]? = some a := by
  induction as generalizing seen
  case nil => cases h
  case cons c as hi =>
    cases h
    case head => exact ⟨0, rfl, by simp⟩
    case tail h =>
      have ⟨i, hn, ha⟩ := hi h
      by_cases e : key c = key a
      case pos => exact ⟨i + 1, by simp [hn, e]; omega, by simp [e, ha]⟩
      case neg => exact ⟨i, by simp [hn, e], by simp [e, ha]⟩

-- If the elements of one key come in the same order in both lists, as far as they go, then equal
-- numbers stand for equal elements.
theorem eq_of_number_eq {k : κ} (ha : (a, n) ∈ number key [] as) (hb : (b, n) ∈ number key [] bs)
    (hka : key a = k) (hkb : key b = k)
    (hp : as.filter (key · = k) <+: bs.filter (key · = k)) : a = b := by
  have ⟨i, hi, ha⟩ := getElem?_of_mem ha
  have ⟨j, hj, hb⟩ := getElem?_of_mem hb
  have e : i = j := by simpa [hi] using hj
  subst e
  have ⟨cs, hc⟩ := hp
  rw [hka] at ha
  have hl := (List.getElem?_eq_some_iff.mp ha).1
  rw [hkb, ← hc, List.getElem?_append_left hl] at hb
  exact Option.some.inj (ha.symm.trans hb)

-- The numbers of one key ascend, from those seen on.

theorem count_lt_of_mem (h : (a, n) ∈ number key seen as) : seen.count (key a) < n := by
  have ⟨i, hn, _⟩ := getElem?_of_mem h
  omega

theorem pairwise_number :
    (number key seen as).Pairwise fun x y => key x.1 = key y.1 → x.2 < y.2 := by
  induction as generalizing seen
  case nil => exact .nil
  case cons a as hi =>
    refine .cons ?_ hi
    intro y hy e
    have hc := count_lt_of_mem hy
    simpa [← e, List.count_append] using hc

end Numbering
