import Mathlib.Tactic

theorem List.sublist_snoc_iff {α : Type} {l r : List α} {d : α} :
    l.Sublist (r ++ [d]) ↔ l.Sublist r ∨ ∃ l', l = l' ++ [d] ∧ l'.Sublist r := by
  rw [List.sublist_append_iff]
  constructor
  case mp =>
    intro ⟨l₁, l₂, e, h₁, h₂⟩
    rcases List.sublist_singleton.mp h₂ with e₂ | e₂
    case inl => exact .inl (by rwa [e, e₂, List.append_nil])
    case inr => exact .inr ⟨l₁, e₂ ▸ e, h₁⟩
  case mpr =>
    intro h
    rcases h with h | ⟨l', e, h⟩
    case inl => exact ⟨l, [], (List.append_nil l).symm, h, List.nil_sublist _⟩
    case inr => exact ⟨l', [d], e, h, List.Sublist.refl _⟩

-- Events in the order of their times.
namespace Window

variable {α : Type} {time : α → Int} {Excused : α → Prop} {l : List α} {a b c d : α} {n lo hi : Int}

-- The events in a window of time.
def within (time : α → Int) (lo hi : Int) (l : List α) : List α :=
  l.filter fun a => lo ≤ time a ∧ time a ≤ hi

def Chronological (time : α → Int) (l : List α) : Prop :=
  l.Pairwise fun a b => time a ≤ time b

theorem Chronological.snoc (h : Chronological time l) (hd : ∀ a ∈ l, time a ≤ time d) :
    Chronological time (l ++ [d]) :=
  List.pairwise_append.mpr ⟨h, List.pairwise_singleton ..,
    fun a ha _ hb => List.mem_singleton.mp hb ▸ hd a ha⟩

theorem mem_within : a ∈ within time lo hi l ↔ a ∈ l ∧ lo ≤ time a ∧ time a ≤ hi := by
  simp [within]

-- A window shorter than `n` has at most two events, the second of which is excused.
def Sparse (time : α → Int) (n : Int) (Excused : α → Prop) (l : List α) : Prop :=
  ∀ lo hi, hi - lo < n →
    (within time lo hi l).length ≤ 2 ∧ ∀ a ∈ (within time lo hi l).tail, Excused a

-- The same in terms of the events.
structure Spaced (time : α → Int) (n : Int) (Excused : α → Prop) (l : List α) : Prop where
  triple : ∀ a b c, [a, b, c].Sublist l → n ≤ time c - time a
  pair   : ∀ a b, [a, b].Sublist l → time b - time a < n → Excused b

theorem sublist_within {l' : List α} (h : l'.Sublist l) (hl : ∀ a ∈ l', lo ≤ time a ∧ time a ≤ hi) :
    l'.Sublist (within time lo hi l) := by
  have hf := h.filter fun a => decide (lo ≤ time a ∧ time a ≤ hi)
  rwa [List.filter_eq_self.mpr fun a ha => decide_eq_true (hl a ha)] at hf

theorem span_le {l' : List α} (h : l'.Sublist (within time lo hi l)) (ha : a ∈ l') (hb : b ∈ l') :
    time b - time a ≤ hi - lo := by
  have ha := (mem_within.mp (h.subset ha)).2
  have hb := (mem_within.mp (h.subset hb)).2
  omega

theorem sparse_iff_spaced (hl : Chronological time l) :
    Sparse time n Excused l ↔ Spaced time n Excused l := by
  constructor
  case mp =>
    intro h
    refine ⟨fun a b c hs => ?triple, fun a b hs hlt => ?pair⟩
    case triple =>
      have ⟨hab, hbc⟩ := List.pairwise_cons.mp (List.Pairwise.sublist hs hl)
      have hab := hab b List.mem_cons_self
      have hbc := List.rel_of_pairwise_cons hbc List.mem_cons_self
      by_contra hlt
      have hsub : [a, b, c].Sublist (within time (time a) (time c) l) :=
        sublist_within hs (by simp; omega)
      have hle := (h (time a) (time c) (not_le.mp hlt)).1
      exact absurd (hsub.length_le.trans hle) (by simp)
    case pair =>
      have hab := List.rel_of_pairwise_cons (List.Pairwise.sublist hs hl) List.mem_cons_self
      have hsub : [a, b].Sublist (within time (time a) (time b) l) :=
        sublist_within hs (by simp; omega)
      exact (h (time a) (time b) hlt).2 b (hsub.tail.subset List.mem_cons_self)
  case mpr =>
    intro h lo hi hlt
    have hsub : (within time lo hi l).Sublist l := List.filter_sublist
    match hw : within time lo hi l with
    | []      => exact ⟨by simp, nofun⟩
    | a :: l' =>
      have hall : (a :: l').Sublist (within time lo hi l) := hw ▸ .refl _
      have hpair {d : α} (hd : d ∈ l') : [a, d].Sublist (within time lo hi l) :=
        (List.cons_sublist_cons.mpr (List.singleton_sublist.mpr hd)).trans hall
      refine ⟨?length, fun d hd => ?excused⟩
      case excused =>
        have hspan :=
          span_le (hpair hd) List.mem_cons_self (List.mem_cons_of_mem _ List.mem_cons_self)
        exact h.pair a d ((hpair hd).trans hsub) (hspan.trans_lt hlt)
      case length =>
        match l', hall with
        | [], _ | [_], _       => simp
        | b :: c :: rest, hall =>
          have htriple : [a, b, c].Sublist (within time lo hi l) :=
            (List.prefix_append [a, b, c] rest).sublist.trans hall
          have hspan : time c - time a ≤ hi - lo := span_le htriple List.mem_cons_self (by simp)
          exact absurd (h.triple a b c (htriple.trans hsub)) (hspan.trans_lt hlt).not_ge

theorem Spaced.snoc_iff :
    Spaced time n Excused (l ++ [d]) ↔
      Spaced time n Excused l ∧ (∀ a b, [a, b].Sublist l → n ≤ time d - time a) ∧
        ∀ a ∈ l, time d - time a < n → Excused d := by
  constructor
  case mp =>
    intro h
    refine ⟨⟨fun a b c hs => h.triple a b c ?_, fun a b hs => h.pair a b ?_⟩,
      fun a b hs => ?_, fun a ha => ?_⟩
    case refine_1 => exact hs.trans (List.sublist_append_left ..)
    case refine_2 => exact hs.trans (List.sublist_append_left ..)
    case refine_3 => exact h.triple a b d (List.sublist_snoc_iff.mpr (.inr ⟨[a, b], rfl, hs⟩))
    case refine_4 =>
      exact h.pair a d (List.sublist_snoc_iff.mpr (.inr ⟨[a], rfl, List.singleton_sublist.mpr ha⟩))
  case mpr =>
    intro ⟨h, htriple, hpair⟩
    refine ⟨fun a b c hs => ?_, fun a b hs => ?_⟩
    case refine_1 =>
      rcases List.sublist_snoc_iff.mp hs with hs' | ⟨l', e, hs'⟩
      case inl => exact h.triple a b c hs'
      case inr =>
        have ⟨e₁, e₂⟩ := List.append_inj' (show [a, b] ++ [c] = l' ++ [d] from e) rfl
        cases e₂
        exact htriple a b (e₁ ▸ hs')
    case refine_2 =>
      rcases List.sublist_snoc_iff.mp hs with hs' | ⟨l', e, hs'⟩
      case inl => exact h.pair a b hs'
      case inr =>
        have ⟨e₁, e₂⟩ := List.append_inj' (show [a] ++ [b] = l' ++ [d] from e) rfl
        cases e₂
        exact hpair a (List.singleton_sublist.mp (e₁ ▸ hs'))

end Window
