import Mathlib.Tactic

-- Threads that interleave on a shared state. `next i t s` is a step of the thread with the number
-- `i`, which is at `t`, in the shared state `s`.

structure Pool (τ σ : Type) where
  threads : List τ
  shared  : σ

namespace Pool

variable {τ σ : Type} {next : Nat → τ → σ → τ × σ} {p : Pool τ σ} {i : Nat} {t : τ} {s : σ}
variable {G : Nat → σ → Prop} {A : σ → Nat → τ → Prop}

def spawn (p : Pool τ σ) (t : τ) : Pool τ σ :=
  { p with threads := p.threads ++ [t] }

def step (next : Nat → τ → σ → τ × σ) (p : Pool τ σ) (i : Nat) : Pool τ σ :=
  match p.threads[i]? with
  | none   => p
  | some t => ⟨p.threads.set i (next i t p.shared).1, (next i t p.shared).2⟩

-- `G` holds of the shared state (and the number of threads), and `A` at the place of each thread.
structure Annotated (G : Nat → σ → Prop) (A : σ → Nat → τ → Prop) (p : Pool τ σ) : Prop where
  shared  : G p.threads.length p.shared
  threads : ∀ i t, p.threads[i]? = some t → A p.shared i t

namespace Annotated

-- The rule for steps of the threads: each step leads to what is said at the next place of the
-- thread, and does not disturb what is said at the places of the others.
theorem step (h : p.Annotated G A)
    (hlocal : ∀ t s, i < p.threads.length → G p.threads.length s → A s i t →
      G p.threads.length (next i t s).2 ∧ A (next i t s).2 i (next i t s).1)
    (hothers : ∀ t s j u, G p.threads.length s → A s i t → A s j u → j ≠ i → A (next i t s).2 j u) :
    (p.step next i).Annotated G A := by
  simp only [Pool.step]
  split
  case h_1 => exact h
  case h_2 t ht =>
    have ⟨hg, ha⟩ :=
      hlocal t p.shared (List.getElem?_eq_some_iff.mp ht).1 h.shared (h.threads i t ht)
    refine ⟨by simpa using hg, fun j u hu => ?_⟩
    rw [List.getElem?_set] at hu
    split at hu
    case isTrue e =>
      split at hu
      case isTrue  => cases hu; exact e ▸ ha
      case isFalse => cases hu
    case isFalse hne =>
      exact hothers t p.shared j u h.shared (h.threads i t ht) (h.threads j u hu) (Ne.symm hne)

theorem spawn (h : p.Annotated G A) (hg : G (p.threads.length + 1) p.shared)
    (ha : A p.shared p.threads.length t) : (p.spawn t).Annotated G A := by
  refine ⟨by simpa [Pool.spawn] using hg, fun j u hu => ?_⟩
  simp only [Pool.spawn, List.getElem?_append] at hu
  split at hu
  case isTrue  => exact h.threads j u hu
  case isFalse hge =>
    have hj : j = p.threads.length := by
      have hlt := (List.getElem?_eq_some_iff.mp hu).1
      simp only [List.length_singleton] at hlt
      omega
    subst hj
    simp only [Nat.sub_self, List.getElem?_cons_zero, Option.some.injEq] at hu
    exact hu ▸ ha

-- The rule for a step of the shared state alone.
theorem shift (h : p.Annotated G A) (hg : G p.threads.length s)
    (ha : ∀ j u, A p.shared j u → A s j u) : Annotated G A { p with shared := s } :=
  ⟨hg, fun j u hu => ha j u (h.threads j u hu)⟩

end Annotated
end Pool
