import ShardListener.Extensions.Pipe
import ShardListener.Extensions.Run

-- A channel as a counting semaphore: whoever starts a goroutine sends a token first, and the
-- goroutine takes one out at its end.

section

variable {L C : Type} [DecidableEq C] {c : C}

namespace Prog

-- The tokens that the program takes out, more than it puts in.
def tokens (c : C) : Prog L C → Nat
  | .act (.recv c') => if c' = c then 1 else 0
  | .spawn p        => p.tokens c
  | .seq p q        => p.tokens c + q.tokens c
  | _               => 0

def leaves (c : C) (a : Act L C) : Prop :=
  a ≠ .send c ∧ a ≠ .trySend c ∧ a ≠ .tryRecv c ∧ a ≠ .close c

-- The number of tokens does not depend on which way the program goes.
def Steady (c : C) : Prog L C → Prop
  | .skip        => True
  | .act a       => leaves c a
  | .spawn p     => p.Steady c
  | .seq p q     => p.Steady c ∧ q.Steady c
  | .pick f      => ∀ k, (f k).Steady c ∧ (f k).tokens c = 0
  | .loop p      => p.Steady c ∧ p.tokens c = 0
  | .range c' p  => c' ≠ c ∧ p.Steady c ∧ p.tokens c = 0
  | .sendOr c' p => p.Steady c ∧ p.tokens c = if c' = c then 1 else 0
  | .recvOr c' p => c' ≠ c ∧ p.Steady c ∧ p.tokens c = 0

theorem Steady.not_close {p : Prog L C} (h : p.Steady c) : p.All (· ≠ .close c) (· ≠ .close c) := by
  induction p
  case skip        => trivial
  case act         => exact h.2.2.2
  case spawn hp    => exact hp h
  case seq hp hq   => exact ⟨hp h.1, hq h.2⟩
  case pick hf     => exact fun k => hf k (h k).1
  case loop hp     => exact hp h.1
  case range hp    => exact ⟨nofun, hp h.2.1⟩
  case sendOr hp   => exact ⟨nofun, hp h.1⟩
  case recvOr hp   => exact ⟨nofun, hp h.2.1⟩

theorem tokens_eq_zero {p : Prog L C} {P Q : Act L C → Prop} (h : p.All P Q) (hP : ¬P (.recv c))
    (hQ : ¬Q (.recv c)) : p.tokens c = 0 := by
  induction p generalizing P
  case act a =>
    cases a
    case recv c' =>
      have hne : c' ≠ c := fun e => hP (e ▸ h)
      simp [tokens, hne]
    case lock | unlock | send | trySend | tryRecv | close | pause => rfl
  case spawn hp => exact hp h hQ
  case seq hp hq => simp [tokens, hp h.1 hP, hq h.2 hP]
  case skip | pick | loop | range | sendOr | recvOr => rfl

-- A program that has nothing to do with the semaphore.
theorem steady_of_all {p : Prog L C} {P : Act L C → Prop} (h : p.All P P)
    (hP : ∀ a, P a → leaves c a) (hr : ¬P (.recv c)) : p.Steady c ∧ p.tokens c = 0 := by
  refine ⟨?_, tokens_eq_zero h hr hr⟩
  induction p
  case skip => trivial
  case act a => exact hP a h
  case spawn hp => exact hp h
  case seq hp hq => exact ⟨hp h.1, hq h.2⟩
  case pick hf => exact fun k => ⟨hf k (h k), tokens_eq_zero (h k) hr hr⟩
  case loop hp => exact ⟨hp h, tokens_eq_zero h hr hr⟩
  case range c' p hp =>
    have hne : c' ≠ c := fun e => hr (e ▸ h.1)
    exact ⟨hne, hp h.2, tokens_eq_zero h.2 hr hr⟩
  case sendOr c' p hp =>
    have hne : c' ≠ c := fun e => (hP _ h.1).1 (e ▸ rfl)
    exact ⟨hp h.2, by simpa [hne] using tokens_eq_zero h.2 hr hr⟩
  case recvOr c' p hp =>
    have hne : c' ≠ c := fun e => (hP _ h.1).2.2.1 (e ▸ rfl)
    exact ⟨hne, hp h.2, tokens_eq_zero h.2 hr hr⟩

end Prog

theorem Sync.chan_of_ne {s : Sync L C} {c' : C} {ch : Chan} (h : c' ≠ c) :
    (s.setChan c' ch).chan c = s.chan c :=
  Function.update_of_ne (Ne.symm h) ..

theorem Sync.items_act [DecidableEq L] {s s' : Sync L C} {a : Act L C} {i : Nat}
    (h : s.act i a = some s') (hl : Prog.leaves c a) (hc : (s.chan c).closed = false) :
    (s'.chan c).items + (Prog.act a).tokens c = (s.chan c).items := by
  cases a
  case lock   => exact (act_lock h).2 ▸ rfl
  case unlock => exact (act_unlock h).2 ▸ rfl
  case send c' =>
    have hne : c' ≠ c := fun e => hl.1 (e ▸ rfl)
    simp only [act, Option.ite_none_right_eq_some, Option.some.injEq] at h
    rw [← h.2, push, chan_of_ne hne]
    rfl
  case recv c' =>
    by_cases e : c' = c
    case neg =>
      have hn : (s'.chan c).items = (s.chan c).items := by
        rcases act_recv h with ⟨_, hs⟩ | ⟨_, _, hs⟩
        case inl => rw [hs, pop, chan_of_ne e]
        case inr => rw [hs]
      simp [Prog.tokens, e, hn]
    case pos =>
      subst e
      rcases act_recv h with ⟨hi, hs⟩ | ⟨_, hs, _⟩
      case inl => simp [hs, pop, chan_setChan, Prog.tokens]; omega
      case inr => exact absurd (hc.symm.trans hs) (by decide)
  case trySend c' =>
    have hne : c' ≠ c := fun e => hl.2.1 (e ▸ rfl)
    simp only [act, Option.some.injEq] at h
    subst h
    split
    case isTrue  => rw [push, chan_of_ne hne]; rfl
    case isFalse => rfl
  case tryRecv c' =>
    have hne : c' ≠ c := fun e => hl.2.2.1 (e ▸ rfl)
    simp only [act, Option.some.injEq] at h
    subst h
    split
    case isTrue  => rw [pop, chan_of_ne hne]; rfl
    case isFalse => rfl
  case close c' =>
    have hne : c' ≠ c := fun e => hl.2.2.2 (e ▸ rfl)
    cases h
    rw [shut, chan_of_ne hne]
    rfl
  case pause => exact Option.some.inj h ▸ rfl

namespace Code

def tokens (c : C) (t : Code L C) : Nat :=
  (t.map (Prog.tokens c)).sum

def Steady (c : C) (t : Code L C) : Prop :=
  ∀ p ∈ t, p.Steady c

@[simp]
theorem tokens_cons {p : Prog L C} {t : Code L C} :
    tokens c (p :: t) = p.tokens c + t.tokens c := by
  simp only [tokens, List.map_cons, List.sum_cons]

theorem tokens_eq_zero {t : Code L C} {P : Act L C → Prop} (h : t.Only P) (hP : ¬P (.recv c)) :
    t.tokens c = 0 := by
  refine List.sum_eq_zero fun n hn => ?_
  have ⟨p, hp, he⟩ := List.mem_map.mp hn
  exact he ▸ Prog.tokens_eq_zero (h p hp) hP hP

theorem Steady.cons {p : Prog L C} {t : Code L C} (hp : p.Steady c) (ht : t.Steady c) :
    Steady c (p :: t) := by
  intro q hq
  cases hq
  case head    => exact hp
  case tail hq => exact ht q hq

theorem Steady.forked {t u : Code L C} (h : t.Steady c) (hu : t.forks = some u) : u.Steady c := by
  match t, hu with
  | .spawn p :: t, hu =>
    cases hu
    exact .cons (h (.spawn p) List.mem_cons_self) nofun

variable [DecidableEq L] {s : Sync L C} {t : Code L C} {i k : Nat}

-- A step keeps the balance of the tokens in the channel and the tokens that are still to be taken
-- out.
theorem Steady.next (h : t.Steady c) (hc : (s.chan c).closed = false) :
    (t.next k i s).1.Steady c ∧
    ((t.next k i s).2.chan c).items + t.tokens c =
      (s.chan c).items + (t.next k i s).1.tokens c + (t.forks.elim 0 (tokens c)) := by
  cases t
  case nil => exact ⟨h, rfl⟩
  case cons p t =>
    have hp := h p List.mem_cons_self
    have ht : Code.Steady c t := fun q hq => h q (List.mem_cons_of_mem _ hq)
    cases p
    case skip  => exact ⟨ht, by simp [Code.next, forks, Prog.tokens]⟩
    case spawn p =>
      refine ⟨ht, ?_⟩
      simp [Code.next, forks, Prog.tokens, tokens]
      omega
    case seq p q =>
      refine ⟨.cons hp.1 (.cons hp.2 ht), ?_⟩
      simp [Code.next, forks, Prog.tokens]
      omega
    case pick f =>
      refine ⟨.cons (hp k).1 ht, ?_⟩
      simp [Code.next, forks, Prog.tokens, (hp k).2]
    case loop p =>
      simp only [Code.next]
      split
      case isTrue  => exact ⟨ht, by simp [forks, Prog.tokens]⟩
      case isFalse => exact ⟨.cons hp.1 h, by simp [forks, Prog.tokens, hp.2]⟩
    case act a =>
      cases ha : s.act i a
      case none    => exact ⟨by simpa [Code.next, ha] using h, by simp [Code.next, ha, forks]⟩
      case some s' =>
        have hi := Sync.items_act ha hp hc
        refine ⟨by simpa [Code.next, ha] using ht, ?_⟩
        simp [Code.next, ha, forks]
        omega
    case range c' p =>
      obtain ⟨hne, hs, hn⟩ := hp
      simp only [Code.next]
      split
      case isTrue  =>
        exact ⟨.cons hs h, by simp [forks, Prog.tokens, hn, Sync.pop, Sync.chan_of_ne hne]⟩
      case isFalse =>
        dsimp only
        split
        case isTrue  => exact ⟨ht, by simp [forks, Prog.tokens]⟩
        case isFalse => exact ⟨h, by simp [forks]⟩
    case sendOr c' p =>
      obtain ⟨hs, hn⟩ := hp
      simp only [Code.next]
      split
      case isTrue  => exact ⟨ht, by simp [forks, Prog.tokens]⟩
      case isFalse =>
        split
        case isFalse => exact ⟨h, by simp [forks]⟩
        case isTrue  =>
          refine ⟨.cons hs ht, ?_⟩
          by_cases e : c' = c
          case pos =>
            subst e
            simp [forks, Prog.tokens, hn, Sync.push, Sync.chan_setChan]
            omega
          case neg => simp [forks, Prog.tokens, hn, e, Sync.push, Sync.chan_of_ne e]
    case recvOr c' p =>
      obtain ⟨hne, hs, hn⟩ := hp
      simp only [Code.next]
      split
      case isTrue  => exact ⟨ht, by simp [forks, Prog.tokens]⟩
      case isFalse =>
        split
        case isTrue  =>
          exact ⟨.cons hs ht, by simp [forks, Prog.tokens, hn, Sync.pop, Sync.chan_of_ne hne]⟩
        case isFalse => exact ⟨h, by simp [forks]⟩

end Code

namespace Goroutines

variable {g : Goroutines L C} {m : Move} {i : Nat} {t : Code L C}

def tokens (c : C) (g : Goroutines L C) : Nat :=
  (g.threads.map (Code.tokens c)).sum

theorem tokens_set {u : Code L C} (ht : g.threads[i]? = some t) :
    ((g.threads.set i u).map (Code.tokens c)).sum + t.tokens c = g.tokens c + u.tokens c := by
  have ⟨hi, he⟩ := List.getElem?_eq_some_iff.mp ht
  have h₁ := ((List.set_perm_cons_eraseIdx hi u).map (Code.tokens c)).sum_eq
  have h₂ := ((List.getElem_cons_eraseIdx_perm hi).map (Code.tokens c)).sum_eq
  simp only [List.map_cons, List.sum_cons, he] at h₁ h₂
  rw [tokens, ← h₂, h₁]
  omega

-- There is a token in the semaphore for each goroutine that is to take one out.
structure Balanced (c : C) (g : Goroutines L C) : Prop where
  steady : ∀ t ∈ g.threads, t.Steady c
  opened : (g.shared.chan c).closed = false
  items  : (g.shared.chan c).items = g.tokens c

namespace Balanced

theorem start (ho : (g.shared.chan c).closed = false) (hi : (g.shared.chan c).items = 0)
    (ht : ∀ t ∈ g.threads, ∀ p ∈ t, p.Steady c ∧ p.tokens c = 0) : g.Balanced c := by
  have hn : ∀ t ∈ g.threads, t.tokens c = 0 := by
    intro t h
    refine List.sum_eq_zero fun n hn => ?_
    have ⟨p, hp, he⟩ := List.mem_map.mp hn
    exact he ▸ (ht t h p hp).2
  have hs : g.tokens c = 0 := by
    refine List.sum_eq_zero fun n hm => ?_
    have ⟨t, h, he⟩ := List.mem_map.mp hm
    exact he ▸ hn t h
  exact ⟨fun t h p hp => (ht t h p hp).1, ho, hi.trans hs.symm⟩

-- When the semaphore is full, somebody is to take a token out.
theorem exists_tokens (h : g.Balanced c) (hp : 0 < (g.shared.chan c).items) :
    ∃ (j : Nat) (u : Code L C), g.threads[j]? = some u ∧ 0 < u.tokens c := by
  have hn : g.tokens c ≠ 0 := by have := h.items; omega
  have ⟨n, hm, hn⟩ : ∃ n ∈ g.threads.map (Code.tokens c), n ≠ 0 := by
    simpa only [tokens, ne_eq, List.sum_eq_zero_iff, not_forall, exists_prop] using hn
  have ⟨u, hu, he⟩ := List.mem_map.mp hm
  have ⟨j, hj⟩ := List.mem_iff_getElem?.mp hu
  exact ⟨j, u, hj, by omega⟩

variable [DecidableEq L]

theorem step (h : g.Balanced c) : (g.step m).Balanced c := by
  cases ht : g.threads[m.i]?
  case none => simpa [Goroutines.step, Pool.step, ht] using h
  case some t =>
    have hs := h.steady t (List.mem_of_getElem? ht)
    obtain ⟨hs', hn⟩ : (t.next m.k m.i g.shared).1.Steady c ∧ _ := hs.next h.opened
    have hc : ((t.next m.k m.i g.shared).2.chan c).closed = false :=
      (Code.closed_next (fun p hp => (hs p hp).not_close) (· rfl)).trans h.opened
    have hset := g.tokens_set (c := c) (u := (t.next m.k m.i g.shared).1) ht
    have hi := h.items
    have hsteady : ∀ u ∈ g.threads.set m.i (t.next m.k m.i g.shared).1, u.Steady c := by
      intro u hu
      cases List.mem_or_eq_of_mem_set hu
      case inl hu => exact h.steady u hu
      case inr e  => exact e ▸ hs'
    cases hf : t.forks
    case none =>
      simp only [Goroutines.step, Pool.step, ht, Option.bind_some, hf]
      refine ⟨hsteady, hc, ?_⟩
      simp only [hf, Option.elim_none] at hn
      simp only [tokens] at hset hi ⊢
      omega
    case some u =>
      simp only [Goroutines.step, Pool.step, ht, Option.bind_some, hf, Pool.spawn]
      refine ⟨fun v hv => ?_, hc, ?_⟩
      case refine_1 =>
        cases List.mem_append.mp hv
        case inl hv => exact hsteady v hv
        case inr hv => exact List.mem_singleton.mp hv ▸ hs.forked hf
      case refine_2 =>
        simp only [hf, Option.elim_some] at hn
        simp only [tokens, List.map_append, List.sum_append, List.map_cons,
          List.map_nil, List.sum_cons, List.sum_nil] at hset hi ⊢
        omega

-- A goroutine that is to take its token out does not wait.
theorem not_waiting (h : g.Balanced c) (ht : g.threads[i]? = some t) (hr : t.receives = some c) :
    ¬t.Waiting g.shared i := by
  intro hw
  match t, hr with
  | .range _ p :: t, hr =>
    cases hr
    exact (h.steady _ (List.mem_of_getElem? ht) (.range c p) List.mem_cons_self).1 rfl
  | .act (.recv _) :: t, hr =>
    cases hr
    have hset := g.tokens_set (c := c) (u := []) ht
    have hi := h.items
    have hpos : 0 < (g.shared.chan c).items := by
      simp only [Code.tokens_cons, Prog.tokens, if_true] at hset
      simp only [Code.tokens, List.map_nil, List.sum_nil] at hset
      omega
    simp [Code.Waiting, Sync.act, hpos] at hw

end Balanced
end Goroutines

end
