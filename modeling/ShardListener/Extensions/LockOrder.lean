import ShardListener.Extensions.Goroutine
import ShardListener.Extensions.Run

-- Goroutines that lock in the order of a rank, and do not wait for a channel while they hold a
-- lock.

section

variable {L C : Type} {rank : L → Nat}

-- `H` are the locks that are held before, the last one first, and `H'` those that are held after.
def Act.Obeys (rank : L → Nat) : Act L C → List L → List L → Prop
  | .lock l,    H, H' => (∀ h ∈ H, rank h < rank l) ∧ H' = l :: H
  | .unlock l,  H, H' => H = l :: H'
  | .send _,    H, H' => H = [] ∧ H' = []
  | .recv _,    H, H' => H = [] ∧ H' = []
  | .pause,     H, H' => H = [] ∧ H' = []
  | .trySend _, H, H' => H' = H
  | .tryRecv _, H, H' => H' = H
  | .close _,   H, H' => H' = H

namespace Prog

def Obeys (rank : L → Nat) : Prog L C → List L → List L → Prop
  | .skip,       H, H' => H' = H
  | .act a,      H, H' => a.Obeys rank H H'
  | .spawn p,    H, H' => H' = H ∧ p.Obeys rank [] []
  | .seq p q,    H, H' => ∃ M, p.Obeys rank H M ∧ q.Obeys rank M H'
  | .pick f,     H, H' => ∀ k, (f k).Obeys rank H H'
  | .loop p,     H, H' => H' = H ∧ p.Obeys rank H H
  | .range _ p,  H, H' => (H = [] ∧ H' = []) ∧ p.Obeys rank [] []
  | .sendOr _ p, H, H' => (H = [] ∧ H' = []) ∧ p.Obeys rank [] []
  | .recvOr _ p, H, H' => (H = [] ∧ H' = []) ∧ p.Obeys rank [] []

variable {p q : Prog L C} {H : List L} {l : L}

theorem Obeys.opt (h : p.Obeys rank H H) : p.opt.Obeys rank H H := by
  intro k
  dsimp only
  split
  case isTrue  => exact rfl
  case isFalse => exact h

theorem Obeys.either {H' : List L} (hp : p.Obeys rank H H') (hq : q.Obeys rank H H') :
    (p.either q).Obeys rank H H' := by
  intro k
  dsimp only
  split
  case isTrue  => exact hp
  case isFalse => exact hq

theorem Obeys.locked (hl : ∀ h ∈ H, rank h < rank l) (h : p.Obeys rank (l :: H) (l :: H)) :
    (p.locked l).Obeys rank H H :=
  ⟨l :: H, ⟨hl, rfl⟩, l :: H, h, rfl⟩

end Prog

def Code.Obeys (rank : L → Nat) : Code L C → List L → Prop
  | [],     H => H = []
  | p :: t, H => ∃ M, p.Obeys rank H M ∧ Code.Obeys rank t M

-- A goroutine that is at a channel operation or waits for something outside.
def Code.Blocks : Code L C → Bool
  | .act (.send _) :: _ | .act (.recv _) :: _ | .act .pause :: _ => true
  | .range _ _ :: _ | .sendOr _ _ :: _ | .recvOr _ _ :: _        => true
  | _                                                            => false

variable {s s' : Sync L C} {t : Code L C} {a : Act L C} {H M : List L} {i j k n : Nat} {l : L}
variable {c : C}

namespace Sync

-- The goroutine `i` holds the locks `H`, which it took in the order of their rank.
structure Holds (rank : L → Nat) (s : Sync L C) (i : Nat) (H : List L) : Prop where
  sorted : H.Pairwise fun x y => rank y < rank x
  owner  : ∀ l, s.owner l = some i ↔ l ∈ H

theorem Holds.congr (h : s.Holds rank i H) (ho : s'.owner = s.owner) : s'.Holds rank i H :=
  ⟨h.sorted, ho ▸ h.owner⟩

variable [DecidableEq L] [DecidableEq C]

theorem Holds.act (h : s.Holds rank i H) (ha : s.act i a = some s') (hb : a.Obeys rank H M) :
    s'.Holds rank i M := by
  cases a
  case lock l =>
    have ⟨hr, hm⟩ := hb
    subst hm
    obtain ⟨_, rfl⟩ := act_lock ha
    refine ⟨List.pairwise_cons.mpr ⟨hr, h.sorted⟩, fun l' => ?_⟩
    by_cases e : l' = l <;> simp [setOwner, h.owner, e]
  case unlock l =>
    simp only [Act.Obeys] at hb
    subst hb
    obtain ⟨_, rfl⟩ := act_unlock ha
    have ⟨hl, hs⟩ := List.pairwise_cons.mp h.sorted
    have hm : l ∉ M := fun hm => Nat.lt_irrefl _ (hl l hm)
    refine ⟨hs, fun l' => ?_⟩
    by_cases e : l' = l <;> simp [setOwner, h.owner, e, hm]
  case send | recv | pause =>
    obtain ⟨rfl, rfl⟩ := hb
    exact h.congr (owner_act ha nofun nofun)
  case trySend | tryRecv | close =>
    simp only [Act.Obeys] at hb
    exact hb ▸ h.congr (owner_act ha nofun nofun)

-- A goroutine takes free locks and gives its own back.
theorem owner_act_other (ha : s.act i a = some s') (hj : j ≠ i) :
    s'.owner l = some j ↔ s.owner l = some j := by
  cases a
  case lock l' =>
    obtain ⟨hn, rfl⟩ := act_lock ha
    by_cases e : l = l' <;> simp [setOwner, e, hn, Ne.symm hj]
  case unlock l' =>
    obtain ⟨hn, rfl⟩ := act_unlock ha
    by_cases e : l = l' <;> simp [setOwner, e, hn, Ne.symm hj]
  case send | recv | pause | trySend | tryRecv | close => rw [owner_act ha nofun nofun]

end Sync

namespace Code

-- A goroutine at some place of its program, with the locks that it holds there.
def Ordered (rank : L → Nat) (s : Sync L C) (i : Nat) (t : Code L C) : Prop :=
  ∃ H, t.Obeys rank H ∧ s.Holds rank i H

variable [DecidableEq L] [DecidableEq C]

theorem Ordered.next (h : t.Ordered rank s i) :
    (t.next k i s).1.Ordered rank (t.next k i s).2 i := by
  have ⟨H, ho, hh⟩ := h
  match t, ho with
  | [], ho => exact ⟨H, ho, hh⟩
  | p :: t, ⟨M, hp, ht⟩ =>
    cases p
    case skip => exact ⟨M, ht, hp ▸ hh⟩
    case act a =>
      cases ha : s.act i a
      case none    => simpa [Code.next, ha] using h
      case some s' => simpa [Code.next, ha] using ⟨M, ht, hh.act ha hp⟩
    case spawn => exact ⟨M, ht, hp.1 ▸ hh⟩
    case seq =>
      have ⟨N, h₁, h₂⟩ := hp
      exact ⟨H, ⟨N, h₁, M, h₂, ht⟩, hh⟩
    case pick => exact ⟨H, ⟨M, hp k, ht⟩, hh⟩
    case loop p =>
      have ⟨hm, hb⟩ := hp
      subst hm
      simp only [Code.next]
      split
      case isTrue  => exact ⟨M, ht, hh⟩
      case isFalse => exact ⟨M, ⟨M, hb, M, ⟨rfl, hb⟩, ht⟩, hh⟩
    case range c p =>
      obtain ⟨⟨rfl, rfl⟩, hb⟩ := hp
      simp only [Code.next]
      split
      case isTrue => exact ⟨[], ⟨[], hb, [], ⟨⟨rfl, rfl⟩, hb⟩, ht⟩, hh.congr rfl⟩
      case isFalse =>
        dsimp only
        split
        case isTrue  => exact ⟨[], ht, hh⟩
        case isFalse => exact h
    case sendOr c p | recvOr c p =>
      obtain ⟨⟨rfl, rfl⟩, hb⟩ := hp
      simp only [Code.next]
      split
      case isTrue => exact ⟨[], ht, hh⟩
      case isFalse =>
        split
        case isTrue  => exact ⟨[], ⟨[], hb, ht⟩, hh.congr rfl⟩
        case isFalse => exact h

-- What a step does to the locks of the others.
theorem owner_next (hj : j ≠ i) : (t.next k i s).2.owner l = some j ↔ s.owner l = some j := by
  match t with
  | [] => exact Iff.rfl
  | p :: t =>
    cases p
    case act a =>
      cases ha : s.act i a
      case none    => simp [Code.next, ha]
      case some s' => simpa [Code.next, ha] using Sync.owner_act_other ha hj
    case range c p =>
      simp only [Code.next]
      split <;> exact Iff.rfl
    case sendOr c p | recvOr c p =>
      simp only [Code.next]
      split
      case isTrue => exact Iff.rfl
      case isFalse => split <;> exact Iff.rfl
    case skip | spawn | seq | pick | loop => exact Iff.rfl

end Code

namespace Goroutines

variable {g : Goroutines L C} {l' : L} {m : Move} {R : Nat}

def Ordered (rank : L → Nat) (g : Goroutines L C) : Prop :=
  g.Annotated (fun n s => ∀ l j, s.owner l = some j → j < n) (fun s i t => t.Ordered rank s i)

namespace Ordered

theorem start (ho : ∀ l, g.shared.owner l = none) (ht : ∀ t ∈ g.threads, t.Obeys rank []) :
    g.Ordered rank := by
  refine ⟨fun l j hj => absurd ((ho l).symm.trans hj) (by simp), fun i t hi => ?_⟩
  exact ⟨[], ht t (List.mem_of_getElem? hi), .nil, fun l => by simp [ho]⟩

-- A lock is taken above those that are held.
theorem lock_lt (h : g.Ordered rank) (ht : g.threads[i]? = some (.act (.lock l) :: t))
    (ho : g.shared.owner l' = some i) : rank l' < rank l := by
  have ⟨H, ⟨M, hp, _⟩, hh⟩ := h.threads i _ ht
  exact hp.1 l' ((hh.owner l').mp ho)

theorem owner_ne_of_blocks (h : g.Ordered rank) (ht : g.threads[i]? = some t) (hb : t.Blocks) :
    g.shared.owner l ≠ some i := by
  have ⟨H, ho, hh⟩ := h.threads i t ht
  have hn : H = [] := by
    match t, ho with
    | .act (.send _) :: _,  ⟨_, hp, _⟩ => exact hp.1
    | .act (.recv _) :: _,  ⟨_, hp, _⟩ => exact hp.1
    | .act .pause :: _,     ⟨_, hp, _⟩ => exact hp.1
    | .range _ _ :: _,      ⟨_, hp, _⟩ => exact hp.1.1
    | .sendOr _ _ :: _,     ⟨_, hp, _⟩ => exact hp.1.1
    | .recvOr _ _ :: _,     ⟨_, hp, _⟩ => exact hp.1.1
  intro hl
  exact absurd ((hh.owner l).mp hl) (by simp [hn])

variable [DecidableEq L] [DecidableEq C]

theorem next (h : g.Ordered rank) : Ordered rank (Pool.step (Code.next k) g i) := by
  refine Pool.Annotated.step h (fun t s hi hs ht => ⟨fun l j hj => ?_, ht.next⟩)
    fun t s j u hs ht hu hj => ?_
  case refine_1 =>
    by_cases e : j = i
    case pos => exact e ▸ hi
    case neg => exact hs l j ((Code.owner_next e).mp hj)
  case refine_2 =>
    have ⟨H, ho, hh⟩ := hu
    exact ⟨H, ho, hh.sorted, fun l => (Code.owner_next hj).trans (hh.owner l)⟩

theorem step (h : g.Ordered rank) : (g.step m).Ordered rank := by
  simp only [Goroutines.step]
  split
  case h_2 => exact h.next
  case h_1 u hu =>
    have ⟨t, ht, hf⟩ := Option.bind_eq_some_iff.mp hu
    match t, hf with
    | .spawn p :: t, hf =>
      cases hf
      have ⟨H, ⟨M, hp, _⟩, _⟩ := h.threads m.i _ ht
      have hn : Ordered rank (Pool.step (Code.next m.k) g m.i) := h.next
      refine Pool.Annotated.spawn hn (fun l j hj => Nat.lt_succ_of_lt (hn.shared l j hj)) ?_
      refine ⟨[], ⟨[], hp.2, rfl⟩, .nil, fun l => ⟨fun hl => ?_, nofun⟩⟩
      exact absurd (hn.shared l _ hl) (Nat.lt_irrefl _)

-- A goroutine that has to wait is at a lock that another one holds, or at a channel.
theorem lock_of_waiting (h : g.Ordered rank) (ht : g.threads[i]? = some t)
    (hw : t.Waiting g.shared i) (hb : t.Blocks = false) :
    ∃ l j u, t = .act (.lock l) :: u ∧ g.shared.owner l = some j := by
  obtain ⟨H, ho, hh⟩ := h.threads i t ht
  match t, ho, hw with
  | .act (.lock l) :: u, _, hw =>
    simp only [Code.Waiting, Sync.act, ite_eq_right_iff, reduceCtorEq, imp_false] at hw
    obtain ⟨j, hj⟩ := Option.ne_none_iff_exists'.mp hw
    exact ⟨l, j, u, rfl, hj⟩
  | .act (.unlock l) :: u, ⟨M, hp, _⟩, hw =>
    have hl : g.shared.owner l = some i := (hh.owner l).mpr (hp ▸ List.mem_cons_self)
    simp [Code.Waiting, Sync.act, hl] at hw
  | .act (.trySend c) :: u, _, hw => simp [Code.Waiting, Sync.act] at hw
  | .act (.tryRecv c) :: u, _, hw => simp [Code.Waiting, Sync.act] at hw
  | .act (.close c) :: u, _, hw   => simp [Code.Waiting, Sync.act] at hw
  | .act (.send c) :: u, _, _     => cases hb
  | .act (.recv c) :: u, _, _     => cases hb
  | .act .pause :: u, _, _        => cases hb
  | .range c p :: u, _, _         => cases hb
  | .sendOr c p :: u, _, _        => cases hb

-- Who waits for a lock waits for a goroutine that can go on, or that waits for a lock of a higher
-- rank.
theorem lock_released (h : g.Ordered rank) (hR : ∀ l, rank l ≤ R)
    (ht : g.threads[i]? = some (.act (.lock l) :: t)) (hw : g.Waiting i) : g.Released i := by
  induction hn : R - rank l using Nat.strong_induction_on generalizing i l t
  case h n hi =>
    have ⟨_, ht', hw'⟩ := hw
    obtain rfl := Option.some.inj (ht.symm.trans ht')
    have ⟨_, j, _, hl, hj⟩ := h.lock_of_waiting ht hw' rfl
    cases hl
    refine .of_waitsFor (.lock ht hj) fun hwj => ?_
    have ⟨u, hu, huw⟩ := hwj
    have hb : u.Blocks = false := by
      by_contra hb
      exact h.owner_ne_of_blocks hu (by simpa using hb) hj
    have ⟨l', _, u', he, _⟩ := h.lock_of_waiting hu huw hb
    have hlt := h.lock_lt (he ▸ hu) hj
    exact hi _ (by have := hR l'; omega) (he ▸ hu) hwj rfl

-- Who does not wait for a lock waits for a channel.
theorem released_or (h : g.Ordered rank) (hR : ∀ l, rank l ≤ R) (ht : g.threads[i]? = some t)
    (hw : t.Waiting g.shared i) :
    g.Released i ∨ (∃ c, t.sends = some c ∧ (g.shared.chan c).room = false) ∨
      ∃ c, t.receives = some c ∧ (g.shared.chan c).items = 0 ∧
        (g.shared.chan c).closed = false := by
  cases hb : t.Blocks
  case false =>
    have ⟨l, j, u, he, _⟩ := h.lock_of_waiting ht hw hb
    exact .inl (h.lock_released hR (he ▸ ht) ⟨t, ht, hw⟩)
  case true =>
    match t, hb, hw with
    | .act (.send c) :: t, _, hw =>
      exact .inr (.inl ⟨c, rfl, by simpa [Code.Waiting, Sync.act] using hw⟩)
    | .act (.recv c) :: t, _, hw => exact .inr (.inr ⟨c, rfl, Sync.act_recv_none hw⟩)
    | .range c p :: t, _, hw     => exact .inr (.inr ⟨c, rfl, hw⟩)
    | .sendOr c p :: t, _, hw    => exact .inr (.inl ⟨c, rfl, hw⟩)

end Ordered
end Goroutines

end
