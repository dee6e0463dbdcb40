import ShardListener.Extensions.Threads

-- Goroutines that share mutexes, named by `L`, and channels, named by `C`. Of a program only what
-- it does with them is kept: where it decides by its data, every way to go on is possible.

inductive Act (L C : Type)
  | lock (l : L)
  | unlock (l : L)
  | send (c : C)
  | recv (c : C)
  | trySend (c : C)
  | tryRecv (c : C)
  | close (c : C)
  -- Waits for something outside: a socket, a timer.
  | pause

inductive Prog (L C : Type)
  | skip
  | act (a : Act L C)
  | spawn (p : Prog L C)
  | seq (p q : Prog L C)
  | pick (f : Nat → Prog L C)
  | loop (p : Prog L C)
  | range (c : C) (p : Prog L C)
  -- A `select` with a channel operation and the end of the context.
  | sendOr (c : C) (p : Prog L C)
  | recvOr (c : C) (p : Prog L C)

structure Chan where
  cap    : Nat
  items  : Nat := 0
  closed : Bool := false

def Chan.room (c : Chan) : Bool :=
  !c.closed && c.items < c.cap

structure Sync (L C : Type) where
  owner : L → Option Nat := fun _ => none
  chan  : C → Chan

-- What a goroutine still has to do.
abbrev Code (L C : Type) := List (Prog L C)

abbrev Goroutines (L C : Type) := Pool (Code L C) (Sync L C)

namespace Prog

variable {L C : Type}

def opt (p : Prog L C) : Prog L C :=
  .pick fun k => if k = 0 then .skip else p

def either (p q : Prog L C) : Prog L C :=
  .pick fun k => if k = 0 then p else q

def locked (l : L) (p : Prog L C) : Prog L C :=
  .seq (.act (.lock l)) (.seq p (.act (.unlock l)))

-- `P` holds of everything that the program can do, and `Q` of what the goroutines do that it
-- starts.
def All (P Q : Act L C → Prop) : Prog L C → Prop
  | .skip       => True
  | .act a      => P a
  | .spawn p    => p.All Q Q
  | .seq p q    => p.All P Q ∧ q.All P Q
  | .pick f     => ∀ k, (f k).All P Q
  | .loop p     => p.All P Q
  | .range c p  => P (.recv c) ∧ p.All P Q
  | .sendOr c p => P (.send c) ∧ p.All P Q
  | .recvOr c p => P (.tryRecv c) ∧ p.All P Q

section

variable {P P' Q Q' : Act L C → Prop} {p q : Prog L C}

theorem All.opt (h : p.All P Q) : p.opt.All P Q := by
  intro k
  dsimp only
  split
  case isTrue  => trivial
  case isFalse => exact h

theorem All.either (hp : p.All P Q) (hq : q.All P Q) : (p.either q).All P Q := by
  intro k
  dsimp only
  split
  case isTrue  => exact hp
  case isFalse => exact hq

theorem All.mono (hP : ∀ a, P a → P' a) (hQ : ∀ a, Q a → Q' a) : p.All P Q → p.All P' Q' := by
  induction p generalizing P P'
  case skip => exact id
  case act a => exact hP a
  case spawn hp => exact hp hQ
  case seq hp hq => exact fun ⟨h₁, h₂⟩ => ⟨hp hP h₁, hq hP h₂⟩
  case pick hf => exact fun hk k => hf k hP (hk k)
  case loop hp => exact hp hP
  case range hp => exact fun ⟨h₁, h₂⟩ => ⟨hP _ h₁, hp hP h₂⟩
  case sendOr hp => exact fun ⟨h₁, h₂⟩ => ⟨hP _ h₁, hp hP h₂⟩
  case recvOr hp => exact fun ⟨h₁, h₂⟩ => ⟨hP _ h₁, hp hP h₂⟩

end

end Prog

namespace Sync

variable {L C : Type} [DecidableEq L] [DecidableEq C]

def setOwner (s : Sync L C) (l : L) (o : Option Nat) : Sync L C :=
  { s with owner := Function.update s.owner l o }

def setChan (s : Sync L C) (c : C) (ch : Chan) : Sync L C :=
  { s with chan := Function.update s.chan c ch }

def push (s : Sync L C) (c : C) : Sync L C :=
  s.setChan c { s.chan c with items := (s.chan c).items + 1 }

def pop (s : Sync L C) (c : C) : Sync L C :=
  s.setChan c { s.chan c with items := (s.chan c).items - 1 }

def shut (s : Sync L C) (c : C) : Sync L C :=
  s.setChan c { s.chan c with closed := true }

-- The goroutine `i` does `a`, or has to wait.
def act (s : Sync L C) (i : Nat) : Act L C → Option (Sync L C)
  | .lock l    => if s.owner l = none then some (s.setOwner l (some i)) else none
  | .unlock l  => if s.owner l = some i then some (s.setOwner l none) else none
  | .send c    => if (s.chan c).room then some (s.push c) else none
  | .recv c    =>
    if 0 < (s.chan c).items then some (s.pop c) else if (s.chan c).closed then some s else none
  | .trySend c => some (if (s.chan c).room then s.push c else s)
  | .tryRecv c => some (if 0 < (s.chan c).items then s.pop c else s)
  | .close c   => some (s.shut c)
  | .pause     => some s

variable {s s' : Sync L C} {i : Nat} {a : Act L C} {l : L} {c : C}

theorem act_lock (h : s.act i (.lock l) = some s') :
    s.owner l = none ∧ s' = s.setOwner l (some i) := by
  simp only [act, Option.ite_none_right_eq_some, Option.some.injEq] at h
  exact ⟨h.1, h.2.symm⟩

theorem act_unlock (h : s.act i (.unlock l) = some s') :
    s.owner l = some i ∧ s' = s.setOwner l none := by
  simp only [act, Option.ite_none_right_eq_some, Option.some.injEq] at h
  exact ⟨h.1, h.2.symm⟩

theorem act_recv (h : s.act i (.recv c) = some s') :
    0 < (s.chan c).items ∧ s' = s.pop c ∨ (s.chan c).items = 0 ∧ (s.chan c).closed ∧ s' = s := by
  simp only [act] at h
  split at h
  case isTrue hi  => exact .inl ⟨hi, (Option.some.inj h).symm⟩
  case isFalse hi =>
    simp only [Option.ite_none_right_eq_some, Option.some.injEq] at h
    exact .inr ⟨by omega, h.1, h.2.symm⟩

theorem act_recv_none (h : s.act i (.recv c) = none) :
    (s.chan c).items = 0 ∧ (s.chan c).closed = false := by
  simp only [act] at h
  split at h
  case isTrue     => cases h
  case isFalse hi =>
    split at h
    case isTrue     => cases h
    case isFalse hc => exact ⟨by omega, Bool.not_eq_true _ ▸ hc⟩

theorem owner_act (h : s.act i a = some s') (hl : ∀ l, a ≠ .lock l) (hu : ∀ l, a ≠ .unlock l) :
    s'.owner = s.owner := by
  cases a
  case lock l   => exact absurd rfl (hl l)
  case unlock l => exact absurd rfl (hu l)
  case send =>
    simp only [act, Option.ite_none_right_eq_some, Option.some.injEq] at h
    exact h.2 ▸ rfl
  case recv =>
    match act_recv h with
    | .inl ⟨_, e⟩    => exact e ▸ rfl
    | .inr ⟨_, _, e⟩ => exact e ▸ rfl
  case trySend | tryRecv =>
    simp only [act, Option.some.injEq] at h
    subst h
    split <;> rfl
  case close | pause => exact Option.some.inj h ▸ rfl

end Sync

namespace Code

variable {L C : Type} [DecidableEq L] [DecidableEq C]

-- A step of the goroutine `i`; `k` decides what the program leaves open.
def next (k i : Nat) : Code L C → Sync L C → Code L C × Sync L C
  | [],               s => ([], s)
  | .skip :: t,       s => (t, s)
  | .act a :: t,      s => ((s.act i a).elim (.act a :: t) fun _ => t, (s.act i a).getD s)
  | .spawn _ :: t,    s => (t, s)
  | .seq p q :: t,    s => (p :: q :: t, s)
  | .pick f :: t,     s => (f k :: t, s)
  | .loop p :: t,     s => (if k = 0 then t else p :: .loop p :: t, s)
  | .range c p :: t,  s =>
    if 0 < (s.chan c).items then
      (p :: .range c p :: t, s.pop c)
    else
      (if (s.chan c).closed then t else .range c p :: t, s)
  | .sendOr c p :: t, s =>
    if k = 0 then
      (t, s)
    else if (s.chan c).room then
      (p :: t, s.push c)
    else
      (.sendOr c p :: t, s)
  | .recvOr c p :: t, s =>
    if k = 0 then
      (t, s)
    else if 0 < (s.chan c).items then
      (p :: t, s.pop c)
    else
      (.recvOr c p :: t, s)

-- The goroutine that a step starts.
def forks : Code L C → Option (Code L C)
  | .spawn p :: _ => some [p]
  | _             => none

-- The goroutine `i` cannot go on. A `select` that sends does not count on the end of the context;
-- one that receives is how a goroutine waits for work.
def Waiting (s : Sync L C) (i : Nat) : Code L C → Prop
  | .act a :: _      => s.act i a = none
  | .range c _ :: _  => (s.chan c).items = 0 ∧ (s.chan c).closed = false
  | .sendOr c _ :: _ => (s.chan c).room = false
  | _                => False

-- The channel that the goroutine is to send to, or to receive from.
def sends : Code L C → Option C
  | .act (.send c) :: _ | .sendOr c _ :: _ => some c
  | _                                      => none

def receives : Code L C → Option C
  | .act (.recv c) :: _ | .range c _ :: _ => some c
  | _                                     => none

def All (P Q : Act L C → Prop) (t : Code L C) : Prop :=
  ∀ p ∈ t, p.All P Q

-- Everything that is still to be done, by the goroutine or by those that it starts.
def Only (P : Act L C → Prop) (t : Code L C) : Prop :=
  t.All P P

end Code

namespace Goroutines

variable {L C : Type} [DecidableEq L] [DecidableEq C]

-- The goroutine `i` makes a step.
structure Move where
  i : Nat
  k : Nat

def step (g : Goroutines L C) (m : Move) : Goroutines L C :=
  match (g.threads[m.i]?).bind Code.forks with
  | some t => Pool.spawn (Pool.step (Code.next m.k) g m.i) t
  | none   => Pool.step (Code.next m.k) g m.i

def Waiting (g : Goroutines L C) (i : Nat) : Prop :=
  ∃ t, g.threads[i]? = some t ∧ t.Waiting g.shared i

-- `i` waits, and `j` could end it: it holds the lock, or can still do the other half of the channel
-- operation.
inductive WaitsFor (g : Goroutines L C) (i j : Nat) : Prop
  | lock {l : L} {t : Code L C} (ht : g.threads[i]? = some (.act (.lock l) :: t))
    (ho : g.shared.owner l = some j)
  | send {c : C} {t u : Code L C} (ht : g.threads[i]? = some t)
    (hs : t.sends = some c) (hw : g.Waiting i)
      (hu : g.threads[j]? = some u) (hc : ¬u.Only fun a => a ≠ .recv c ∧ a ≠ .tryRecv c)
  | recv {c : C} {t u : Code L C} (ht : g.threads[i]? = some t)
    (hr : t.receives = some c) (hw : g.Waiting i)
      (hu : g.threads[j]? = some u) (hc : ¬u.Only fun a => a ≠ .send c ∧
        a ≠ .trySend c ∧ a ≠ .close c)

-- Goroutines that wait for nobody else: each waits, and whatever could end it is in the set.
structure Deadlocked (g : Goroutines L C) (S : Set Nat) : Prop where
  nonempty : S.Nonempty
  waiting  : ∀ i ∈ S, g.Waiting i
  closed   : ∀ i ∈ S, ∀ j, g.WaitsFor i j → j ∈ S

-- Along the goroutines that `i` waits for there is one that can go on.
def Released (g : Goroutines L C) (i : Nat) : Prop :=
  ∃ j, Relation.TransGen g.WaitsFor i j ∧ ¬g.Waiting j

theorem Released.of_waitsFor {g : Goroutines L C} {i j : Nat} (h : g.WaitsFor i j)
    (hj : g.Waiting j → g.Released j) : g.Released i := by
  by_cases hw : g.Waiting j
  case neg => exact ⟨j, .single h, hw⟩
  case pos =>
    have ⟨k, hk, hn⟩ := hj hw
    exact ⟨k, .head h hk, hn⟩

theorem not_deadlocked {g : Goroutines L C} {S : Set Nat} (h : ∀ i, g.Waiting i → g.Released i) :
    ¬g.Deadlocked S := by
  intro hd
  have ⟨i, hi⟩ := hd.nonempty
  have ⟨j, hj, hn⟩ := h i (hd.waiting i hi)
  have hs : j ∈ S := by
    clear hn
    induction hj
    case single hw      => exact hd.closed i hi _ hw
    case tail hw hs     => exact hd.closed _ hs _ hw
  exact hn (hd.waiting j hs)

end Goroutines
