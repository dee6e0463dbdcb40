import ShardListener.Extensions.Goroutine

-- Channels with one goroutine that closes them and one that ranges over them and then closes a
-- second channel, on which the first one waits at the end.

section

variable {L C : Type} {P Q : Act L C → Prop} {s : Sync L C} {t u : Code L C} {c d : C} {i k : Nat}

namespace Code

theorem All.cons {p : Prog L C} (hp : p.All P Q) (ht : t.All P Q) : Code.All P Q (p :: t) := by
  intro q hq
  cases hq
  case head      => exact hp
  case tail hq   => exact ht q hq

theorem All.nil : Code.All P Q [] :=
  fun _ hp => absurd hp List.not_mem_nil

theorem All.head {p : Prog L C} (h : Code.All P Q (p :: t)) : p.All P Q :=
  h p List.mem_cons_self

theorem All.tail {p : Prog L C} (h : Code.All P Q (p :: t)) : t.All P Q :=
  fun q hq => h q (List.mem_cons_of_mem _ hq)

theorem All.forked (h : t.All P Q) (hu : t.forks = some u) : u.All Q Q := by
  match t, hu with
  | .spawn p :: t, hu =>
    cases hu
    exact All.cons h.head .nil

-- The operation that the goroutine is at.
def headAct : Code L C → Option (Act L C)
  | .act a :: _      => some a
  | .range c _ :: _  => some (.recv c)
  | .sendOr c _ :: _ => some (.send c)
  | .recvOr c _ :: _ => some (.tryRecv c)
  | _                => none

theorem All.headAct {a : Act L C} (h : t.All P Q) (ha : t.headAct = some a) : P a := by
  match t, ha with
  | .act _ :: _,      ha => exact Option.some.inj ha ▸ h.head
  | .range _ _ :: _,  ha => exact Option.some.inj ha ▸ h.head.1
  | .sendOr _ _ :: _, ha => exact Option.some.inj ha ▸ h.head.1
  | .recvOr _ _ :: _, ha => exact Option.some.inj ha ▸ h.head.1

theorem headAct_append (h : t ≠ []) : Code.headAct (t ++ u) = t.headAct := by
  match t, h with
  | p :: t, _ => cases p <;> rfl

theorem headAct_of_sends (h : t.sends = some c) : t.headAct = some (.send c) := by
  match t, h with
  | .act (.send _) :: _, h => exact Option.some.inj h ▸ rfl
  | .sendOr _ _ :: _,    h => exact Option.some.inj h ▸ rfl

theorem headAct_of_receives (h : t.receives = some c) : t.headAct = some (.recv c) := by
  match t, h with
  | .act (.recv _) :: _, h => exact Option.some.inj h ▸ rfl
  | .range _ _ :: _,     h => exact Option.some.inj h ▸ rfl

-- The goroutine closes `c` once: before it does what `P` allows, and afterwards what `Q` allows.
inductive Closes (c : C) (P Q : Act L C → Prop) (s : Sync L C) : Code L C → Prop
  | before {t u : Code L C} (hc : (s.chan c).closed = false) (ht : t.Only P) (hu : u.Only Q) :
      Closes c P Q s (t ++ .act (.close c) :: u)
  | after {u : Code L C} (hc : (s.chan c).closed = true) (hu : u.Only Q) : Closes c P Q s u

-- The goroutine ranges over `c`, and closes `d` when `c` is closed and empty.
inductive Drains (c d : C) (P : Act L C → Prop) (p : Prog L C) (s : Sync L C) : Code L C → Prop
  | within {t : Code L C} (hd : (s.chan d).closed = false) (ht : t.Only P) :
      Drains c d P p s (t ++ [.range c p, .act (.close d)])
  | last (hd : (s.chan d).closed = false) (hc : (s.chan c).closed = true) :
    Drains c d P p s [.act (.close d)]
  | gone (hd : (s.chan d).closed = true) (hc : (s.chan c).closed = true) : Drains c d P p s []

theorem Closes.can_close (h : Closes c P Q s t) (hc : (s.chan c).closed = false) :
    ¬t.Only fun a => a ≠ .send c ∧ a ≠ .trySend c ∧ a ≠ .close c := by
  cases h
  case after hc' _ => exact absurd (hc.symm.trans hc') (by decide)
  case before      => exact fun hn => (hn (.act (.close c)) (by simp)).2.2 rfl

theorem Drains.can_receive {p : Prog L C} (h : Drains c d P p s t)
    (hc : (s.chan c).closed = false) : ¬t.Only fun a => a ≠ .recv c ∧ a ≠ .tryRecv c := by
  cases h
  case last hc' | gone hc' => exact absurd (hc.symm.trans hc') (by decide)
  case within             => exact fun hn => (hn (.range c p) (by simp)).1.1 rfl

theorem Drains.can_close {p : Prog L C} (h : Drains c d P p s t) (hd : (s.chan d).closed = false) :
    ¬t.Only fun a => a ≠ .send d ∧ a ≠ .trySend d ∧ a ≠ .close d := by
  cases h
  case gone hd' _    => exact absurd (hd.symm.trans hd') (by decide)
  case last | within => exact fun hn => (hn (.act (.close d)) (by simp)).2.2 rfl

theorem Closes.congr {s' : Sync L C} (h : Closes c P Q s t)
    (hc : (s'.chan c).closed = (s.chan c).closed) : Closes c P Q s' t := by
  cases h
  case before h ht hu => exact .before (hc.trans h) ht hu
  case after h hu     => exact .after (hc.trans h) hu

theorem Drains.congr {s' : Sync L C} {p : Prog L C} (h : Drains c d P p s t)
    (hd : (s'.chan d).closed = (s.chan d).closed) (hc : (s.chan c).closed → (s'.chan c).closed) :
    Drains c d P p s' t := by
  cases h
  case within h ht => exact .within (hd.trans h) ht
  case last h h'   => exact .last (hd.trans h) (hc h')
  case gone h h'   => exact .gone (hd.trans h) (hc h')

variable [DecidableEq L] [DecidableEq C]

theorem exists_headAct (h : t.Waiting s i) : ∃ a, t.headAct = some a := by
  match t, h with
  | .act a :: _, _      => exact ⟨a, rfl⟩
  | .range c _ :: _, _  => exact ⟨.recv c, rfl⟩
  | .sendOr c _ :: _, _ => exact ⟨.send c, rfl⟩

theorem Only.of_waiting (h : t.Only P) (hne : t ≠ []) (hw : Code.Waiting s i (t ++ u)) :
    ∃ a, Code.headAct (t ++ u) = some a ∧ P a := by
  have ⟨a, ha⟩ := exists_headAct hw
  exact ⟨a, ha, h.headAct (headAct_append hne ▸ ha)⟩

-- Before it closes the channel, the goroutine waits where `P` allows it.
theorem Closes.of_waiting (h : Closes c P Q s t) (hc : (s.chan c).closed = false)
    (hw : t.Waiting s i) : ∃ a, t.headAct = some a ∧ P a := by
  cases h
  case after hc' _ => exact absurd (hc.symm.trans hc') (by decide)
  case before t u _ ht _ =>
    by_cases hne : t = []
    case pos => subst hne; simp [Code.Waiting, Sync.act] at hw
    case neg => exact ht.of_waiting hne hw

-- The other one waits for the channel, or where `P` allows it.
theorem Drains.of_waiting {p : Prog L C} (h : Drains c d P p s t) (hw : t.Waiting s i) :
    (∃ a, t.headAct = some a ∧ P a) ∨ t.receives = some c ∧ (s.chan c).items = 0 ∧
      (s.chan c).closed = false := by
  cases h
  case gone => exact hw.elim
  case last => simp [Code.Waiting, Sync.act] at hw
  case within t _ ht =>
    by_cases hne : t = []
    case pos => subst hne; exact .inr ⟨rfl, hw⟩
    case neg => exact .inl (ht.of_waiting hne hw)

-- A goroutine does what its program says.
theorem All.next (h : t.All P Q) : (t.next k i s).1.All P Q := by
  match t with
  | [] => exact h
  | p :: t =>
    have hp := h.head
    have ht := h.tail
    cases p
    case act a =>
      cases ha : s.act i a
      case none => simpa [Code.next, ha] using h
      case some => simpa [Code.next, ha] using ht
    case seq  => exact .cons hp.1 (.cons hp.2 ht)
    case pick => exact .cons (hp k) ht
    case loop =>
      simp only [Code.next]
      split
      case isTrue  => exact ht
      case isFalse => exact .cons hp h
    case range =>
      simp only [Code.next]
      split
      case isTrue  => exact .cons hp.2 h
      case isFalse =>
        dsimp only
        split
        case isTrue  => exact ht
        case isFalse => exact h
    case sendOr | recvOr =>
      simp only [Code.next]
      split
      case isTrue  => exact ht
      case isFalse =>
        split
        case isTrue  => exact .cons hp.2 ht
        case isFalse => exact h
    case skip | spawn => exact ht

end Code

namespace Sync

variable {s' : Sync L C} {a : Act L C} {b : Option (Act L C)} {ch : Chan}

-- What an operation `b` can do to a channel, other than to its items.
def Keeps (c : C) (b : Option (Act L C)) (s s' : Sync L C) : Prop :=
  (s'.chan c).cap = (s.chan c).cap ∧
    ((s'.chan c).closed = (s.chan c).closed ∨ b = some (.close c) ∧ (s'.chan c).closed = true)

theorem Keeps.refl : Keeps c b s s :=
  ⟨rfl, .inl rfl⟩

variable [DecidableEq C]

theorem chan_setChan : (s.setChan d ch).chan c = if c = d then ch else s.chan c :=
  Function.update_apply ..

theorem closed_push :
    ((s.push d).chan c).cap = (s.chan c).cap ∧ ((s.push d).chan c).closed = (s.chan c).closed := by
  rw [push, chan_setChan]
  split
  case isTrue e  => simp [e]
  case isFalse   => exact ⟨rfl, rfl⟩

theorem closed_pop :
    ((s.pop d).chan c).cap = (s.chan c).cap ∧ ((s.pop d).chan c).closed = (s.chan c).closed := by
  rw [pop, chan_setChan]
  split
  case isTrue e  => simp [e]
  case isFalse   => exact ⟨rfl, rfl⟩

theorem Keeps.push : Keeps c b s (s.push d) :=
  ⟨closed_push.1, .inl closed_push.2⟩

theorem Keeps.pop : Keeps c b s (s.pop d) :=
  ⟨closed_pop.1, .inl closed_pop.2⟩

variable [DecidableEq L]

theorem keeps_act (h : s.act i a = some s') : Keeps c (some a) s s' := by
  cases a
  case lock   => exact (act_lock h).2 ▸ ⟨rfl, .inl rfl⟩
  case unlock => exact (act_unlock h).2 ▸ ⟨rfl, .inl rfl⟩
  case send =>
    simp only [act, Option.ite_none_right_eq_some, Option.some.injEq] at h
    exact h.2 ▸ .push
  case recv =>
    rcases act_recv h with ⟨_, e⟩ | ⟨_, _, e⟩
    case inl => exact e ▸ .pop
    case inr => exact e ▸ .refl
  case trySend =>
    simp only [act, Option.some.injEq] at h
    subst h
    split
    case isTrue  => exact .push
    case isFalse => exact .refl
  case tryRecv =>
    simp only [act, Option.some.injEq] at h
    subst h
    split
    case isTrue  => exact .pop
    case isFalse => exact .refl
  case close c' =>
    cases h
    by_cases e : c = c'
    case pos => subst e; simp [Keeps, shut, chan_setChan]
    case neg => simp [Keeps, shut, chan_setChan, e]
  case pause => exact Option.some.inj h ▸ .refl

end Sync

namespace Code

variable [DecidableEq L] [DecidableEq C]

theorem keeps_next : Sync.Keeps c t.headAct s (t.next k i s).2 := by
  match t with
  | [] => exact .refl
  | p :: t =>
    cases p
    case act a =>
      cases ha : s.act i a
      case none    => simpa [Code.next, ha] using .refl
      case some s' => simpa [Code.next, ha, headAct] using Sync.keeps_act ha
    case range =>
      simp only [Code.next]
      split
      case isTrue  => exact .pop
      case isFalse => exact .refl
    case sendOr =>
      simp only [Code.next]
      split
      case isTrue  => exact .refl
      case isFalse =>
        split
        case isTrue  => exact .push
        case isFalse => exact .refl
    case recvOr =>
      simp only [Code.next]
      split
      case isTrue  => exact .refl
      case isFalse =>
        split
        case isTrue  => exact .pop
        case isFalse => exact .refl
    case skip | spawn | seq | pick | loop => exact .refl

-- A goroutine that does not close a channel leaves it open.
theorem closed_next (h : t.All P Q) (hP : ¬P (.close c)) :
    ((t.next k i s).2.chan c).closed = (s.chan c).closed :=
  keeps_next.2.resolve_right fun e => hP (h.headAct e.1)

theorem closed_of_closed (h : (s.chan c).closed = true) :
    ((t.next k i s).2.chan c).closed = true := by
  have hk : Sync.Keeps c t.headAct s (t.next k i s).2 := keeps_next
  match hk.2 with
  | .inl e      => exact e.trans h
  | .inr ⟨_, e⟩ => exact e

-- A step does not look behind the first statement.
theorem next_append (h : t ≠ []) :
    Code.next k i (t ++ u) s = ((t.next k i s).1 ++ u, (t.next k i s).2) := by
  match t with
  | p :: t =>
    cases p
    case act a =>
      cases ha : s.act i a
      case none    => simp [Code.next, ha]
      case some s' => simp [Code.next, ha]
    case loop =>
      simp only [Code.next, List.cons_append]
      split <;> rfl
    case range =>
      simp only [Code.next, List.cons_append]
      split
      case isTrue  => rfl
      case isFalse => split <;> rfl
    case sendOr | recvOr =>
      simp only [Code.next, List.cons_append]
      split
      case isTrue  => rfl
      case isFalse => split <;> rfl
    case skip | spawn | seq | pick => rfl

theorem Closes.next (h : Closes c P Q s t) (hP : ¬P (.close c)) (hQ : ¬Q (.close c)) :
    Closes c P Q (t.next k i s).2 (t.next k i s).1 := by
  cases h
  case after hc hu => exact .after ((closed_next hu hQ).trans hc) hu.next
  case before t u hc ht hu =>
    by_cases hne : t = []
    case pos =>
      subst hne; exact .after (by simp [Code.next, Sync.act, Sync.shut, Sync.chan_setChan]) hu
    case neg =>
      rw [next_append hne]
      exact .before ((closed_next ht hP).trans hc) ht.next hu

theorem Drains.next {p : Prog L C} (h : Drains c d P p s t) (hp : p.All P P) (hP : ¬P (.close d)) :
    Drains c d P p (t.next k i s).2 (t.next k i s).1 := by
  cases h
  case gone hd hc => exact .gone hd hc
  case last hd hc =>
    exact .gone (by simp [Code.next, Sync.act, Sync.shut, Sync.chan_setChan]) (closed_of_closed hc)
  case within t hd ht =>
    by_cases hn : t = []
    case neg =>
      rw [next_append hn]
      exact .within ((closed_next ht hP).trans hd) ht.next
    case pos =>
      subst hn
      simp only [List.nil_append, Code.next]
      split
      case isTrue =>
        have hs : Code.Only P [p] := .cons hp .nil
        exact .within (Sync.closed_pop.2.trans hd) hs
      case isFalse =>
        dsimp only
        split
        case isTrue hc => exact .last hd hc
        case isFalse   => exact .within hd ht

end Code

end
