import ShardListener.Extensions.Ledger
import ShardListener.Worker.RetryTee

namespace RetryTee

variable {s : Shared} {g : Goroutine} {conn : Conn} {depth i : Nat} {c u : Call}

def Action.runs (g : Goroutine) : Action → Bool
  | .run g' _ => g' = g
  | _         => false

theorem Action.runs_iff {a : Action} : a.runs g ↔ ∃ conn, a = .run g conn := by
  cases a
  case run g' conn => simp [runs]
  case call | step => simp [runs]

def Runner.Active (r : Runner) : Prop :=
  r ≠ .off ∧ r ≠ .finished

namespace Shared

@[simp]
theorem runner_setRunner {r : Runner} : (s.setRunner g r).runner g = r :=
  Function.update_self ..

theorem runner_setRunner_of_ne {g' : Goroutine} {r : Runner} (h : g' ≠ g) :
    (s.setRunner g r).runner g' = s.runner g' :=
  Function.update_of_ne h ..

-- How far the tee has come: a started tee has its sender, `run` of a `close` is on a tee that was
-- not started and has a closed queue, `done` is closed by the only execution of `run`, at its end,
-- and the socket after that.
structure Phased (s : Shared) : Prop where
  panicked : s.panicked = false
  closed   : s.qClosed → s.closed
  sender   : s.started = false → s.runner .sender = .off
  closer   : s.runner .closer ≠ .off → s.started = false ∧ s.qClosed
  done     : s.done → s.q = [] ∧ s.qClosed ∧ ∃ g, s.runner g = .finished ∧
    ∀ g' ≠ g, s.runner g' = .off
  finished : ∀ g, s.runner g = .finished → s.done
  socket   : s.connClosed → s.done

def taken (s : Shared) : List Nat :=
  (s.runner .sender).taken ++ (s.runner .closer).taken

-- The books of the tee: `close` and `start` do not show in them.
def ledger (s : Shared) : Ledger Nat where
  waiting := s.q
  taken   := s.taken
  queued  := s.queued
  written := s.written
  failed  := s.failed
  refused := s.refused

-- `run` begins with nothing taken.
theorem ledger_begin (h : s.runner g = .off) : (s.setRunner g .receiving).ledger = s.ledger := by
  have ht : (s.setRunner g .receiving).taken = s.taken := by
    cases g <;> simp [taken, setRunner, h, Runner.taken]
  simp only [ledger, ht]
  rfl

-- The counters agree with the books.
structure Counted (counting : Bool) (s : Shared) : Prop where
  dropped  : s.dropped = s.refused.length
  recorder : s.recorder = if counting then some ⟨s.written.length, s.failed.length,
    s.refused.length⟩ else none

-- What a step of `run` can do to the tee.
inductive Runs (s : Shared) (g : Goroutine) : Shared → Prop
  | wait : Runs s g s
  | move {r : Runner} (h : (s.runner g).Active) (hr : r.Active)
    (ht : r.taken = (s.runner g).taken) :
      Runs s g (s.setRunner g r)
  | take {m : Nat} {q : List Nat} {r : Runner} (h : (s.runner g).Active) (hr : r.Active)
    (hq : s.q = m :: q)
      (ht : r.taken = (s.runner g).taken ++ [m]) : Runs s g ({ s with q := q }.setRunner g r)
  | finish (h : s.runner g = .receiving) (hq : s.q = []) (hc : s.qClosed) :
      Runs s g (s.closeDone.setRunner g .finished)
  | giveUp {m : Nat} {rest : List Nat} (h : s.runner g = .writing (m :: rest)) :
      Runs s g ((s.writeFailed m).setRunner g (.writing rest))
  | write {batch : List Nat} {n : Nat} (h : s.runner g = .writing batch) (hn : 0 < n)
    (hle : n ≤ batch.length) :
      Runs s g ((s.wrote batch n).setRunner g (.writing (batch.drop n)))

theorem writeBatch_runs {rest : List Nat} (h : s.runner g = .writing rest) :
    s.Runs g (s.writeBatch g conn rest) := by
  cases rest
  case nil => exact .move (h ▸ ⟨nofun, nofun⟩) ⟨nofun, nofun⟩ (by rw [h]; rfl)
  case cons m rest =>
    have hle := (conn (rest.length + 1)).le
    simp only [writeBatch, Bool.or_eq_true, decide_eq_true_eq]
    split
    case isTrue     => exact .giveUp h
    case isFalse hn => exact .write h (by omega) (by simp only [List.length_cons]; omega)

theorem writeBatch_shrinks (s : Shared) (g : Goroutine) (conn : Conn) (m : Nat) (rest : List Nat) :
    ∃ rest', (s.writeBatch g conn (m :: rest)).runner g = .writing rest' ∧
      rest'.length ≤ rest.length := by
  simp only [writeBatch, Bool.or_eq_true, decide_eq_true_eq]
  split
  case isTrue     => exact ⟨rest, runner_setRunner, le_rfl⟩
  case isFalse hn =>
    refine ⟨_, runner_setRunner, ?_⟩
    simp only [List.length_drop, List.length_cons]
    omega

theorem run_runs : s.Runs g (s.run g conn) := by
  simp only [run]
  split
  case h_1 => exact .wait
  case h_2 => exact .wait
  case h_3 hr =>
    split
    case h_1 hq => exact .take (hr ▸ ⟨nofun, nofun⟩) ⟨nofun, nofun⟩ hq (by rw [hr]; rfl)
    case h_2 hq =>
      split
      case isTrue hc => exact .finish hr hq hc
      case isFalse   => exact .wait
  case h_4 batch hr =>
    have hw : s.Runs g (s.setRunner g (.writing batch)) :=
      .move (hr ▸ ⟨nofun, nofun⟩) ⟨nofun, nofun⟩ (by rw [hr]; rfl)
    split
    case h_1 hq =>
      split
      case isTrue  => exact .take (hr ▸ ⟨nofun, nofun⟩) ⟨nofun, nofun⟩ hq (by rw [hr]; rfl)
      case isFalse => exact hw
    case h_2 => exact hw
  case h_5 hr => exact writeBatch_runs hr

end Shared

namespace Call

def holds : Call → Bool
  | .mirror .check | .mirror .send | .mirror (.unlock _)        => true
  | .close .check | .close (.closeQueue _) | .close (.unlock _) => true
  | .start .check | .start .unlock                              => true
  | _                                                           => false

-- The number of datagrams that the call has handed over, to the queue or to the count of the
-- dropped ones.
def owed : Call → Nat
  | .mirror (.unlock true) | .mirror .returned => 1
  | _                                          => 0

theorem owed_le_one : c.owed ≤ 1 := by
  simp only [owed]
  split <;> decide

def isMirror : Call → Bool
  | .mirror _ => true
  | _         => false

-- What a call knows of the tee at a place of its body.
def Knows (s : Shared) : Call → Prop
  | .mirror .send                                => s.closed = false
  | .close (.closeQueue started)                 =>
    s.closed ∧ s.qClosed = false ∧ s.started = started ∧ s.runner .closer = .off
  | .close (.unlock (some started))              =>
    s.qClosed ∧ s.started = started ∧ s.runner .closer = .off
  | .close .closeConn | .close (.returned true)  => s.done
  | _                                            => True

-- What is known without the lock lasts. What is known under the lock is about these fields.
theorem Knows.mono {s' : Shared} (h : u.Knows s) (hd : s.done → s'.done)
    (hs : u.holds → s'.closed = s.closed ∧ s'.qClosed = s.qClosed ∧ s'.started = s.started ∧
      (s.runner .closer = .off → s'.runner .closer = .off)) : u.Knows s' := by
  cases u
  case mirror p =>
    cases p
    case send => exact (hs rfl).1.trans h
    case lock | check | unlock | drop | returned => trivial
  case close p =>
    cases p
    case closeQueue started =>
      have ⟨hc, hq, hst, hr⟩ := hs rfl
      exact ⟨hc.trans h.1, hq.trans h.2.1, hst.trans h.2.2.1, hr h.2.2.2⟩
    case unlock first =>
      cases first
      case none => trivial
      case some started =>
        have ⟨_, hq, hst, hr⟩ := hs rfl
        exact ⟨hq.trans h.1, hst.trans h.2.1, hr h.2.2⟩
    case closeConn => exact hd h
    case returned first =>
      cases first
      case false => trivial
      case true  => exact hd h
    case lock | check | await | drain => trivial
  case start p => trivial

-- What a step of a call can do to the tee.
inductive Effect (i : Nat) (s : Shared) : Call → Call → Shared → Prop
  | skip {c c' : Call} (hh : c'.holds = c.holds) (ho : c'.owed = c.owed)
      (hk : s.Phased → c.Knows s → c'.Knows s) : Effect i s c c' s
  | lock {c c' : Call} (hm : s.mu = none) (hh : c.holds = false) (hh' : c'.holds)
    (ho : c'.owed = c.owed)
      (hk : ∀ s', c'.Knows s') : Effect i s c c' { s with mu := some i }
  | unlock {c c' : Call} (hh : c.holds) (hh' : c'.holds = false) (ho : c'.owed = c.owed)
      (hk : ∀ s', c'.Knows s') : Effect i s c c' { s with mu := none }
  | panic (hq : s.qClosed) : Effect i s (.mirror .send) (.mirror .send) { s with panicked := true }
  | enqueue : Effect i s (.mirror .send) (.mirror (.unlock true)) (s.enqueue i)
  | drop : Effect i s (.mirror .drop) (.mirror .returned) (s.drop i)
  | refuse (hc : s.closed = false) :
      Effect i s (.close .check) (.close (.closeQueue s.started)) { s with closed := true }
  | closeQueue {started : Bool} :
      Effect i s (.close (.closeQueue started)) (.close (.unlock (some started))) s.closeQueue
  | drain : Effect i s (.close (.unlock (some false))) (.close .drain)
      ({ s with mu := none }.setRunner .closer .receiving)
  | closeConn :
    Effect i s (.close .closeConn) (.close (.returned true)) { s with connClosed := true }
  | launch (hs : s.started = false) (hc : s.closed = false) :
      Effect i s (.start .check) (.start .unlock)
        ({ s with started := true }.setRunner .sender .receiving)

theorem lock_effect {c' : Call} (hh : c.holds = false) (hh' : c'.holds) (ho : c'.owed = c.owed)
    (hk : ∀ s', c'.Knows s') : Effect i s c (lock i c c' s).1 (lock i c c' s).2 := by
  simp only [lock]
  split
  case isTrue hm => exact .lock hm hh hh' ho hk
  case isFalse   => exact .skip rfl rfl fun _ hk => hk

theorem mirrorNext_effect {p : MirrorPoint} :
    Effect i s (.mirror p) (mirrorNext depth i p s).1 (mirrorNext depth i p s).2 := by
  cases p
  case lock => exact lock_effect rfl rfl rfl fun _ => trivial
  case check =>
    cases hc : s.closed
    case false => simpa [mirrorNext, hc] using .skip rfl rfl fun _ _ => hc
    case true  => simpa [mirrorNext, hc] using .skip rfl rfl fun _ _ => trivial
  case send =>
    simp only [mirrorNext]
    split
    case isTrue hq => exact .panic hq
    case isFalse =>
      split
      case isTrue  => exact .enqueue
      case isFalse => exact .skip rfl rfl fun _ _ => trivial
  case unlock queued =>
    cases queued
    case false => exact .unlock rfl rfl rfl fun _ => trivial
    case true  => exact .unlock rfl rfl rfl fun _ => trivial
  case drop     => exact .drop
  case returned => exact .skip rfl rfl fun _ hk => hk

theorem closeNext_effect {p : ClosePoint} :
    Effect i s (.close p) (closeNext i p s).1 (closeNext i p s).2 := by
  cases p
  case lock => exact lock_effect rfl rfl rfl fun _ => trivial
  case check =>
    simp only [closeNext]
    split
    case isTrue     => exact .skip rfl rfl fun _ _ => trivial
    case isFalse hc => exact .refuse (by simpa using hc)
  case closeQueue => exact .closeQueue
  case unlock first => match first with
    | none       => exact .unlock rfl rfl rfl fun _ => trivial
    | some true  => exact .unlock rfl rfl rfl fun _ => trivial
    | some false => exact .drain
  case await =>
    cases hd : s.done
    case false => simpa [closeNext, hd] using .skip rfl rfl fun _ hk => hk
    case true  => simpa [closeNext, hd] using .skip rfl rfl fun _ _ => hd
  case drain =>
    simp only [closeNext]
    split
    case isTrue hf => exact .skip rfl rfl fun h _ => h.finished _ hf
    case isFalse   => exact .skip rfl rfl fun _ hk => hk
  case closeConn => exact .closeConn
  case returned  => exact .skip rfl rfl fun _ hk => hk

theorem startNext_effect {p : StartPoint} :
    Effect i s (.start p) (startNext i p s).1 (startNext i p s).2 := by
  cases p
  case lock => exact lock_effect rfl rfl rfl fun _ => trivial
  case check =>
    simp only [startNext]
    split
    case isTrue     => exact .skip rfl rfl fun _ _ => trivial
    case isFalse hn =>
      simp only [Bool.or_eq_true, not_or, Bool.not_eq_true] at hn
      exact .launch hn.1 hn.2
  case unlock   => exact .unlock rfl rfl rfl fun _ => trivial
  case returned => exact .skip rfl rfl fun _ hk => hk

theorem next_effect : Effect i s c (c.next depth i s).1 (c.next depth i s).2 := by
  cases c
  case mirror => exact mirrorNext_effect
  case close  => exact closeNext_effect
  case start  => exact startNext_effect

end Call

end RetryTee
