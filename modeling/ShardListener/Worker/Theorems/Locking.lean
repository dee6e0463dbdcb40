import ShardListener.Extensions.LockOrder
import ShardListener.Extensions.Semaphore
import ShardListener.Worker.Composition

namespace Wiring

open Prog

-- `procMu` before `Buffer.mu` before `Tracker.mu`; nothing is taken under the other two.
def Mutex.rank : Mutex → Nat
  | .procMu _   => 0
  | .bufferMu _ => 1
  | .trackerMu  => 2
  | .dedupMu _  => 2
  | .teeMu _    => 2

theorem Mutex.rank_le {l : Mutex} : l.rank ≤ 2 := by
  cases l <;> simp [rank]

-- What the methods do: they lock, try channels, and wait for something outside.
def Local : Act Mutex Channel → Prop
  | .lock _ | .unlock _ | .pause => True
  | .trySend c | .tryRecv c      => c ≠ .sem
  | _                            => False

-- A method that can be called with the locks `H` held.
structure Callable (H : List Mutex) (p : Body) : Prop where
  obeys : p.Obeys Mutex.rank H H
  all   : p.All Local Local

namespace Callable

variable {H : List Mutex} {p q : Body} {l : Mutex} {c : Channel}

theorem skip : Callable H .skip :=
  ⟨rfl, trivial⟩

theorem pause : Callable [] (.act .pause) :=
  ⟨⟨rfl, rfl⟩, trivial⟩

theorem trySend (h : c ≠ .sem) : Callable H (.act (.trySend c)) :=
  ⟨rfl, h⟩

theorem tryRecv (h : c ≠ .sem) : Callable H (.act (.tryRecv c)) :=
  ⟨rfl, h⟩

theorem seq (hp : Callable H p) (hq : Callable H q) : Callable H (.seq p q) :=
  ⟨⟨H, hp.obeys, hq.obeys⟩, hp.all, hq.all⟩

theorem loop (h : Callable H p) : Callable H (.loop p) :=
  ⟨⟨rfl, h.obeys⟩, h.all⟩

theorem pick {f : Nat → Body} (h : ∀ k, Callable H (f k)) : Callable H (.pick f) :=
  ⟨fun k => (h k).obeys, fun k => (h k).all⟩

theorem opt (h : Callable H p) : Callable H p.opt :=
  ⟨.opt h.obeys, .opt h.all⟩

theorem either (hp : Callable H p) (hq : Callable H q) : Callable H (p.either q) :=
  ⟨.either hp.obeys hq.obeys, .either hp.all hq.all⟩

theorem locked (hl : ∀ h ∈ H, h.rank < l.rank) (h : Callable (l :: H) p) :
    Callable H (p.locked l) :=
  ⟨.locked hl h.obeys, trivial, h.all, trivial⟩

end Callable

variable {H : List Mutex} {w n : Nat}

-- The methods of the tracker are called with `procMu` and `Buffer.mu` held, or without.
def Below (H : List Mutex) : Prop :=
  ∀ h ∈ H, h.rank < 2

namespace Tracker

theorem underMu_callable (h : Below H) : Callable H underMu :=
  .locked h .skip

theorem observeFrom_callable (h : Below H) : Callable H observeFrom :=
  .opt (underMu_callable h)

theorem requestGapsFrom_callable (h : Below H) : Callable H requestGapsFrom := by
  refine .opt ⟨⟨.trackerMu :: H, ⟨h, rfl⟩, .either rfl ⟨H, rfl, rfl, rfl⟩⟩, trivial,
    .either trivial ⟨trivial, ?_⟩⟩
  exact fun e => nomatch e

theorem sweepOnce_callable : Callable [] sweepOnce :=
  have ht : Callable [.trackerMu] (.act (.trySend .nackQueue)) := .trySend nofun
  .locked nofun (.loop (.seq (.loop (.opt ht)) (.opt (.opt ht))))

end Tracker

namespace Worker

open Wiring.Tracker

theorem seenAndAdd_callable (h : Below H) : Callable H (seenAndAdd w) :=
  .opt (.locked h .skip)

theorem gated_callable (h : Below H) : Callable H (gated w) :=
  have ho := observeFrom_callable h
  .either (.opt ho) (.seq (.opt (seenAndAdd_callable h)) (.opt ho))

end Worker

namespace Buffer

open Wiring.Tracker Wiring.Worker

theorem evictExpired_callable (h : Below H) : Callable H evictExpired :=
  have hr := Callable.opt (requestGapsFrom_callable h)
  .loop (.opt (.either (.opt hr) (.opt (.seq (.opt hr) (underMu_callable h)))))

theorem complete_callable (h : Below H) : Callable H (complete w) := by
  have ho := Callable.opt (observeFrom_callable h)
  refine .pick fun k => ?_
  split
  case h_1 => exact ho
  case h_2 => exact ho
  case h_3 => exact ho
  case h_4 => exact .opt (.opt (gated_callable h))
  case h_5 => exact .skip

theorem observe_callable : Callable [.procMu w] (observe w) := by
  have hb : Below [.bufferMu w, .procMu w] := by simp [Below, Mutex.rank]
  refine .locked (by simp [Mutex.rank])
    (.seq (.opt (evictExpired_callable hb)) (.opt (complete_callable hb)))

theorem tick_callable : Callable [] (tick w) :=
  .locked nofun (evictExpired_callable (by simp [Below, Mutex.rank]))

end Buffer

namespace Worker

open Wiring.Tracker

theorem processFrame_callable : Callable [.procMu w] (processFrame w) := by
  have hb : Below [.procMu w] := by simp [Below, Mutex.rank]
  have ho := Callable.opt (observeFrom_callable hb)
  have hg : Callable [.procMu w] (.opt (gated w)) := .opt (gated_callable hb)
  refine .pick fun k => ?_
  split
  case h_1 => exact ho
  case h_2 => exact ho
  case h_3 => exact ho
  case h_4 => exact .opt (.seq Buffer.observe_callable ho)
  case h_5 => exact .opt (.either (.seq (.loop hg) ho) hg)
  case h_6 => exact .opt hg
  case h_7 => exact hg

theorem reinject_callable : Callable [] (reinject w) :=
  .locked nofun processFrame_callable

theorem handleDatagram_callable : Callable [] (handleDatagram w) :=
  have hm : Callable [] (mirror w) := .locked nofun (.opt (.trySend nofun))
  .opt (.seq (.opt hm) reinject_callable)

end Worker

namespace Tracker

theorem gcLoop_callable : Callable [] gcLoop :=
  .loop (.seq .pause (.opt sweepOnce_callable))

theorem reinject_callable : Callable [] (reinject n) := by
  refine .pick fun w => ?_
  split
  case isTrue  => exact Worker.reinject_callable
  case isFalse => exact .skip

theorem conclude_callable : Callable [] (conclude n) := by
  have hu : Callable [] underMu := underMu_callable nofun
  refine .pick fun k => ?_
  split
  case h_2 => exact .seq reinject_callable (.either hu hu)
  case h_7 => exact .skip
  case h_1 | h_3 | h_4 | h_5 | h_6 => exact hu

theorem sendNACK_callable : Callable [] (sendNACK n) :=
  have hu : Callable [] underMu := underMu_callable nofun
  .opt (.either hu (.seq hu (.seq (.loop .pause) conclude_callable)))

end Tracker

namespace Config

variable {cfg : Config} {r : Role}

theorem handleBatch_callable : Callable [] (handleBatch w) :=
  .loop (.opt Worker.handleDatagram_callable)

theorem fillBatch_callable : Callable [] (fillBatch w) :=
  .loop (.opt (.tryRecv nofun))

theorem closeTee_obeys : (cfg.closeTee w).Obeys Mutex.rank [] := by
  rw [closeTee]
  split
  case isFalse => exact rfl
  case isTrue  => exact ⟨[.teeMu w], ⟨nofun, rfl⟩, [.teeMu w], rfl, [], rfl, [], ⟨rfl, rfl⟩, rfl⟩

-- The loops of all goroutines obey the order.
theorem code_obeys : (cfg.code r).Obeys Mutex.rank [] := by
  cases r
  case receiver w =>
    simp only [code]
    split
    case isTrue =>
      have hs : (opt (act (.send (Channel.queue w)))).Obeys Mutex.rank [] [] := .opt ⟨rfl, rfl⟩
      exact ⟨[], ⟨rfl, [], ⟨rfl, rfl⟩, hs⟩, [], rfl, [], ⟨rfl, rfl⟩, closeTee_obeys⟩
    case isFalse =>
      have hd : Callable [] (.loop (.seq (.act .pause) (.opt (Worker.handleDatagram w)))) :=
        .loop (.seq .pause (.opt Worker.handleDatagram_callable))
      exact ⟨[], hd.obeys, closeTee_obeys⟩
  case processor w =>
    simp only [code]
    split
    case isTrue  => exact ⟨[], ⟨⟨rfl, rfl⟩, handleBatch_callable.obeys⟩, [], rfl, rfl⟩
    case isFalse => exact rfl
  case teeSender w =>
    simp only [code]
    split
    case isTrue  => exact ⟨[], ⟨⟨rfl, rfl⟩, fillBatch_callable.obeys⟩, [], rfl, rfl⟩
    case isFalse => exact rfl
  case ticker w =>
    have ht : Callable [] (.loop (.seq (.act .pause) (.opt (Buffer.tick w)))) :=
      .loop (.seq .pause (.opt Buffer.tick_callable))
    exact ⟨[], ht.obeys, rfl⟩
  case sweeper => exact ⟨[], Tracker.gcLoop_callable.obeys, rfl⟩
  case dispatcher =>
    have hn : (Tracker.sendNACK cfg.workers).Obeys Mutex.rank [] [] :=
      Tracker.sendNACK_callable.obeys
    exact ⟨[], ⟨rfl, ⟨rfl, rfl⟩, ⟨rfl, rfl⟩, rfl, [], hn, rfl, rfl⟩, rfl⟩
  case nack => exact rfl

theorem start_ordered : cfg.start.Ordered Mutex.rank := by
  refine .start (fun _ => rfl) fun t ht => ?_
  have ⟨_, _, he⟩ := List.mem_map.mp ht
  exact he ▸ code_obeys

end Config
end Wiring
