import ShardListener.Worker.Theorems.TeeSteps

namespace RetryTee

variable {s : Shared} {g : Goroutine} {i j m : Nat} {c u : Call}

namespace Shared.Phased

theorem closed_queue (h : s.Phased) (hc : s.closed = false) : s.qClosed = false := by
  by_contra hq
  exact absurd (h.closed (by simpa using hq)) (by simp [hc])

theorem not_done (h : s.Phased) (hr : (s.runner g).Active) : s.done = false := by
  by_contra hd
  have ⟨_, _, g', hg', ho⟩ := h.done (by simpa using hd)
  by_cases e : g = g'
  case pos => exact hr.2 (e ▸ hg')
  case neg => exact hr.1 (ho g e)

-- Only one of the two goroutines runs.
theorem other_off (h : s.Phased) (g' : Goroutine) (hr : s.runner g ≠ .off) (hne : g' ≠ g) :
    s.runner g' = .off := by
  cases g <;> cases g'
  case sender.sender => exact absurd rfl hne
  case closer.closer => exact absurd rfl hne
  case sender.closer =>
    by_contra hc
    exact hr (h.sender (h.closer hc).1)
  case closer.sender => exact h.sender (h.closer hr).1

-- An execution of `run` that goes on, whatever it takes from the queue and does with it.
theorem move {q written failed : List Nat} {recorder : Option Counters} {r : Runner} (h : s.Phased)
    (hg : (s.runner g).Active) (hr : r.Active) :
    ({ s with q, recorder, written, failed }.setRunner g r).Phased := by
  have hd := h.not_done hg
  constructor
  case panicked => exact h.panicked
  case closed   => exact h.closed
  case sender =>
    intro hst
    cases g
    case sender => exact absurd (h.sender hst) hg.1
    case closer => exact (runner_setRunner_of_ne (by decide)).trans (h.sender hst)
  case closer =>
    intro hc
    cases g
    case sender => rw [runner_setRunner_of_ne (by decide)] at hc; exact h.closer hc
    case closer => exact h.closer hg.1
  case done => exact fun hd' => absurd (hd.symm.trans hd') (by decide)
  case finished =>
    intro g' hg'
    by_cases e : g' = g
    case pos => subst e; exact absurd (runner_setRunner.symm.trans hg') hr.2
    case neg => rw [runner_setRunner_of_ne e] at hg'; exact h.finished g' hg'
  case socket => exact h.socket

-- The end of `run`, once the queue is closed and empty.
theorem finish (h : s.Phased) (hr : s.runner g = .receiving) (hq : s.q = []) (hc : s.qClosed) :
    (s.closeDone.setRunner g .finished).Phased := by
  have ho : s.runner g ≠ .off := by simp [hr]
  have hd := h.not_done ⟨ho, by simp [hr]⟩
  constructor
  case panicked => simp [Shared.closeDone, setRunner, h.panicked, hd]
  case closed   => exact h.closed
  case sender =>
    intro hst
    cases g
    case sender => exact absurd (h.sender hst) ho
    case closer => exact (runner_setRunner_of_ne (by decide)).trans (h.sender hst)
  case closer =>
    intro hc
    cases g
    case sender => rw [runner_setRunner_of_ne (by decide)] at hc; exact h.closer hc
    case closer => exact h.closer ho
  case done =>
    exact fun _ =>
      ⟨hq, hc, g, runner_setRunner,
      fun g' e => (runner_setRunner_of_ne e).trans (h.other_off g' ho e)⟩
  case finished => exact fun _ _ => rfl
  case socket   => exact fun _ => rfl

theorem runs {s' : Shared} (h : s.Phased) (hr : s.Runs g s') : s'.Phased := by
  cases hr
  case wait            => exact h
  case move hg hr _    => exact h.move hg hr
  case take hg hr _ _  => exact h.move hg hr
  case finish hr hq hc => exact h.finish hr hq hc
  case giveUp hr       => exact h.move (hr ▸ ⟨nofun, nofun⟩) ⟨nofun, nofun⟩
  case write hr _ _    => exact h.move (hr ▸ ⟨nofun, nofun⟩) ⟨nofun, nofun⟩

theorem taken_eq (h : s.Phased) (hr : s.runner g ≠ .off) : s.taken = (s.runner g).taken := by
  cases g
  case sender => simp [taken, h.other_off .closer hr (by decide), Runner.taken]
  case closer => simp [taken, h.other_off .sender hr (by decide), Runner.taken]

theorem taken_setRunner {r : Runner} (h : s.Phased) (hr : s.runner g ≠ .off) :
    (s.setRunner g r).taken = r.taken := by
  cases g
  case sender => simp [taken, setRunner, h.other_off .closer hr (by decide), Runner.taken]
  case closer => simp [taken, setRunner, h.other_off .sender hr (by decide), Runner.taken]

-- Nothing is on its way once `run` has returned, so nothing is when the socket is closed.
theorem items_eq_settled (h : s.Phased) (hd : s.done) : s.ledger.items = s.ledger.settled := by
  have ⟨hq, _, g, hf, _⟩ := h.done hd
  have hg : s.runner g ≠ .off := by simp [hf]
  have ht : s.taken = [] := by
    rw [h.taken_eq hg, hf]
    rfl
  simp [Ledger.items, ledger, hq, ht]

theorem enqueue (h : s.Phased) (hc : s.closed = false) : (s.enqueue m).Phased where
  panicked := h.panicked
  closed   := h.closed
  sender   := h.sender
  closer   := h.closer
  done     := fun hd => absurd ((h.closed_queue hc).symm.trans (h.done hd).2.1) (by decide)
  finished := h.finished
  socket   := h.socket

theorem closeQueue (h : s.Phased) (hc : s.closed) (hq : s.qClosed = false) :
    s.closeQueue.Phased where
  panicked := by simp [Shared.closeQueue, h.panicked, hq]
  closed   := fun _ => hc
  sender   := h.sender
  closer   := fun hr => ⟨(h.closer hr).1, rfl⟩
  done     := fun hd => absurd (hq.symm.trans (h.done hd).2.1) (by decide)
  finished := h.finished
  socket   := h.socket

-- `run` begins on the goroutine of a `close`.
theorem drain (h : s.Phased) (hq : s.qClosed) (hs : s.started = false)
    (hr : s.runner .closer = .off) : (s.setRunner .closer .receiving).Phased where
  panicked := h.panicked
  closed   := h.closed
  sender   := fun _ => (runner_setRunner_of_ne (by decide)).trans (h.sender hs)
  closer   := fun _ => ⟨hs, hq⟩
  done     := by
    intro hd
    have ⟨_, _, g, hg, _⟩ := h.done hd
    cases g
    case sender => exact absurd ((h.sender hs).symm.trans hg) (by simp)
    case closer => exact absurd (hr.symm.trans hg) (by simp)
  finished := by
    intro g hg
    cases g
    case sender => exact h.finished .sender ((runner_setRunner_of_ne (by decide)).symm.trans hg)
    case closer => exact absurd (runner_setRunner.symm.trans hg) (by simp)
  socket   := h.socket

-- `run` begins on the goroutine that `start` launches.
theorem launch (h : s.Phased) (hc : s.closed = false) :
    ({ s with started := true }.setRunner .sender .receiving).Phased where
  panicked := h.panicked
  closed   := h.closed
  sender   := fun hs' => absurd hs' (by simp [setRunner])
  closer   := by
    intro hr
    rw [runner_setRunner_of_ne (by decide)] at hr
    exact absurd ((h.closed_queue hc).symm.trans (h.closer hr).2) (by decide)
  done     := fun hd => absurd ((h.closed_queue hc).symm.trans (h.done hd).2.1) (by decide)
  finished := by
    intro g hg
    cases g
    case sender => exact absurd (runner_setRunner.symm.trans hg) (by simp)
    case closer => exact h.finished .closer ((runner_setRunner_of_ne (by decide)).symm.trans hg)
  socket   := h.socket

-- A step of `run` takes a datagram, or deals with some of those it has taken, or does not show in
-- the books.
theorem ledger_runs {s' : Shared} (h : s.Phased) (hr : s.Runs g s') :
    s.ledger.Step none s'.ledger := by
  cases hr
  case wait => exact .idle
  case move r hg hr ht =>
    have hs : (s.setRunner g r).ledger = s.ledger := by
      simp only [ledger, h.taken_setRunner hg.1, h.taken_eq hg.1, ht]
      rfl
    exact hs ▸ .idle
  case take m q r hg hr hq ht =>
    have hs : ({ s with q := q }.setRunner g r).taken = s.taken ++ [m] := by
      rw [h.taken_eq hg.1, ← ht]
      exact h.taken_setRunner hg.1
    simp only [ledger, hs]
    exact .take hq
  case finish hr hq hc =>
    have hg : s.runner g ≠ .off := by simp [hr]
    have hs : (s.setRunner g .finished).taken = s.taken := by
      rw [h.taken_setRunner hg, h.taken_eq hg, hr]
      rfl
    have hl : (s.closeDone.setRunner g .finished).ledger = s.ledger := by
      simp only [ledger, ← hs]
      rfl
    exact hl ▸ .idle
  case giveUp m rest hr =>
    have hg : s.runner g ≠ .off := by simp [hr]
    have ht : s.taken = m :: rest := (h.taken_eq hg).trans (by rw [hr]; rfl)
    have hs : ((s.writeFailed m).setRunner g (.writing rest)).taken = rest := h.taken_setRunner hg
    simp only [ledger, hs]
    exact .giveUp ht
  case write batch n hr hn hle =>
    have hg : s.runner g ≠ .off := by simp [hr]
    have ht : s.taken = batch := (h.taken_eq hg).trans (by rw [hr]; rfl)
    have hs : ((s.wrote batch n).setRunner g (.writing (batch.drop n))).taken = s.taken.drop n := by
      rw [ht]
      exact h.taken_setRunner hg
    have hw : ((s.wrote batch n).setRunner g (.writing (batch.drop n))).written = s.written ++
        s.taken.take n := by
      rw [ht]
      rfl
    simp only [ledger, hs, hw]
    exact .write n

end Shared.Phased

namespace Shared.Counted

variable {counting : Bool}

theorem runs {s' : Shared} (h : s.Counted counting) (hr : s.Runs g s') : s'.Counted counting := by
  cases hr
  case wait => exact h
  case move | take | finish => exact ⟨h.dropped, h.recorder⟩
  case giveUp =>
    refine ⟨h.dropped, ?_⟩
    cases counting <;> simp [h.recorder, writeFailed, setRunner]
  case write hle =>
    refine ⟨h.dropped, ?_⟩
    cases counting <;> simp [h.recorder, wrote, setRunner, hle]

theorem drop (h : s.Counted counting) : (s.drop m).Counted counting := by
  refine ⟨by simp [Shared.drop, h.dropped], ?_⟩
  cases counting <;> simp [h.recorder, Shared.drop]

end Shared.Counted

namespace Call.Effect

variable {c' : Call} {s' : Shared}

theorem phased (e : Effect i s c c' s') (h : s.Phased) (hk : c.Knows s) : s'.Phased := by
  cases e
  case skip       => exact h
  case lock       => exact ⟨h.1, h.2, h.3, h.4, h.5, h.6, h.7⟩
  case unlock     => exact ⟨h.1, h.2, h.3, h.4, h.5, h.6, h.7⟩
  case panic hq   => exact absurd ((h.closed_queue hk).symm.trans hq) (by decide)
  case enqueue    => exact h.enqueue hk
  case drop       => exact ⟨h.1, h.2, h.3, h.4, h.5, h.6, h.7⟩
  case refuse     => exact ⟨h.1, fun _ => rfl, h.3, h.4, h.5, h.6, h.7⟩
  case closeQueue => exact h.closeQueue hk.1 hk.2.1
  case drain      =>
    exact Shared.Phased.drain ⟨h.1, h.2, h.3, h.4, h.5, h.6, h.7⟩ hk.1 hk.2.1 hk.2.2
  case closeConn  => exact ⟨h.1, h.2, h.3, h.4, h.5, h.6, fun _ => hk⟩
  case launch hc  => exact h.launch hc

theorem knows (e : Effect i s c c' s') (h : s.Phased) (hk : c.Knows s) : c'.Knows s' := by
  cases e
  case skip hs       => exact hs h hk
  case lock hs _     => exact hs _
  case unlock hs _   => exact hs _
  case panic         => exact hk
  case enqueue       => trivial
  case drop          => trivial
  case refuse hc     =>
    have hq := h.closed_queue hc
    refine ⟨rfl, hq, rfl, ?_⟩
    by_contra hr
    exact absurd (hq.symm.trans (h.closer hr).2) (by decide)
  case closeQueue    => exact ⟨rfl, hk.2.2⟩
  case drain         => trivial
  case closeConn     => exact hk
  case launch        => trivial

-- Only one call holds the lock, so a step does not disturb what the others know.
theorem knows_other (e : Effect i s c c' s') (hu : u.Knows s) (hx : u.holds → c.holds = false) :
    u.Knows s' := by
  have keep (h : s'.done = s.done) (hs : c.holds = false → s'.closed = s.closed ∧
      s'.qClosed = s.qClosed ∧ s'.started = s.started ∧ s'.runner = s.runner) : u.Knows s' := by
    refine hu.mono (h ▸ id) fun hh => ?_
    have ⟨h₁, h₂, h₃, h₄⟩ := hs (hx hh)
    exact ⟨h₁, h₂, h₃, fun hr => h₄ ▸ hr⟩
  cases e
  case skip       => exact hu
  case lock       => exact keep rfl fun _ => ⟨rfl, rfl, rfl, rfl⟩
  case unlock     => exact keep rfl fun _ => ⟨rfl, rfl, rfl, rfl⟩
  case panic      => exact keep rfl fun _ => ⟨rfl, rfl, rfl, rfl⟩
  case enqueue    => exact keep rfl fun _ => ⟨rfl, rfl, rfl, rfl⟩
  case drop       => exact keep rfl fun _ => ⟨rfl, rfl, rfl, rfl⟩
  case refuse     => exact keep rfl nofun
  case closeQueue => exact keep rfl nofun
  case drain      => exact keep rfl nofun
  case closeConn  => exact keep rfl fun _ => ⟨rfl, rfl, rfl, rfl⟩
  case launch     => exact keep rfl nofun

theorem holds_iff (e : Effect i s c c' s') (h : c.holds ↔ s.mu = some i) :
    c'.holds ↔ s'.mu = some i := by
  cases e
  case skip hh _ _     => exact hh ▸ h
  case lock hh _ _     => simp [hh]
  case unlock hh _ _   => simp [hh]
  case panic           => exact h
  case enqueue         => exact h
  case drop            => exact h
  case refuse          => exact h
  case closeQueue      => exact h
  case drain           => simp [holds, Shared.setRunner]
  case closeConn       => exact h
  case launch          => exact h

theorem mu_other (e : Effect i s c c' s') (h : c.holds ↔ s.mu = some i) (hj : j ≠ i) :
    s'.mu = some j ↔ s.mu = some j := by
  cases e
  case skip                => rfl
  case lock hm _ _ _ _     => simp [hm, Ne.symm hj]
  case unlock hh _ _ _     => simp [h.mp hh, Ne.symm hj]
  case panic               => rfl
  case enqueue             => rfl
  case drop                => rfl
  case refuse              => rfl
  case closeQueue          => rfl
  case drain               => simp [h.mp rfl, Shared.setRunner, Ne.symm hj]
  case closeConn           => rfl
  case launch              => rfl

-- A call hands over its own datagram, and once.
theorem ledger (e : Effect i s c c' s') (h : s.Phased) (hk : c.Knows s) :
    ∃ d, s.ledger.Step d s'.ledger ∧ (∀ m ∈ d, m = i) ∧ c'.owed = d.toList.length + c.owed := by
  cases e
  case skip ho _   => exact ⟨none, .idle, nofun, by simp [ho]⟩
  case lock ho     => exact ⟨none, .idle, nofun, by simp [ho]⟩
  case unlock ho   => exact ⟨none, .idle, nofun, by simp [ho]⟩
  case enqueue     => exact ⟨some i, .queue, fun _ hm => (Option.some.inj hm).symm, rfl⟩
  case drop        => exact ⟨some i, .refuse, fun _ hm => (Option.some.inj hm).symm, rfl⟩
  case drain       => exact ⟨none, Shared.ledger_begin hk.2.2 ▸ .idle, nofun, rfl⟩
  case launch hs _ => exact ⟨none, Shared.ledger_begin (h.sender hs) ▸ .idle, nofun, rfl⟩
  case panic | refuse | closeQueue | closeConn => exact ⟨none, .idle, nofun, rfl⟩

theorem counted {counting : Bool} (e : Effect i s c c' s') (h : s.Counted counting) :
    s'.Counted counting := by
  cases e
  case drop => exact h.drop
  case skip => exact h
  case lock | unlock | panic | enqueue | refuse | closeQueue | drain | closeConn | launch =>
    exact ⟨h.dropped, h.recorder⟩

theorem runner_kept (e : Effect i s c c' s') (h : s.Phased) (hk : c.Knows s)
    (hr : s.runner g ≠ .off) : s'.runner g = s.runner g := by
  cases e
  case drain =>
    refine Shared.runner_setRunner_of_ne fun hg => ?_
    exact hr (hg ▸ hk.2.2)
  case launch hs _ =>
    refine Shared.runner_setRunner_of_ne fun hg => ?_
    exact hr (hg ▸ h.sender hs)
  case skip | lock | unlock | panic | enqueue | drop | refuse | closeQueue | closeConn => rfl

end Call.Effect

namespace Shared.Runs

variable {s' : Shared}

theorem mu (h : s.Runs g s') : s'.mu = s.mu := by
  cases h <;> rfl

theorem knows (h : s.Runs g s') (hu : u.Knows s) : u.Knows s' := by
  have off {s'' : Shared} {r : Runner} (hg : s.runner g ≠ .off) (hs : s''.runner = s.runner)
      (hr : s.runner .closer = .off) : (s''.setRunner g r).runner .closer = .off := by
    refine (runner_setRunner_of_ne fun e => ?_).trans (hs ▸ hr)
    exact hg (e ▸ hr)
  cases h
  case wait                   => exact hu
  case move hg _ _            => exact hu.mono id fun _ => ⟨rfl, rfl, rfl, off hg.1 rfl⟩
  case take hg _ _ _          => exact hu.mono id fun _ => ⟨rfl, rfl, rfl, off hg.1 rfl⟩
  case finish hr _ _          =>
    exact hu.mono (fun _ => rfl) fun _ => ⟨rfl, rfl, rfl, off (by simp [hr]) rfl⟩
  case giveUp hr              => exact hu.mono id fun _ => ⟨rfl, rfl, rfl, off (by simp [hr]) rfl⟩
  case write hr _ _           => exact hu.mono id fun _ => ⟨rfl, rfl, rfl, off (by simp [hr]) rfl⟩

end Shared.Runs

end RetryTee
