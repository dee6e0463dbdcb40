import ShardListener.Extensions.Run
import ShardListener.Worker.Theorems.TeePhases

namespace RetryTee

variable {g : Goroutine} {conn : Conn} {depth i : Nat}

structure Shared.Sound (counting : Bool) (n : Nat) (s : Shared) : Prop where
  phased  : s.Phased
  counted : s.Counted counting
  ordered : s.ledger.Ordered
  names   : ∀ m ∈ s.ledger.items, m < n
  holder  : ∀ j, s.mu = some j → j < n

structure Call.At (s : Shared) (i : Nat) (c : Call) : Prop where
  lock  : c.holds ↔ s.mu = some i
  owed  : s.ledger.items.count i = c.owed
  knows : c.Knows s

def Sound (counting : Bool) (t : RetryTee) : Prop :=
  t.Annotated (Shared.Sound counting) Call.At

namespace Sound

variable {counting : Bool} {t : RetryTee} {a : Action} {as : List Action}

theorem init : (new counting).Sound counting := by
  refine ⟨⟨?phased, ⟨rfl, ?counted⟩, ⟨[], rfl, .slnil, .nil⟩, nofun, nofun⟩, nofun⟩
  case phased  => exact ⟨rfl, nofun, fun _ => rfl, fun h => absurd rfl h, nofun, nofun, nofun⟩
  case counted => cases counting <;> rfl

theorem call (h : t.Sound counting) (op : Op) : Sound counting (t.spawn op.call) := by
  have hs := h.shared
  refine Pool.Annotated.spawn h ⟨hs.phased, hs.counted, hs.ordered, ?names,
    ?holder⟩ ⟨?lock, ?owed, ?knows⟩
  case names  => exact fun m hm => Nat.lt_succ_of_lt (hs.names m hm)
  case holder => exact fun j hj => Nat.lt_succ_of_lt (hs.holder j hj)
  case lock =>
    have hm : t.shared.mu ≠ some t.threads.length := fun hm => absurd (hs.holder _ hm) (by omega)
    cases op <;> simp [Op.call, Call.holds, hm]
  case owed =>
    have hn : t.threads.length ∉ t.shared.ledger.items :=
      fun hm => absurd (hs.names _ hm) (by omega)
    cases op <;> exact List.count_eq_zero_of_not_mem hn
  case knows => cases op <;> trivial

theorem run (h : t.Sound counting) : Sound counting { t with shared := t.shared.run g conn } := by
  have hs := h.shared
  have hr : t.shared.Runs g (t.shared.run g conn) := Shared.run_runs
  have hl := hs.phased.ledger_runs hr
  have hp := hl.items_perm
  refine Pool.Annotated.shift h ⟨hs.phased.runs hr, hs.counted.runs hr,
    hl.ordered hs.ordered, ?names, ?holder⟩
    fun j u hu => ⟨?lock, (hp.count_eq j).trans hu.owed, hr.knows hu.knows⟩
  case names  => exact fun m hm => hs.names m (hp.mem_iff.mp hm)
  case holder => exact fun j hj => hs.holder j (hr.mu ▸ hj)
  case lock   => exact hr.mu ▸ hu.lock

theorem step (h : t.Sound counting) : Sound counting (Pool.step (Call.next depth) t i) := by
  refine Pool.Annotated.step h (fun c s hi hs hc => ?own) fun c s j u hs hc hu hj => ?other
  case own =>
    have e : c.Effect i s (c.next depth i s).1 (c.next depth i s).2 := Call.next_effect
    have ⟨d, hl, hd, ho⟩ := e.ledger hs.phased hc.knows
    have hp := hl.items_perm
    refine ⟨⟨e.phased hs.phased hc.knows, e.counted hs.counted,
      hl.ordered hs.ordered, ?names, ?holder⟩, e.holds_iff hc.lock, ?owed,
      e.knows hs.phased hc.knows⟩
    case names =>
      intro m hm
      match List.mem_append.mp (hp.mem_iff.mp hm) with
      | .inl hm => exact hd m (Option.mem_toList.mp hm) ▸ hi
      | .inr hm => exact hs.names m hm
    case holder =>
      intro j hj
      by_cases hji : j = i
      case pos => exact hji ▸ hi
      case neg => exact hs.holder j ((e.mu_other hc.lock hji).mp hj)
    case owed =>
      have hn : d.toList.count i = d.toList.length :=
        List.count_eq_length.mpr fun m hm => (hd m (Option.mem_toList.mp hm)).symm
      rw [hp.count_eq i, List.count_append, hn, hc.owed, ho]
  case other =>
    have e : c.Effect i s (c.next depth i s).1 (c.next depth i s).2 := Call.next_effect
    have ⟨d, hl, hd, _⟩ := e.ledger hs.phased hc.knows
    refine ⟨hu.lock.trans (e.mu_other hc.lock hj).symm, ?owed,
      e.knows_other hu.knows fun hh => ?alone⟩
    case owed =>
      have hn : d.toList.count j = 0 :=
        List.count_eq_zero_of_not_mem fun hm => hj (hd j (Option.mem_toList.mp hm))
      rw [hl.items_perm.count_eq j, List.count_append, hn, hu.owed, Nat.zero_add]
    case alone =>
      by_contra hh'
      have hm := (hu.lock.mp hh).symm.trans (hc.lock.mp (by simpa using hh'))
      exact hj (Option.some.inj hm)

theorem action (h : t.Sound counting) : (t.step depth a).Sound counting := by
  cases a
  case call op => exact h.call op
  case step    => exact h.step
  case run     => exact h.run

theorem exec (h : t.Sound counting) : Sound counting (Run.exec (RetryTee.step depth) t as) :=
  Run.exec_of_step (Sound counting) (fun _ _ => action) h

theorem ledger_step (h : t.Sound counting) :
    ∃ d, t.shared.ledger.Step d (t.step depth a).shared.ledger := by
  cases a
  case call => exact ⟨none, .idle⟩
  case run  => exact ⟨none, h.shared.phased.ledger_runs Shared.run_runs⟩
  case step i =>
    simp only [RetryTee.step, Pool.step]
    split
    case h_1 => exact ⟨none, .idle⟩
    case h_2 c hc =>
      have e : c.Effect i t.shared (c.next depth i t.shared).1 (c.next depth i t.shared).2 :=
        Call.next_effect
      obtain ⟨d, hl, _⟩ := e.ledger h.shared.phased (h.threads i c hc).knows
      exact ⟨d, hl⟩

-- What was queued or dropped stays so.
theorem ledger_grows (h : t.Sound counting) :
    t.shared.ledger.queued <+: (Run.exec (RetryTee.step depth) t as).shared.ledger.queued ∧
    t.shared.ledger.refused <+: (Run.exec (RetryTee.step depth) t as).shared.ledger.refused := by
  induction as generalizing t
  case nil => exact ⟨List.prefix_rfl, List.prefix_rfl⟩
  case cons a as hi =>
    have ⟨d, hl⟩ : ∃ d, t.shared.ledger.Step d (t.step depth a).shared.ledger := h.ledger_step
    have ⟨hq, hr⟩ := hi (h.action : (t.step depth a).Sound counting)
    exact ⟨hl.queued_prefix.trans hq, hl.refused_prefix.trans hr⟩

theorem items_nodup (h : t.Sound counting) : t.shared.ledger.items.Nodup := by
  rw [List.nodup_iff_count_le_one]
  intro m
  by_cases hm : m ∈ t.shared.ledger.items
  case neg => simp [List.count_eq_zero_of_not_mem hm]
  case pos =>
    have hc := List.getElem?_eq_getElem (h.shared.names m hm)
    rw [(h.threads m _ hc).owed]
    exact Call.owed_le_one

-- The datagrams of two calls of which one returned before the other began are written in this
-- order.
theorem written_in_order {more : List Action} {a b : Nat} (h : t.Sound counting)
    (ha : t.threads[a]? = some (.mirror .returned)) (hb : t.threads.length ≤ b)
    (hwa : a ∈ (Run.exec (RetryTee.step depth) t more).shared.written)
    (hwb : b ∈ (Run.exec (RetryTee.step depth) t more).shared.written) :
    [a, b].Sublist (Run.exec (RetryTee.step depth) t more).shared.written := by
  have h' : Sound counting (Run.exec (RetryTee.step depth) t more) := h.exec
  have ⟨hq, hr⟩ :
      t.shared.ledger.queued <+: (Run.exec (RetryTee.step depth) t more).shared.ledger.queued ∧
      t.shared.ledger.refused <+: (Run.exec (RetryTee.step depth) t more).shared.ledger.refused :=
    h.ledger_grows
  have hi : a ∈ t.shared.ledger.items := by
    rw [← List.count_pos_iff, (h.threads a _ ha).owed]
    exact Nat.one_pos
  have hqa : a ∈ t.shared.ledger.queued := by
    refine (List.mem_append.mp (h.shared.ordered.items_perm_queued.mem_iff.mp hi)).resolve_right
      fun hra => ?_
    have hnd := h'.shared.ordered.items_perm_queued.nodup_iff.mp h'.items_nodup
    exact (List.nodup_append.mp hnd).2.2 a
      (h'.shared.ordered.written_sublist.mem hwa) a (hr.mem hra) rfl
  have hqb : b ∉ t.shared.ledger.queued := fun hm =>
    absurd
      (h.shared.names b
      (h.shared.ordered.items_perm_queued.mem_iff.mpr (List.mem_append_left _ hm))) (by omega)
  exact h'.shared.ordered.written_in_order h'.items_nodup hq hqa hqb hwa hwb

-- The execution of `run` that writes a batch goes on with it, whatever else happens.
theorem writing_step {rest : List Nat} (h : t.Sound counting)
    (hr : t.shared.runner g = .writing rest) (ha : a.runs g = false) :
    (t.step depth a).shared.runner g = .writing rest := by
  have hg : t.shared.runner g ≠ .off := by simp [hr]
  cases a
  case call => exact hr
  case run g' conn =>
    have hne : g' ≠ g := by simpa [Action.runs] using ha
    simpa [RetryTee.step, Shared.run, h.shared.phased.other_off g' hg hne] using hr
  case step i =>
    simp only [RetryTee.step, Pool.step]
    split
    case h_1 => exact hr
    case h_2 c hc =>
      have e : c.Effect i t.shared (c.next depth i t.shared).1 (c.next depth i t.shared).2 :=
        Call.next_effect
      exact (e.runner_kept h.shared.phased (h.threads i c hc).knows hg).trans hr

-- `writeBatch` returns after at most one step for each datagram, and one more to leave the loop.
theorem writeBatch_returns {rest : List Nat} (h : t.Sound counting)
    (hr : t.shared.runner g = .writing rest) (hn : rest.length < as.countP (Action.runs g)) :
    ∃ bs, bs <+: as ∧ (Run.exec (RetryTee.step depth) t bs).shared.runner g = .receiving := by
  induction as generalizing t rest
  case nil => exact absurd hn (by simp)
  case cons a as hi =>
    have next {rest' : List Nat} (hr' : (t.step depth a).shared.runner g = .writing rest')
        (hn' : rest'.length < as.countP (Action.runs g)) :
        ∃ bs, bs <+: a :: as ∧
          (Run.exec (RetryTee.step depth) t bs).shared.runner g = .receiving := by
      obtain ⟨bs, hb, he⟩ := hi h.action hr' hn'
      exact ⟨a :: bs, List.cons_prefix_cons.mpr ⟨rfl, hb⟩, he⟩
    cases ha : a.runs g
    case false =>
      rw [List.countP_cons_of_neg (by simp [ha])] at hn
      exact next (h.writing_step hr ha) hn
    case true =>
      rw [List.countP_cons_of_pos ha] at hn
      obtain ⟨conn, ha'⟩ := Action.runs_iff.mp ha
      have hs : (t.step depth a).shared = t.shared.writeBatch g conn rest := by
        simp [ha', RetryTee.step, Shared.run, hr]
      cases rest
      case nil =>
        refine ⟨[a], List.cons_prefix_cons.mpr ⟨rfl, List.nil_prefix⟩, ?_⟩
        exact (congrArg (Shared.runner · g) hs).trans Shared.runner_setRunner
      case cons m rest =>
        obtain ⟨rest', hr', hle⟩ := t.shared.writeBatch_shrinks g conn m rest
        exact next ((congrArg (Shared.runner · g) hs).trans hr')
          (by simp only [List.length_cons] at hn; omega)

end Sound

-- The calls of `mirror`, by their numbers.
def mirrors (t : RetryTee) : List Nat :=
  (List.range t.threads.length).filter fun i => t.threads[i]?.any Call.isMirror

-- The first `close` has returned, and every `mirror`.
structure Returned (t : RetryTee) : Prop where
  close   : .close (.returned true) ∈ t.threads
  mirrors : ∀ p, .mirror p ∈ t.threads → p = .returned

theorem mirrors_nodup {t : RetryTee} : t.mirrors.Nodup :=
  List.nodup_range.filter _

theorem mem_mirrors_iff {t : RetryTee} : i ∈ t.mirrors ↔ ∃ p, t.threads[i]? = some (.mirror p) := by
  simp only [mirrors, List.mem_filter, List.mem_range, Option.any_eq_true]
  constructor
  case mp =>
    intro ⟨_, c, hc, hm⟩
    cases c
    case mirror p       => exact ⟨p, hc⟩
    case close | start  => cases hm
  case mpr =>
    intro ⟨p, hp⟩
    exact ⟨(List.getElem?_eq_some_iff.mp hp).1, _, hp, rfl⟩

namespace Sound

variable {counting : Bool} {t : RetryTee}

theorem settled_perm_mirrors (h : t.Sound counting) (hr : t.Returned) :
    t.shared.ledger.settled.Perm t.mirrors := by
  have ⟨k, hk⟩ := List.getElem?_of_mem hr.close
  have he := h.shared.phased.items_eq_settled (h.threads k _ hk).knows
  rw [List.perm_ext_iff_of_nodup (he ▸ h.items_nodup) mirrors_nodup, ← he]
  intro i
  rw [mem_mirrors_iff, ← List.count_pos_iff]
  constructor
  case mp =>
    intro hc
    have ⟨c, hi⟩ : ∃ c, t.threads[i]? = some c :=
      ⟨_, List.getElem?_eq_getElem (h.shared.names i (List.count_pos_iff.mp hc))⟩
    rw [(h.threads i c hi).owed] at hc
    cases c
    case mirror p      => exact ⟨p, hi⟩
    case close | start => exact absurd hc (Nat.lt_irrefl 0)
  case mpr =>
    intro ⟨p, hi⟩
    have hp := hr.mirrors p (List.mem_of_getElem? hi)
    rw [(h.threads i _ hi).owed, hp]
    exact Nat.one_pos

end Sound

theorem nothing_uncounted (depth : Nat) (counting : Bool) (as : List Action) :
    let t := Run.exec (step depth) (new counting) as
    let s := t.shared
    s.panicked = false ∧
    (t.Returned →
      (s.written ++ s.failed ++ s.refused).Perm t.mirrors ∧
        (s.written ++ s.failed ++ s.refused).Nodup ∧
      t.mirrors.length = s.written.length + s.failed.length + s.refused.length ∧
      s.dropped = s.refused.length ∧
      s.recorder = if counting then some ⟨s.written.length, s.failed.length,
        s.refused.length⟩ else none) ∧
    s.written.Sublist s.queued ∧
    (∀ bs a b, t.threads[a]? = some (.mirror .returned) → t.threads.length ≤ b →
      let s' := (Run.exec (step depth) t bs).shared
      a ∈ s'.written → b ∈ s'.written → [a, b].Sublist s'.written) ∧
    ∀ g rest bs, s.runner g = .writing rest → rest.length < bs.countP (Action.runs g) →
      ∃ bs', bs' <+: bs ∧ (Run.exec (step depth) t bs').shared.runner g = .receiving := by
  intro t s
  have h : Sound counting t := Sound.init.exec
  refine ⟨h.shared.phased.panicked, fun hr => ?_, h.shared.ordered.written_sublist,
    fun bs a b ha hb => h.written_in_order ha hb, fun g rest bs hr hn => h.writeBatch_returns hr hn⟩
  have hp := h.settled_perm_mirrors hr
  refine ⟨hp, hp.nodup_iff.mpr mirrors_nodup, ?_, h.shared.counted.dropped,
    h.shared.counted.recorder⟩
  rw [← hp.length_eq, Ledger.settled, List.length_append, List.length_append]
  rfl

-- Three datagrams for a queue of two, and a `close` of a tee that was never started: the third
-- datagram finds the queue full, the write of the first fails, and the second is written.
def oneOfEach : List Action :=
  let all (i n : Nat) : List Action := List.replicate n (.step i)
  let writes (n : Int) (h : n ≤ 1) : Conn := fun len =>
    if hl : 1 ≤ len then ⟨n, false, by omega⟩ else ⟨0, true, by omega⟩
  .call .mirror :: all 0 4 ++ .call .mirror :: all 1 4 ++ .call .mirror :: all 2 5 ++
  .call .close :: all 3 4 ++
  List.replicate 3 (.run .closer (writes 0 (by omega))) ++ .run .closer (writes 0 (by omega)) ::
  List.replicate 3 (.run .closer (writes 1 (by omega))) ++ all 3 2

theorem oneOfEach_counted :
    let t := Run.exec (step 2) (new true) oneOfEach
    t.Returned ∧ t.shared.written = [1] ∧ t.shared.failed = [0] ∧ t.shared.refused = [2] ∧
    t.mirrors.length = t.shared.written.length + t.shared.failed.length +
      t.shared.refused.length := by
  intro t
  have ht : t.threads = [.mirror .returned, .mirror .returned, .mirror .returned,
      .close (.returned true)] := rfl
  have hr : t.Returned := by
    refine ⟨by simp [ht], fun p hp => ?_⟩
    simpa [ht] using hp
  exact ⟨hr, rfl, rfl, rfl, ((nothing_uncounted 2 true oneOfEach).2.1 hr).2.2.1⟩

end RetryTee
