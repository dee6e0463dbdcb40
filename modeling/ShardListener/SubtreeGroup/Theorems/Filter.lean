import ShardListener.SubtreeGroup.Theorems.Registry
import ShardListener.Worker.State

namespace Worker.Filter

variable {shardInclude : List GroupIdx} {subtreeInclude subtreeExclude : List Bytes32}
variable {groupReg : Option (Bytes32 → Bool)} {g : GroupIdx} {f : Frame}

theorem deny_eq_none_iff {filt : Filter} :
    filt.deny g f = none ↔
      ¬filt.shardInclude.any (g ∉ ·) = true ∧ ¬filt.subtreeExclude.any (f.subtreeID ∈ ·) = true ∧
        (¬(filt.subtreeInclude.isSome ∨ filt.groupReg.isSome) ∨
          filt.subtreeInclude.any (f.subtreeID ∈ ·) = true ∨
            filt.groupReg.any (· f.subtreeID) = true) := by
  simp only [deny]
  split
  case isTrue h => exact iff_of_false nofun fun hn => hn.1 h
  case isFalse hs =>
    split
    case isTrue h => exact iff_of_false nofun fun hn => hn.2.1 h
    case isFalse he =>
      split
      case isFalse hopen => exact iff_of_true rfl ⟨hs, he, .inl hopen⟩
      case isTrue hset =>
        split
        case isTrue h  => exact iff_of_true rfl ⟨hs, he, .inr h⟩
        case isFalse h => exact iff_of_false nofun fun hn => hn.2.2.elim (absurd hset) h

-- An empty list is no restriction.
theorem allow_new_iff :
    (new shardInclude subtreeInclude subtreeExclude groupReg).allow g f = true ↔
      (shardInclude = [] ∨ g ∈ shardInclude) ∧ f.subtreeID ∉ subtreeExclude ∧
        (subtreeInclude = [] ∧ groupReg = none ∨ f.subtreeID ∈ subtreeInclude ∨
          groupReg.any (· f.subtreeID) = true) := by
  rw [allow, Option.isNone_iff_eq_none, deny_eq_none_iff]
  refine and_congr ?shard (and_congr ?exclude (or_congr ?static (or_congr_left ?listed)))
  case shard   => by_cases h : shardInclude = [] <;> simp [new, h]
  case exclude => by_cases h : subtreeExclude = [] <;> simp [new, h]
  case static  => by_cases h : subtreeInclude = [] <;> simp [new, h]
  case listed  => by_cases h : subtreeInclude = [] <;> simp [new, h]

end Worker.Filter

namespace SubtreeGroup

open Worker (Filter)

-- The membership of the subtree in some subscribed group, as the log of the calls has it.
def Announced (groups : List GroupID) (defaultTTL : Duration) (log : List Call) (t : Time)
    (s : Bytes32) : Prop :=
  ∃ g ∈ groups, ∃ e, Expires defaultTTL log g s e ∧ t < e

theorem membership_follows_log (groups : List GroupID) (defaultTTL : Duration) (log : List Call)
    (t : Time) (ht : ∀ c ∈ log, c.now ≤ t) :
    let r := Run.exec Registry.step (Registry.new groups defaultTTL) log
    (∀ s, r.contains t s = true ↔ Announced groups defaultTTL log t s) ∧
      (∀ log', (∀ c ∈ log', c.now ≤ t) →
        log'.filter (·.announces groups) = log.filter (·.announces groups) →
        ∀ s, (Run.exec Registry.step (Registry.new groups defaultTTL) log').contains t s =
          r.contains t s) ∧
      ∀ (shardInclude : List GroupIdx) (subtreeInclude subtreeExclude : List Bytes32)
        (configured : Bool)
        (g : GroupIdx) (f : Frame),
        let groupReg := if configured then some (r.contains t) else none
        (Filter.new shardInclude subtreeInclude subtreeExclude groupReg).allow g f = true ↔
          (shardInclude = [] ∨ g ∈ shardInclude) ∧ f.subtreeID ∉ subtreeExclude ∧
            (subtreeInclude = [] ∧ configured = false ∨ f.subtreeID ∈ subtreeInclude ∨
              configured = true ∧ Announced groups defaultTTL log t f.subtreeID) := by
  intro r
  have hr : ∀ s, r.contains t s = true ↔ Announced groups defaultTTL log t s :=
    fun s => Registry.Follows.exec.contains_iff ht
  refine ⟨hr, fun log' ht' hsame s => ?_,
    fun shardInclude subtreeInclude subtreeExclude configured g f => ?_⟩
  case refine_1 =>
    rw [Bool.eq_iff_iff, hr, Registry.Follows.exec.contains_iff ht']
    refine exists_congr fun g => and_congr_right fun hg => exists_congr fun e => and_congr_left' ?_
    rw [← Expires.filter_iff hg, hsame, Expires.filter_iff hg]
  case refine_2 =>
    intro groupReg
    rw [Filter.allow_new_iff, ← hr]
    cases configured <;> simp [groupReg]

-- An announcement for 5, one with the default of 10 that comes after the first one has expired, and
-- a purge.
theorem renewed_membership :
    let s := Bytes32.zero
    let log : List Call :=
      [⟨0, .add 1 s 5⟩, ⟨1, .add 2 s 100⟩, ⟨6, .evict⟩, ⟨7, .add 1 s 0⟩, ⟨7, .contains s⟩]
    let r := Run.exec Registry.step (Registry.new [1] 10) log
    r.contains 16 s = true ∧ Announced [1] 10 log 16 s ∧ r.contains 17 s = false ∧
      ¬Announced [1] 10 log 17 s := by
  intro s log r
  have h16 : r.contains 16 s = true := by decide
  have h17 : r.contains 17 s = false := by decide
  have ⟨hin, _⟩ := membership_follows_log [1] 10 log 16 (by decide)
  have ⟨hout, _⟩ := membership_follows_log [1] 10 log 17 (by decide)
  exact ⟨h16, (hin s).mp h16, h17, fun ha => Bool.false_ne_true (h17.symm.trans ((hout s).mpr ha))⟩

end SubtreeGroup
