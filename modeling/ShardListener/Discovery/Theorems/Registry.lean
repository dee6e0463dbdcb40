import ShardListener.Discovery.Registry
import ShardListener.Extensions.Run

namespace Discovery

namespace EndpointEntry

variable {a b : EndpointEntry} {i j : Nat} {addrs : List String} {x y : String}

theorem less_iff :
    a.less b ↔ a.tier.toNat < b.tier.toNat ∨
      a.tier.toNat = b.tier.toNat ∧ b.preference.toNat < a.preference.toNat := by
  simp only [less, ne_eq, ← UInt8.toNat_inj]
  split
  case isTrue h  => simp [UInt8.lt_iff_toNat_lt, h]
  case isFalse h => simp only [decide_eq_true_eq, UInt8.lt_iff_toNat_lt]; omega

theorem strictWeak : StrictWeak less where
  asymm h := by
    rw [less_iff] at *
    omega
  trans hab hbc := by
    rw [less_iff] at *
    omega

theorem seed_less_seed (h : i < j) (hj : j < 256) : (seed i x).less (seed j y) := by
  rw [less_iff]
  simp only [seed, UInt8.toNat_ofNat', true_and, lt_irrefl, false_or]
  omega

theorem pairwise_seed (h : addrs.length ≤ 256) :
    (addrs.mapIdx seed).Pairwise fun a b => a.less b := by
  rw [List.pairwise_iff_getElem]
  intro i j hi hj hlt
  simp only [List.length_mapIdx] at hj
  simp only [List.getElem_mapIdx]
  exact seed_less_seed hlt (by omega)

theorem map_addr_seed : (addrs.mapIdx seed).map (·.addr) = addrs := by
  refine List.ext_getElem (by simp) fun i hi hi' => ?_
  simp [seed]

end EndpointEntry

namespace Registry

variable {txt : AddrText} {now : Time} {r r' r'' : Registry} {e : EndpointEntry}

theorem mem_merged : e ∈ r.merged ↔ e ∈ r.beacons ∨ e ∈ r.seeds ∧ r.seen e.addr = false := by
  simp [merged]

theorem seen_of_mem (h : e ∈ r.beacons) : r.seen e.addr :=
  decide_eq_true (List.mem_map_of_mem h)

theorem mem_beacons_iff : e ∈ r.beacons ↔ e ∈ r.merged ∧ r.seen e.addr := by
  rw [mem_merged]
  constructor
  case mp  => exact fun h => ⟨.inl h, seen_of_mem h⟩
  case mpr => exact fun ⟨h, hs⟩ => h.resolve_right fun h => by simp [h.2] at hs

theorem mem_seeds_of_not_seen (h : e ∈ r.merged) (hs : ¬r.seen e.addr) : e ∈ r.seeds :=
  ((mem_merged.mp h).resolve_left fun h => hs (seen_of_mem h)).1

-- What the beacon listener does to the registry: nothing, or a change that marks the snapshot as
-- out of date. The seeds and the stored snapshot stay as they are.
inductive Touched (r : Registry) : Registry → Prop
  | kept : Touched r r
  | changed {s : Registry} (dirty : s.dirty) (seeds : s.seeds = r.seeds)
    (snapshot : s.snapshot = r.snapshot) : Touched r s

namespace Touched

theorem seeds_eq (h : Touched r r') : r'.seeds = r.seeds := by
  cases h
  case kept           => rfl
  case changed _ hs _ => exact hs

theorem snapshot_eq (h : Touched r r') : r'.snapshot = r.snapshot := by
  cases h
  case kept           => rfl
  case changed _ _ hs => exact hs

theorem trans (h : Touched r r') (h' : Touched r' r'') : Touched r r'' := by
  cases h'
  case kept             => exact h
  case changed hd hs hc => exact .changed hd (hs.trans h.seeds_eq) (hc.trans h.snapshot_eq)

theorem evictEntry {id : UInt32} : Touched r (r.evictEntry now id) := by
  simp only [Registry.evictEntry]
  split
  case h_1 =>
    split
    case isTrue  => exact .changed rfl rfl rfl
    case isFalse => exact .kept
  case h_2 => exact .kept

theorem foldl_evictEntry {ids : List UInt32} :
    Touched r (ids.foldl (Registry.evictEntry now) r) := by
  induction ids generalizing r
  case nil            => exact .kept
  case cons id ids hi => exact evictEntry.trans hi

theorem handle {ev : Event} : Touched r (r.handle txt ev) := by
  cases ev
  case upsert => exact .changed rfl rfl rfl
  case evict  => exact foldl_evictEntry

theorem exec {evs : List Event} : Touched r (Run.exec (Registry.handle txt) r evs) := by
  induction evs generalizing r
  case nil            => exact .kept
  case cons ev evs hi => exact handle.trans hi

end Touched

-- A stored snapshot that is not marked as out of date is an arrangement of the present endpoints.
def Fresh (r : Registry) : Prop :=
  r.dirty = false → ∀ snap ∈ r.snapshot, ∃ σ : Sorter EndpointEntry.less, snap = σ.sort r.merged

theorem Fresh.new : Fresh new :=
  fun _ _ hs => nomatch hs

theorem Fresh.seed {addrs : List String} : Fresh (r.seed addrs) :=
  fun hf => absurd hf.symm Bool.false_ne_true

theorem Fresh.takeSnapshot (h : Fresh r) (σ : Sorter EndpointEntry.less) :
    (∃ σ' : Sorter EndpointEntry.less, (r.takeSnapshot σ).1 = σ'.sort r.merged) ∧
      Fresh (r.takeSnapshot σ).2 := by
  simp only [Registry.takeSnapshot]
  split
  case h_1 snap hd hs => exact ⟨h hd snap hs, h⟩
  case h_2 =>
    exact ⟨⟨σ, rfl⟩, fun _ snap hs => ⟨σ, (Option.some.inj hs).symm⟩⟩

theorem Fresh.touched (h : Fresh r) (ht : Touched r r') : Fresh r' := by
  cases ht
  case kept           => exact h
  case changed hd _ _ => exact fun hf => absurd (hf.symm.trans hd) Bool.false_ne_true

end Registry

end Discovery
