import Mathlib.Data.List.AList
import Mathlib.Tactic

-- A finite map with a non-dependent value type. The order of the entries is the order in which a
-- loop over the map visits them; lookups do not depend on it.
abbrev Dict (κ ν : Type) := AList fun _ : κ => ν

namespace AList

variable {κ ν : Type} [DecidableEq κ] {m : Dict κ ν} {k k' : κ} {v : ν}

theorem lookup_insert_eq_ite :
    (m.insert k v).lookup k' = if k' = k then some v else m.lookup k' := by
  split
  case isTrue h  => subst h; exact AList.lookup_insert m
  case isFalse h => exact AList.lookup_insert_ne h

-- Adding the keys of a list that are not there yet, one by one.

theorem lookup_or_of_present {f : κ → ν} {ks : List κ} (h : m.lookup k = some v) :
    (m.lookup k').or (if k' ∈ ks then some (f k') else none) =
      (m.lookup k').or (if k' ∈ k :: ks then some (f k') else none) := by
  by_cases hk : k' = k
  case pos => subst hk; simp [h]
  case neg => simp [hk]

theorem lookup_or_of_absent {f : κ → ν} {ks : List κ} (h : m.lookup k = none) :
    ((m.insert k (f k)).lookup k').or (if k' ∈ ks then some (f k') else none) =
      (m.lookup k').or (if k' ∈ k :: ks then some (f k') else none) := by
  rw [lookup_insert_eq_ite]
  by_cases hk : k' = k
  case pos => subst hk; simp [h]
  case neg => simp [hk]

theorem lookup_erase_eq_ite : (m.erase k).lookup k' = if k' = k then none else m.lookup k' := by
  split
  case isTrue h  => subst h; exact AList.lookup_erase k' m
  case isFalse h => exact AList.lookup_erase_ne h

theorem mem_iff_lookup : k ∈ m ↔ ∃ v, m.lookup k = some v := by
  rw [← lookup_isSome, Option.isSome_iff_exists]

theorem mem_entries_iff {e : Sigma fun _ : κ => ν} : e ∈ m.entries ↔ m.lookup e.1 = some e.2 :=
  AList.mem_lookup_iff.symm

def size (m : Dict κ ν) : Nat :=
  m.entries.length

omit [DecidableEq κ] in
theorem size_empty : (∅ : Dict κ ν).size = 0 :=
  rfl

omit [DecidableEq κ] in
theorem size_eq_length_keys : m.size = m.keys.length := by
  simp [size, AList.keys, List.keys]

theorem size_eq_zero_iff : m.size = 0 ↔ ∀ k, m.lookup k = none := by
  simp only [AList.lookup_eq_none, ← AList.mem_keys, size_eq_length_keys, List.length_eq_zero_iff,
    List.eq_nil_iff_forall_not_mem]

omit [DecidableEq κ] in
-- A map whose keys are keys of the other one has no more entries.
theorem size_le_of_mem {m' : Dict κ ν} (h : ∀ k ∈ m, k ∈ m') : m.size ≤ m'.size := by
  rw [size_eq_length_keys, size_eq_length_keys]
  refine (m.keys_nodup.subperm fun k hk => ?_).length_le
  exact AList.mem_keys.mp (h k (AList.mem_keys.mpr hk))

theorem size_erase_of_mem (h : k ∈ m) : (m.erase k).size + 1 = m.size := by
  rw [size_eq_length_keys, size_eq_length_keys, AList.keys_erase,
    List.length_erase_add_one (AList.mem_keys.mp h)]

theorem size_insert : (m.insert k v).size = (m.erase k).size + 1 := by
  simp only [size, AList.entries_insert, List.length_cons]
  rfl

theorem size_insert_of_mem (h : k ∈ m) : (m.insert k v).size = m.size := by
  rw [size_insert, size_erase_of_mem h]

theorem size_insert_le : (m.insert k v).size ≤ m.size + 1 := by
  rw [size_insert]
  exact Nat.succ_le_succ (List.kerase_sublist k m.entries).length_le

-- The weight of a map is the sum of the weights of its entries. Counting the entries with some
-- property is the special case of weights 0 and 1.
def sumBy (f : κ → ν → Nat) (m : Dict κ ν) : Nat :=
  (m.entries.map fun e => f e.1 e.2).sum

omit [DecidableEq κ] in
@[simp]
theorem sumBy_empty {f : κ → ν → Nat} : (∅ : Dict κ ν).sumBy f = 0 :=
  rfl

theorem sumBy_kerase {f : κ → ν → Nat} {l : List (Sigma fun _ : κ => ν)} {v : ν}
    (h : v ∈ l.dlookup k) :
    (l.map fun e => f e.1 e.2).sum = f k v + ((l.kerase k).map fun e => f e.1 e.2).sum := by
  induction l
  case nil => simp at h
  case cons hd tl hi =>
    obtain ⟨k', v'⟩ := hd
    by_cases hk : k = k'
    case pos =>
      subst hk
      simp only [List.dlookup_cons_eq, Option.mem_def, Option.some.injEq] at h
      simp [List.kerase_cons_eq, h]
    case neg =>
      rw [List.dlookup_cons_ne _ _ hk] at h
      rw [List.kerase_cons_ne hk]
      simp only [List.map_cons, List.sum_cons, hi h]
      omega

-- Taking one entry out of the sum.
theorem sumBy_eq_add_erase {f : κ → ν → Nat} (h : m.lookup k = some v) :
    m.sumBy f = f k v + (m.erase k).sumBy f :=
  sumBy_kerase h

theorem erase_of_lookup_none (h : m.lookup k = none) : m.erase k = m :=
  AList.ext <| List.kerase_of_notMem_keys <| AList.lookup_eq_none.mp h

theorem size_insert_of_lookup_none (h : m.lookup k = none) : (m.insert k v).size = m.size + 1 := by
  rw [size_insert, erase_of_lookup_none h]

theorem entries_erase : (m.erase k).entries = m.entries.kerase k :=
  rfl

theorem sumBy_insert {f : κ → ν → Nat} :
    (m.insert k v).sumBy f = f k v + (m.erase k).sumBy f := by
  simp [sumBy, AList.entries_insert, entries_erase]

theorem sumBy_insert_of_lookup_none {f : κ → ν → Nat} (h : m.lookup k = none) :
    (m.insert k v).sumBy f = f k v + m.sumBy f := by
  rw [sumBy_insert, erase_of_lookup_none h]

-- Replacing the value of a key moves the sum by the difference of the two weights.
theorem sumBy_insert_of_lookup_some {f : κ → ν → Nat} {v' : ν} (h : m.lookup k = some v') :
    (m.insert k v).sumBy f + f k v' = f k v + m.sumBy f := by
  rw [sumBy_insert, sumBy_eq_add_erase h]
  omega

theorem sumBy_eq_zero_iff {f : κ → ν → Nat} :
    m.sumBy f = 0 ↔ ∀ k v, m.lookup k = some v → f k v = 0 := by
  simp only [sumBy, List.sum_eq_zero_iff, List.mem_map, forall_exists_index, and_imp,
    forall_apply_eq_imp_iff₂, mem_entries_iff]
  exact ⟨fun h k v hl => h ⟨k, v⟩ hl, fun h e he => h e.1 e.2 he⟩

variable {μ : Type}

-- The map with each value replaced, in the same order.
def mapEntries (f : κ → ν → μ) (m : Dict κ ν) : Dict κ μ where
  entries   := m.entries.map fun e => ⟨e.1, f e.1 e.2⟩
  nodupKeys := by
    have hn := m.nodupKeys
    rw [List.NodupKeys, List.keys] at hn ⊢
    rwa [List.map_map]

omit [DecidableEq κ] in
theorem keys_mapEntries {f : κ → ν → μ} : (m.mapEntries f).keys = m.keys := by
  simp [keys, List.keys, mapEntries, Function.comp_def]

theorem lookup_mapEntries {f : κ → ν → μ} : (m.mapEntries f).lookup k = (m.lookup k).map (f k) := by
  simp only [lookup, mapEntries]
  induction m.entries
  case nil => rfl
  case cons e es hi =>
    obtain ⟨k', v⟩ := e
    by_cases hk : k = k'
    case pos => subst hk; simp
    case neg =>
      have hne : k ≠ (⟨k', f k' v⟩ : Sigma fun _ : κ => μ).1 := hk
      rw [List.dlookup_cons_ne _ _ hk, ← hi]
      exact List.dlookup_cons_ne _ _ hne

theorem mapEntries_erase {f : κ → ν → μ} : (m.erase k).mapEntries f = (m.mapEntries f).erase k := by
  refine AList.ext ?_
  simp [mapEntries, entries_erase, List.kerase, List.eraseP_map, Function.comp_def]

theorem mapEntries_insert {f : κ → ν → μ} :
    (m.insert k v).mapEntries f = (m.mapEntries f).insert k (f k v) := by
  refine AList.ext ?_
  have he : ((m.erase k).mapEntries f).entries = ((m.mapEntries f).erase k).entries :=
    congrArg AList.entries mapEntries_erase
  simpa [mapEntries, AList.entries_insert, entries_erase] using he

theorem mapEntries_congr {f g : κ → ν → μ} (h : ∀ k v, m.lookup k = some v → f k v = g k v) :
    m.mapEntries f = m.mapEntries g := by
  refine AList.ext (List.map_congr_left ?_)
  intro e he
  rw [h e.1 e.2 (mem_entries_iff.mp he)]

omit [DecidableEq κ] in
theorem mapEntries_mapEntries {ξ : Type} {f : κ → ν → μ} {g : κ → μ → ξ} :
    (m.mapEntries f).mapEntries g = m.mapEntries fun k v => g k (f k v) :=
  AList.ext (by simp [mapEntries, Function.comp_def])

-- The entries that satisfy `p`, in the same order.
def filterEntries (p : κ → ν → Bool) (m : Dict κ ν) : Dict κ ν where
  entries   := m.entries.filter fun e => p e.1 e.2
  nodupKeys := m.nodupKeys.sublist List.filter_sublist

theorem lookup_filterEntries {p : κ → ν → Bool} :
    (m.filterEntries p).lookup k = (m.lookup k).filter (p k) := by
  refine Option.ext fun v => ?_
  rw [Option.filter_eq_some_iff, ← Option.mem_def, ← Option.mem_def, AList.mem_lookup_iff,
    AList.mem_lookup_iff]
  simp [filterEntries]

end AList
