import ShardListener.Dedup.Set

namespace Dedup.Set

variable {s : Set} {now : Time} {key k : Key}

theorem mem_of_seen (h : s.seen now key = true) : key ∈ s.entries := by
  unfold seen at h
  split at h
  case h_1      => cases h
  case h_2 hexp => exact AList.mem_iff_lookup.mpr ⟨_, hexp⟩

-- A key is reported as a duplicate only if it is remembered.
theorem mem_of_seenAndAdd (h : (s.seenAndAdd now key).1 = true) : key ∈ s.entries := by
  unfold seenAndAdd at h
  split at h
  case isTrue => cases h
  case isFalse =>
    split at h
    case isTrue hseen => exact mem_of_seen hseen
    case isFalse      => cases h

theorem mem_add (h : k ∈ (s.add now key).entries) : k ∈ s.entries ∨ k = key := by
  rcases (AList.mem_insert _).mp h with e | hm
  case inl => exact .inr e
  case inr =>
    split at hm
    case isTrue  => exact .inl (AList.mem_erase.mp hm).2
    case isFalse => exact .inl hm

-- What is remembered afterwards was so before, or is the key itself, which was not a duplicate.
theorem mem_seenAndAdd (h : k ∈ (s.seenAndAdd now key).2.entries) :
    k ∈ s.entries ∨ k = key ∧ (s.seenAndAdd now key).1 = false := by
  unfold seenAndAdd at h ⊢
  split at h
  case isTrue => exact .inl h
  case isFalse hcap =>
    rw [if_neg hcap]
    split at h
    case isTrue hseen =>
      rcases (AList.mem_insert _).mp h with e | hm
      case inl => exact .inl (e ▸ mem_of_seen hseen)
      case inr => exact .inl hm
    case isFalse hseen =>
      rcases mem_add h with hm | e
      case inl => exact .inl hm
      case inr => exact .inr ⟨e, by rw [if_neg hseen]⟩

theorem not_mem_new {capacity : Int} {ttl : Duration} : k ∉ (new capacity ttl).entries := by
  unfold new
  split <;> exact AList.notMem_empty k

-- The set has room for `n` more keys, and none of its entries expires at the times in `T`.
structure Ample (T : Time → Prop) (n : ℕ) (s : Set) : Prop where
  room : s.count + n ≤ s.capacity
  live : ∀ k exp, s.entries.lookup k = some exp → ∀ now, T now → s.ttl ≤ 0 ∨ now ≤ exp
  span : ∀ now now', T now → T now' → s.ttl ≤ 0 ∨ now' ≤ toInt64 (now + s.ttl)

namespace Ample

variable {T : Time → Prop} {n : ℕ}

theorem capacity_ne (ha : Ample T (n + 1) s) : s.capacity ≠ 0 := by
  have := ha.room
  omega

theorem count_ne (ha : Ample T (n + 1) s) : s.count ≠ s.capacity := by
  have := ha.room
  omega

theorem seen_iff (ha : Ample T n s) (ht : T now) : s.seen now key = true ↔ key ∈ s.entries := by
  refine ⟨mem_of_seen, ?_⟩
  intro hm
  have ⟨exp, he⟩ := AList.mem_iff_lookup.mp hm
  simpa [seen, he] using ha.live key exp he now ht

theorem live_expiry (ha : Ample T n s) (ht : T now) {now' : Time} (ht' : T now') :
    s.ttl ≤ 0 ∨ now' ≤ s.expiry now := by
  simp only [expiry]
  split
  case isTrue  => exact ha.span now now' ht ht'
  case isFalse h => exact .inl (not_lt.mp h)

theorem seenAndAdd_fst (ha : Ample T (n + 1) s) (ht : T now) :
    (s.seenAndAdd now key).1 = true ↔ key ∈ s.entries := by
  rw [← ha.seen_iff ht]
  simp only [seenAndAdd, if_neg ha.capacity_ne]
  split
  case isTrue h  => simp [h]
  case isFalse h => simp [h]

theorem of_succ (ha : Ample T (n + 1) s) : Ample T n s :=
  { ha with room := (Nat.le_succ _).trans ha.room }

-- With room left, a key is added and none is evicted.
theorem seenAndAdd_entries (ha : Ample T (n + 1) s) :
    (s.seenAndAdd now key).2.entries = s.entries.insert key (s.expiry now) := by
  simp only [seenAndAdd, if_neg ha.capacity_ne]
  split
  case isTrue  => rfl
  case isFalse => simp only [add, if_neg ha.count_ne]; rfl

theorem seenAndAdd (ha : Ample T (n + 1) s) (ht : T now) : Ample T n (s.seenAndAdd now key).2 := by
  have hf : (s.seenAndAdd now key).2.capacity = s.capacity ∧
      (s.seenAndAdd now key).2.ttl = s.ttl ∧ (s.seenAndAdd now key).2.count ≤ s.count + 1 := by
    simp only [Set.seenAndAdd, if_neg ha.capacity_ne]
    split
    case isTrue  => exact ⟨rfl, rfl, Nat.le_succ _⟩
    case isFalse => simp [add, ha.count_ne]
  have ⟨hcap, httl, hcount⟩ := hf
  constructor
  case room => have := ha.room; omega
  case live =>
    intro k exp hk t ht'
    rw [ha.seenAndAdd_entries, AList.lookup_insert_eq_ite] at hk
    rw [httl]
    split at hk
    case isTrue  => cases hk; exact ha.live_expiry ht ht'
    case isFalse => exact ha.live k exp hk t ht'
  case span => rw [httl]; exact ha.span

theorem new {capacity : Int} {ttl : Duration} (hc : (n : Int) ≤ capacity)
    (hs : ∀ now now', T now → T now' → ttl ≤ 0 ∨ now' ≤ toInt64 (now + ttl)) :
    Ample T n (.new capacity ttl) := by
  simp only [Set.new]
  split
  case isTrue h =>
    refine ⟨?_, ?_, ?_⟩
    case refine_1 => dsimp only; omega
    case refine_2 => exact fun _ _ hk => nomatch hk
    case refine_3 => exact fun _ _ _ _ => .inl le_rfl
  case isFalse h =>
    refine ⟨?_, ?_, hs⟩
    case refine_1 => dsimp only; omega
    case refine_2 => exact fun _ _ hk => nomatch hk

end Ample
end Dedup.Set
