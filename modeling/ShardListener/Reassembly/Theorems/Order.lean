import ShardListener.Reassembly.Theorems.Gather

-- The order in which the slots were opened, and the room in the table.
namespace Reassembly.Buffer

variable {ω : Type} {fmt : Formats} {cfg : Config} {h : Hooks ω} {i : Instant} {ff : FragFrame}
variable {b : Buffer} {p q : Buffer × ω} {k key : Bytes32} {keys : List Bytes32} {s : Slot}

@[simp]
theorem sweepDone_insertOrder : (b.sweepDone i.now).insertOrder = b.insertOrder := by
  unfold sweepDone
  split <;> rfl

@[simp]
theorem markDone_insertOrder {now : Time} :
    (b.markDone cfg now key).insertOrder = b.insertOrder := by
  rw [markDone_eq]

theorem foldl_expire_insertOrder :
    (keys.foldl (expire cfg h i) p).1.insertOrder = p.1.insertOrder := by
  induction keys generalizing p
  case nil            => rfl
  case cons key ks hi => exact hi.trans expire_turn.insertOrder

-- A sweep leaves the keys of the slots that are still there in the order.
theorem evictExpired_insertOrder :
    (evictExpired cfg h i p).1.insertOrder =
      p.1.insertOrder.filter (· ∈ (evictExpired cfg h i p).1.slots) := by
  have e : (p.1.insertOrder.foldl (expire cfg h i) (p.1.sweepDone i.now, p.2)).1.insertOrder =
      (p.1.sweepDone i.now).insertOrder := foldl_expire_insertOrder
  simp only [evictExpired, compact, e, sweepDone_insertOrder]

theorem accept_insertOrder : (accept fmt cfg h i ff p s).1.insertOrder = p.1.insertOrder := by
  rcases accept_cases fmt cfg h i ff p s with ⟨e, _⟩ | ⟨e, _⟩ | ⟨size, _, _, ⟨e, _⟩ | ⟨e, _⟩⟩
  case inl         => rw [e]
  case inr.inl     => rw [e]; rfl
  case inr.inr.inl => rw [e]; rfl
  case inr.inr.inr => rw [e, complete_fst, removeSlot, markDone_insertOrder]

-- A fragment leaves no slot behind that it has not found or opened.
theorem mem_accept (hs : s.key ∈ p.1.slots) (hk : k ∈ (accept fmt cfg h i ff p s).1.slots) :
    k ∈ p.1.slots := by
  have ⟨s', hl⟩ := AList.mem_iff_lookup.mp hk
  rcases lookup_accept hl with ⟨hl, _⟩ | ⟨e, _⟩
  case inl => exact AList.mem_iff_lookup.mpr ⟨s', hl⟩
  case inr => exact e ▸ hs

theorem size_removeSlot (hl : b.slots.lookup key = some s) :
    (b.removeSlot key).slots.size + 1 = b.slots.size :=
  AList.size_erase_of_mem (AList.mem_iff_lookup.mpr ⟨s, hl⟩)

theorem size_putSlot {s' : Slot} (hl : b.slots.lookup key = some s) :
    (b.putSlot key s').slots.size = b.slots.size :=
  AList.size_insert_of_mem (AList.mem_iff_lookup.mpr ⟨s, hl⟩)

-- The slot that the capacity eviction takes.
def oldest (b : Buffer) : Option Bytes32 :=
  b.insertOrder.find? (· ∈ b.slots)

-- The buffer without the slot `key`, one occurrence of which goes out of the order.
def evict (b : Buffer) (key : Bytes32) : Buffer :=
  { b.removeSlot key with insertOrder := b.insertOrder.erase key }

theorem oldest_mem (ho : b.oldest = some key) : key ∈ b.slots ∧ key ∈ b.insertOrder :=
  ⟨by simpa using List.find?_some ho, List.mem_of_find?_eq_some ho⟩

theorem evictOldest_fst : (evictOldest h p).1 = (p.1.oldest.map p.1.evict).getD p.1 := by
  simp only [evictOldest, oldest]
  split
  case h_1 hn => rw [hn]; rfl
  case h_2 hs => rw [hs]; rfl

-- The buffer in which a slot is opened.
def roomy (cfg : Config) (b : Buffer) : Buffer :=
  if cfg.maxSlots ≤ b.slots.size then (b.oldest.map b.evict).getD b else b

theorem openSlot_fst :
    (openSlot cfg h i key ff p).1 =
      { (roomy cfg p.1).putSlot key (newSlot cfg h i key ff) with
        insertOrder := (roomy cfg p.1).insertOrder ++ [key] } := by
  simp only [openSlot, roomy]
  split
  case isTrue  => rw [evictOldest_fst]; rfl
  case isFalse => rfl

theorem roomy_cases (cfg : Config) (b : Buffer) :
    roomy cfg b = b ∨ ∃ key, b.oldest = some key ∧ cfg.maxSlots ≤ b.slots.size ∧
      roomy cfg b = b.evict key := by
  simp only [roomy]
  split
  case isFalse => exact .inl rfl
  case isTrue hfull =>
    cases ho : b.oldest
    case none     => exact .inl rfl
    case some key => exact .inr ⟨key, rfl, hfull, rfl⟩

theorem size_openSlot (hl : p.1.slots.lookup key = none) :
    (openSlot cfg h i key ff p).1.slots.size = (roomy cfg p.1).slots.size + 1 := by
  rw [openSlot_fst]
  refine AList.size_insert_of_lookup_none ?_
  rcases roomy_cases cfg p.1 with e | ⟨k, _, _, e⟩
  case inl => rwa [e]
  case inr =>
    rw [e]
    refine Option.eq_none_iff_forall_ne_some.mpr fun s hs => ?_
    have ⟨_, hs, _⟩ := removeSlot_outlives s hs
    cases hl.symm.trans hs

-- Every slot has its place in the order.
def Listed (b : Buffer) : Prop :=
  ∀ key ∈ b.slots, key ∈ b.insertOrder

namespace Listed

theorem evictExpired (hb : p.1.Listed) : (evictExpired cfg h i p).1.Listed := by
  intro key hm
  have ⟨s', hl⟩ := AList.mem_iff_lookup.mp hm
  have ⟨s, hl, _⟩ := evictExpired_outlives s' hl
  rw [evictExpired_insertOrder, List.mem_filter]
  exact ⟨hb key (AList.mem_iff_lookup.mpr ⟨s, hl⟩), decide_eq_true hm⟩

theorem sweepIfDue (hb : p.1.Listed) : (sweepIfDue cfg h i p).1.Listed := by
  simp only [Buffer.sweepIfDue]
  split
  case isTrue  => exact hb.evictExpired
  case isFalse => exact hb

theorem accept (hb : p.1.Listed) (hs : s.key ∈ p.1.slots) :
    (accept fmt cfg h i ff p s).1.Listed := by
  intro key hm
  rw [accept_insertOrder]
  exact hb key (mem_accept hs hm)

theorem evict (hb : b.Listed) : (b.evict key).Listed := by
  intro k hm
  have ⟨hne, hm⟩ := AList.mem_erase.mp hm
  exact (List.mem_erase_of_ne hne).mpr (hb k hm)

theorem roomy (hb : b.Listed) : (roomy cfg b).Listed := by
  rcases roomy_cases cfg b with e | ⟨key, _, _, e⟩
  case inl => rwa [e]
  case inr => rw [e]; exact hb.evict

theorem openSlot (hb : p.1.Listed) : (openSlot cfg h i key ff p).1.Listed := by
  rw [openSlot_fst]
  intro k hm
  rcases (AList.mem_insert _).mp hm with e | hm
  case inl => exact List.mem_append_right _ (List.mem_singleton.mpr e)
  case inr => exact List.mem_append_left _ (hb.roomy k hm)

theorem gather (hb : p.1.Listed) (hkd : p.1.Keyed) : (gather fmt cfg h i ff p).1.Listed := by
  cases hl : p.1.slots.lookup (slotKey fmt ff)
  case some s =>
    rw [gather_slot ff hl]
    exact hb.accept (AList.mem_iff_lookup.mpr ⟨s, by rwa [hkd _ s hl]⟩)
  case none =>
    by_cases ho : Opens fmt cfg p.1 ff
    case neg => rwa [gather_ignoring hl ho]
    case pos =>
      rw [gather_opening hl ho]
      refine hb.openSlot.accept ?_
      rw [openSlot_fst]
      exact (AList.mem_insert _).mpr (.inl rfl)

-- A table with slots has an oldest one.
theorem exists_oldest (hb : b.Listed) (hs : 0 < b.slots.size) : ∃ key, b.oldest = some key := by
  refine Option.isSome_iff_exists.mp (List.find?_isSome.mpr ?_)
  have hne : b.slots.keys ≠ [] := by
    intro e
    rw [AList.size_eq_length_keys, e] at hs
    cases hs
  have ⟨key, hk⟩ := List.exists_mem_of_ne_nil _ hne
  have hk := AList.mem_keys.mpr hk
  exact ⟨key, hb key hk, decide_eq_true hk⟩

theorem size_roomy (hb : b.Listed) (hpos : 0 < cfg.maxSlots) (hs : b.slots.size ≤ cfg.maxSlots) :
    (Buffer.roomy cfg b).slots.size < cfg.maxSlots := by
  simp only [Buffer.roomy]
  split
  case isFalse hn => exact not_le.mp hn
  case isTrue hfull =>
    have ⟨key, ho⟩ := hb.exists_oldest (hpos.trans_le hfull)
    have hsize : (b.slots.erase key).size + 1 = b.slots.size :=
      AList.size_erase_of_mem (oldest_mem ho).1
    simp only [ho, Option.map_some, Option.getD_some]
    exact lt_of_lt_of_le (Nat.lt_of_succ_le hsize.le) hs

-- A new slot does not make the table exceed its capacity.
theorem size_gather (hb : p.1.Listed) (hkd : p.1.Keyed) (hpos : 0 < cfg.maxSlots)
    (hs : p.1.slots.size ≤ cfg.maxSlots) :
    (Buffer.gather fmt cfg h i ff p).1.slots.size ≤ cfg.maxSlots := by
  cases hl : p.1.slots.lookup (slotKey fmt ff)
  case some s =>
    have hmem : s.key ∈ p.1.slots := AList.mem_iff_lookup.mpr ⟨s, by rwa [hkd _ s hl]⟩
    rw [gather_slot ff hl]
    exact (AList.size_le_of_mem fun _ hk => mem_accept hmem hk).trans hs
  case none =>
    by_cases ho : Opens fmt cfg p.1 ff
    case neg => rwa [gather_ignoring hl ho]
    case pos =>
      have hopen : (Buffer.openSlot cfg h i (slotKey fmt ff) ff p).1.slots.size ≤ cfg.maxSlots := by
        rw [openSlot_fst]
        exact AList.size_insert_le.trans (hb.size_roomy hpos hs)
      have hmem : slotKey fmt ff ∈ (Buffer.openSlot cfg h i (slotKey fmt ff) ff p).1.slots := by
        rw [openSlot_fst]
        exact (AList.mem_insert _).mpr (.inl rfl)
      rw [gather_opening hl ho]
      exact (AList.size_le_of_mem fun _ hk => mem_accept hmem hk).trans hopen

end Listed

end Reassembly.Buffer
