import ShardListener.Reassembly.Theorems.Order
import ShardListener.Reassembly.Theorems.Window

namespace Reassembly

open Buffer

namespace Buffer

-- The slot of the one key was opened before that of the other one, as far as they are there.
def Before (b : Buffer) (k k' : Bytes32) : Prop :=
  ∀ s ∈ b.slots.lookup k, ∀ s' ∈ b.slots.lookup k', s.born < s'.born

instance {b : Buffer} {k k' : Bytes32} : Decidable (b.Before k k') :=
  inferInstanceAs (Decidable (∀ s ∈ _, ∀ s' ∈ _, _))

-- The order has the keys of the slots, each once, as they were opened.
def Ordered (b : Buffer) : Prop :=
  b.insertOrder.Nodup ∧ (∀ key ∈ b.insertOrder, key ∈ b.slots) ∧
    (∀ key ∈ b.slots.keys, key ∈ b.insertOrder) ∧ b.insertOrder.Pairwise b.Before

instance {b : Buffer} : Decidable b.Ordered :=
  inferInstanceAs (Decidable (_ ∧ (∀ key ∈ _, _) ∧ (∀ key ∈ _, _) ∧ _))

-- One slot is gone, the one that was opened before all others.
def FirstOut (b b' : Buffer) : Prop :=
  ∃ e ∈ b.slots.entries, e.1 ∉ b'.slots ∧
    ∀ e' ∈ b.slots.entries, e'.1 ≠ e.1 → e.2.born < e'.2.born ∧ e'.1 ∈ b'.slots

instance {b b' : Buffer} : Decidable (FirstOut b b') :=
  inferInstanceAs (Decidable (∃ e ∈ _, _ ∧ ∀ e' ∈ _, _ → _ ∧ _))

end Buffer

variable {ω : Type}

-- A step, with the time of the last one.
def clocked (fmt : Formats) (cfg : Config) (h : Hooks ω) (q : (Buffer × ω) × Time) (op : Op) :
    (Buffer × ω) × Time :=
  (step fmt cfg h q.1 op, op.time.getD q.2)

-- The times increase.
def Later (q : (Buffer × ω) × Time) (op : Op) : Prop :=
  ∀ now ∈ op.time, q.2 < now

instance {q : (Buffer × ω) × Time} {op : Op} : Decidable (Later q op) :=
  inferInstanceAs (Decidable (∀ now ∈ op.time, _))

-- The order is that of the slots after every sweep, and a slot that is opened when the table is
-- full takes the place of the oldest one.
def Evicts (fmt : Formats) (cfg : Config) (h : Hooks ω) (q : (Buffer × ω) × Time) : Op → Prop
  | .observe i ff =>
    let p := sweepIfDue cfg h i q.1
    (sweepEvery cfg ≤ Time.sub i.now q.1.1.lastEvict → p.1.Ordered) ∧
      (p.1.slots.lookup (slotKey fmt ff) = none → Opens fmt cfg p.1 ff →
        cfg.maxSlots ≤ p.1.slots.size →
          FirstOut p.1 (openSlot cfg h i (slotKey fmt ff) ff p).1)
  | .tick i => (evictExpired cfg h i q.1).1.Ordered
  | .purge  => True

-- A slot is opened only for a key that is not in the order.
def Unlisted (fmt : Formats) (cfg : Config) (h : Hooks ω) (q : (Buffer × ω) × Time) : Op → Prop
  | .observe i ff =>
    let b := (sweepIfDue cfg h i q.1).1
    b.slots.lookup (slotKey fmt ff) = none → Opens fmt cfg b ff → slotKey fmt ff ∉ b.insertOrder
  | _ => True

variable {fmt : Formats} {cfg : Config} {h : Hooks ω} {i : Instant} {ff : FragFrame} {b b' : Buffer}
variable {p : Buffer × ω} {q : (Buffer × ω) × Time} {op : Op} {key : Bytes32} {t now : Time}
variable {s : Slot}

instance : DecidablePred (Unlisted fmt cfg h q)
  | .observe .. => inferInstanceAs (Decidable (_ = none → _ → _ ∉ _))
  | .tick _     => .isTrue trivial
  | .purge      => .isTrue trivial

instance : DecidablePred (Evicts fmt cfg h q)
  | .observe .. => inferInstanceAs (Decidable ((_ → _) ∧ (_ = none → _ → _ → _)))
  | .tick _     => inferInstanceAs (Decidable (Buffer.Ordered _))
  | .purge      => .isTrue trivial

namespace Buffer

-- No slot was opened after the time `t`, and the order is that of the opening.
structure Chronological (t : Time) (b : Buffer) : Prop where
  keyed  : b.Keyed
  listed : b.Listed
  nodup  : b.insertOrder.Nodup
  sorted : b.insertOrder.Pairwise b.Before
  past   : b.All fun _ s => s.born ≤ t

-- Every slot was there before, opened at the same time.
def Ages (b b' : Buffer) : Prop :=
  ∀ k s', b'.slots.lookup k = some s' → ∃ s, b.slots.lookup k = some s ∧ s.born = s'.born

theorem Ages.before {k k' : Bytes32} (ha : b.Ages b') (hb : b.Before k k') : b'.Before k k' := by
  intro s hs s' hs'
  have ⟨r, hr, e⟩ := ha k s hs
  have ⟨r', hr', e'⟩ := ha k' s' hs'
  rw [← e, ← e']
  exact hb r hr r' hr'

theorem ages_of_outlives (ho : ∀ k, Outlives (b.slots.lookup k) (b'.slots.lookup k)) :
    b.Ages b' := by
  intro k s' hl
  have ⟨s, hl, _, _, _, e⟩ := ho k s' hl
  exact ⟨s, hl, by rw [e]⟩

theorem accept_ages (hl : p.1.slots.lookup s.key = some s) :
    p.1.Ages (accept fmt cfg h i ff p s).1 := by
  intro k s' hl'
  rcases lookup_accept hl' with ⟨hl', _⟩ | ⟨e, _, _, size, _, e'⟩
  case inl => exact ⟨s', hl', rfl⟩
  case inr =>
    have ⟨_, _, er⟩ := s.receive_eq size ff
    exact ⟨s, e ▸ hl, by rw [e', er]⟩

namespace Chronological

theorem empty : Chronological t { lastEvict := now } where
  keyed  := nofun
  listed := nofun
  nodup  := List.nodup_nil
  sorted := .nil
  past   := nofun

theorem mono (hc : b.Chronological t) (ha : b.Ages b') (hs : b'.insertOrder.Sublist b.insertOrder)
    (hl : b'.Listed) (hkd : b'.Keyed) (ht : t ≤ now) : b'.Chronological now where
  keyed  := hkd
  listed := hl
  nodup  := hs.nodup hc.nodup
  sorted := (hc.sorted.sublist hs).imp fun hb => ha.before hb
  past   := by
    intro k s' hl
    have ⟨s, hl, e⟩ := ha k s' hl
    exact e ▸ (hc.past k s hl).trans ht

theorem evictExpired (hc : p.1.Chronological t) (ht : t ≤ now) :
    (evictExpired cfg h i p).1.Chronological now := by
  refine hc.mono (ages_of_outlives fun _ => evictExpired_outlives) ?_ hc.listed.evictExpired
    (hc.keyed.sweep fun _ => evictExpired_outlives) ht
  rw [evictExpired_insertOrder]
  exact List.filter_sublist

theorem sweepIfDue (hc : p.1.Chronological t) : (sweepIfDue cfg h i p).1.Chronological t := by
  simp only [Buffer.sweepIfDue]
  split
  case isTrue =>
    have hc : (Buffer.evictExpired cfg h i p).1.Chronological t := hc.evictExpired le_rfl
    exact ⟨hc.keyed, hc.listed, hc.nodup, hc.sorted, hc.past⟩
  case isFalse => exact hc

theorem accept (hc : p.1.Chronological t) (hl : p.1.slots.lookup s.key = some s) (ht : t ≤ now) :
    (accept fmt cfg h i ff p s).1.Chronological now := by
  refine hc.mono (accept_ages hl) ?_ ?_ ?_ ht
  case refine_1 => rw [accept_insertOrder]
  case refine_2 => exact hc.listed.accept (AList.mem_iff_lookup.mpr ⟨s, hl⟩)
  case refine_3 => exact All.accept (fun _ => Slot.receive_key) hc.keyed

theorem roomy (hc : b.Chronological t) : (roomy cfg b).Chronological t := by
  rcases roomy_cases cfg b with e | ⟨key, _, _, e⟩
  case inl => rwa [e]
  case inr =>
    rw [e]
    exact hc.mono (ages_of_outlives fun _ => removeSlot_outlives) List.erase_sublist hc.listed.evict
      hc.keyed.removeSlot le_rfl

-- A new slot is the last one.
theorem openSlot (hc : p.1.Chronological t) (hn : key ∉ p.1.insertOrder) (ht : t < i.now) :
    (openSlot cfg h i key ff p).1.Chronological i.now := by
  have hr : (Buffer.roomy cfg p.1).Chronological t := hc.roomy
  have hsub : (Buffer.roomy cfg p.1).insertOrder.Sublist p.1.insertOrder := by
    rcases roomy_cases cfg p.1 with e | ⟨key, _, _, e⟩
    case inl => rw [e]
    case inr => rw [e]; exact List.erase_sublist
  have hn : key ∉ (Buffer.roomy cfg p.1).insertOrder := fun hm => hn (hsub.subset hm)
  refine ⟨hc.keyed.openSlot rfl, hc.listed.openSlot, ?_, ?_, ?_⟩
  all_goals rw [openSlot_fst]
  case refine_1 => exact Fifo.nodup_snoc hr.nodup hn
  case refine_2 =>
    refine List.pairwise_append.mpr ⟨?_, List.pairwise_singleton _ _, ?_⟩
    case refine_1 =>
      refine hr.sorted.imp_of_mem fun {k k'} hk hk' hb => ?_
      have hne : k ≠ key := fun e => hn (e ▸ hk)
      have hne' : k' ≠ key := fun e => hn (e ▸ hk')
      simpa only [Before, lookup_putSlot, if_neg hne, if_neg hne'] using hb
    case refine_2 =>
      intro k hk k' hk' s hs s' hs'
      have hne : k ≠ key := fun e => hn (e ▸ hk)
      rw [List.mem_singleton.mp hk'] at hs'
      simp only [lookup_putSlot, if_neg hne, if_true] at hs hs'
      cases hs'
      exact (hr.past k s hs).trans_lt ht
  case refine_3 =>
    have hpast : (Buffer.roomy cfg p.1).All fun _ s => s.born ≤ i.now :=
      fun k s hl => (hr.past k s hl).trans ht.le
    exact hpast.putSlot le_rfl

theorem gather (hc : p.1.Chronological t) (ht : t < i.now)
    (hu : p.1.slots.lookup (slotKey fmt ff) = none → Opens fmt cfg p.1 ff →
      slotKey fmt ff ∉ p.1.insertOrder) :
    (gather fmt cfg h i ff p).1.Chronological i.now := by
  cases hl : p.1.slots.lookup (slotKey fmt ff)
  case some s =>
    rw [gather_slot ff hl]
    exact hc.accept (by rwa [hc.keyed _ s hl]) ht.le
  case none =>
    by_cases ho : Opens fmt cfg p.1 ff
    case neg =>
      rw [gather_ignoring hl ho]
      exact ⟨hc.keyed, hc.listed, hc.nodup, hc.sorted, fun k s hl => (hc.past k s hl).trans ht.le⟩
    case pos =>
      rw [gather_opening hl ho]
      refine (hc.openSlot (hu hl ho) ht).accept ?_ le_rfl
      rw [openSlot_fst]
      exact AList.lookup_insert _

theorem ordered (hc : p.1.Chronological t) : (Buffer.evictExpired cfg h i p).1.Ordered := by
  have hc : (Buffer.evictExpired cfg h i p).1.Chronological t := hc.evictExpired le_rfl
  refine ⟨hc.nodup, fun key hm => ?_,
    fun key hm => hc.listed key (AList.mem_keys.mpr hm), hc.sorted⟩
  rw [evictExpired_insertOrder, List.mem_filter] at hm
  exact of_decide_eq_true hm.2

-- The first key in the order that has a slot is that of the oldest slot.
theorem oldest_born {s' : Slot} {k : Bytes32} (hc : b.Chronological t) (ho : b.oldest = some key)
    (hs : b.slots.lookup key = some s) (hs' : b.slots.lookup k = some s') (hne : k ≠ key) :
    s.born < s'.born := by
  have ⟨_, older, newer, e, hold⟩ := List.find?_eq_some_iff_append.mp ho
  have hk := AList.mem_iff_lookup.mpr ⟨s', hs'⟩
  have hm := hc.listed k hk
  have hsorted := hc.sorted
  rw [e] at hm hsorted
  have hnew : k ∈ newer := by
    rcases List.mem_append.mp hm with hm | hm
    case inl => simpa [hk] using hold k hm
    case inr => exact (List.mem_cons.mp hm).resolve_left hne
  exact (List.pairwise_cons.mp (List.pairwise_append.mp hsorted).2.1).1 k hnew s hs s' hs'

theorem firstOut (hc : p.1.Chronological t) (hpos : 0 < cfg.maxSlots)
    (hl : p.1.slots.lookup key = none) (hfull : cfg.maxSlots ≤ p.1.slots.size) :
    FirstOut p.1 (Buffer.openSlot cfg h i key ff p).1 := by
  have ⟨k, ho⟩ := hc.listed.exists_oldest (hpos.trans_le hfull)
  have ⟨s, hs⟩ := AList.mem_iff_lookup.mp (oldest_mem ho).1
  have hroomy : Buffer.roomy cfg p.1 = p.1.evict k := by
    simp only [Buffer.roomy, if_pos hfull, ho, Option.map_some, Option.getD_some]
  have hne : k ≠ key := by
    intro e
    rw [e, hl] at hs
    cases hs
  have hgone : ∀ k', k' ∈ (Buffer.openSlot cfg h i key ff p).1.slots ↔
      k' = key ∨ k' ≠ k ∧ k' ∈ p.1.slots := by
    intro k'
    rw [openSlot_fst, hroomy]
    exact (AList.mem_insert _).trans (or_congr_right AList.mem_erase)
  refine ⟨⟨k, s⟩, AList.mem_entries_iff.mpr hs, ?_, fun e' he' hne' => ⟨?_, ?_⟩⟩
  case refine_1 => simp [hgone, hne]
  case refine_2 => exact hc.oldest_born ho hs (AList.mem_entries_iff.mp he') hne'
  case refine_3 =>
    have hm := AList.mem_iff_lookup.mpr ⟨_, AList.mem_entries_iff.mp he'⟩
    exact (hgone _).mpr (.inr ⟨hne', hm⟩)

end Chronological
end Buffer

-- The order is that of the opening, up to the time of the last step.
def InOrder (q : (Buffer × ω) × Time) : Prop :=
  q.1.1.Chronological q.2

namespace InOrder

theorem step (hq : InOrder q) (hl : Later q op) (hu : Unlisted fmt cfg h q op) :
    InOrder (clocked fmt cfg h q op) := by
  cases op
  case observe i ff => exact hq.sweepIfDue.gather (hl i.now rfl) hu
  case tick i       => exact hq.evictExpired (hl i.now rfl).le
  case purge        => exact .empty

theorem evicts (hpos : 0 < cfg.maxSlots) (hq : InOrder q) : Evicts fmt cfg h q op := by
  cases op
  case observe i ff =>
    refine ⟨fun hdue => ?_, fun hl _ hfull => hq.sweepIfDue.firstOut hpos hl hfull⟩
    have ho : (evictExpired cfg h i q.1).1.Ordered := hq.ordered
    simp only [sweepIfDue, if_pos hdue]
    exact ho
  case tick i => exact hq.ordered
  case purge  => trivial

end InOrder

-- In every run in which no slot is opened for a key that is still in the order: the capacity
-- eviction takes the oldest slot, and every sweep leaves the keys of the slots in the order of
-- their opening.
theorem evicts_of_unlisted {ops : List Op} {w : ω} {t : Time} (hpos : 0 < cfg.maxSlots)
    (hl : Run.Along (clocked fmt cfg h) Later (({}, w), t) ops)
    (hu : Run.Along (clocked fmt cfg h) (Unlisted fmt cfg h) (({}, w), t) ops) :
    Run.Along (clocked fmt cfg h) (Evicts fmt cfg h) (({}, w), t) ops := by
  have h₀ : InOrder ((({}, w), t) : (Buffer × ω) × Time) := .empty
  exact Run.along_of_preserved (D := fun _ => True) (fun q op hq _ hp => hq.step hp.1 hp.2)
    (fun q op hq _ _ => hq.evicts hpos) h₀ (fun _ _ => trivial) (hl.and hu)

-- A fragment with the index `j` of an object of six bytes in three fragments.
def piece (c : UInt8) (now : Time) (j : Nat) (data : Bytes) : Op :=
  .observe ⟨now, fun _ => 0⟩ ⟨.fill c, .zero, 5, j + 1, j, 3, 6, FrameVer.v2, 0, data⟩

theorem evicts_first_of_three :
    Run.Along (clocked lastByte (.new 2 0 true) Hooks.none)
      (Evicts lastByte (.new 2 0 true) Hooks.none) (({}, ()), 0)
      [piece 1 1 0 [1, 2], piece 2 2 0 [3, 4], piece 3 3 0 [5, 6], .tick ⟨4, fun _ => 0⟩] :=
  evicts_of_unlisted (by decide) (by decide +kernel) (by decide +kernel)

-- A fragment of another length drops the slot 1, and the next one opens it again. Its key is still
-- the first one in the order, so that it is evicted in place of the older slot 2.
theorem reopened_not_evicts :
    let ops := [piece 1 1 0 [1, 2], piece 2 2 0 [3, 4], piece 1 3 1 [5], piece 1 4 0 [1, 2],
      piece 3 5 0 [7, 8]]
    Run.Along (clocked lastByte (.new 2 0 true) Hooks.none) Later (({}, ()), 0) ops ∧
      ¬Run.Along (clocked lastByte (.new 2 0 true) Hooks.none)
        (Evicts lastByte (.new 2 0 true) Hooks.none) (({}, ()), 0) ops := by
  decide +kernel

end Reassembly
