import ShardListener.Reassembly.Object

namespace Reassembly

namespace Delivery

def hashKey : Delivery → HashKey
  | tx f          => f.hashKey
  | block f       => f.hashKey
  | subtreeData f => f.hashKey
  | beef f        => f.hashKey

def seqNum : Delivery → SeqNum
  | tx f          => f.seqNum
  | block f       => f.seqNum
  | subtreeData f => f.seqNum
  | beef f        => f.seqNum

end Delivery

namespace Slot

-- The frame of an object is stamped with the HashKey and the SeqNum of the slot, those of its first
-- fragment.
theorem delivery_stamp {s : Slot} {payload : Bytes} :
    (s.delivery payload).hashKey = s.hashKey ∧ (s.delivery payload).seqNum = s.seqNum := by
  unfold delivery
  split
  case isTrue => exact ⟨rfl, rfl⟩
  case isFalse =>
    split
    case isTrue => exact ⟨rfl, rfl⟩
    case isFalse => split <;> exact ⟨rfl, rfl⟩

variable {o : Object} {got : Finset Nat} {s : Slot} {j : Nat} {data buf : Bytes}
variable {fs : List EarlyFrag}

-- The bytes of the fragments in `got`, in the buffer or waiting for it.
def Contents (o : Object) (got : Finset Nat) (s : Slot) : Prop :=
  match s.payload with
  | some buf => Filled o got buf
  | none     =>
    (∀ f ∈ s.early, f.index < o.total ∧ f.data = o.chunk f.index) ∧
      (s.early.map EarlyFrag.index).toFinset = got

theorem store_eq :
    ∃ payload early, s.store j data = { s with payload := payload, early := early } := by
  unfold store
  split
  case h_1 => exact ⟨_, _, rfl⟩
  case h_2 =>
    dsimp only
    split
    case isTrue  => exact ⟨_, _, rfl⟩
    case isFalse => exact ⟨_, _, rfl⟩

-- Everything but the bytes is known of a slot that has taken a fragment.
theorem receive_eq (s : Slot) (size : Nat) (ff : FragFrame) :
    ∃ payload early, s.receive size ff =
      { s with
        fragSize := size, payload := payload, early := early
        held := s.held.set ff.fragIndex true, fragSeq := s.fragSeq.set ff.fragIndex ff.seqNum
        received := s.received + 1 } := by
  have ⟨payload, early, e⟩ : ∃ payload early,
      { s with fragSize := size }.store ff.fragIndex ff.fragData =
        { s with fragSize := size, payload := payload, early := early } := store_eq
  exact ⟨payload, early, by rw [receive, e]⟩

theorem receive_key {s : Slot} {size : Nat} {ff : FragFrame} : (s.receive size ff).key = s.key := by
  have ⟨_, _, e⟩ := s.receive_eq size ff
  rw [e]

theorem delivery_receive_stamp (s : Slot) (size : Nat) (ff : FragFrame) (payload : Bytes) :
    ((s.receive size ff).delivery payload).hashKey = s.hashKey ∧
      ((s.receive size ff).delivery payload).seqNum = s.seqNum := by
  have ⟨_, _, e⟩ := s.receive_eq size ff
  rw [e]
  exact delivery_stamp

theorem foldl_place_filled (hb : Filled o got buf)
    (hf : ∀ f ∈ fs, f.index < o.total ∧ f.data = o.chunk f.index) :
    Filled o (got ∪ (fs.map EarlyFrag.index).toFinset) (fs.foldl (place o.stride) buf) := by
  induction fs generalizing got buf
  case nil => simpa using hb
  case cons f fs hi =>
    have ⟨hlt, hd⟩ := hf f List.mem_cons_self
    have hp := hb.place hlt
    rw [← hd] at hp
    have hr := hi hp fun g hg => hf g (List.mem_cons_of_mem _ hg)
    rw [List.map_cons, List.toFinset_cons, Finset.union_insert, ← Finset.insert_union]
    exact hr

theorem Contents.assembled (hc : s.Contents o got) (hp : s.payload = none)
    (hs : s.fragSize = o.stride) (hl : s.origPayloadLen = o.payload.length) :
    Filled o got s.assembled := by
  simp only [Contents, hp] at hc
  have hf := foldl_place_filled Filled.zeros hc.1
  rw [hc.2, Finset.empty_union] at hf
  simp only [Slot.assembled, hs, hl]
  exact hf

-- The buffer a slot is completed with.
theorem Contents.filled (hc : s.Contents o got) (hs : s.fragSize = o.stride)
    (hl : s.origPayloadLen = o.payload.length) : Filled o got (s.payload.getD s.assembled) := by
  cases hp : s.payload
  case none => exact hc.assembled hp hs hl
  case some =>
    simp only [Contents, hp] at hc
    exact hc

theorem Contents.wait (hc : s.Contents o got) (hp : s.payload = none) (hj : j < o.total) :
    Contents o (insert j got) { s with early := s.early ++ [⟨j, o.chunk j⟩] } := by
  simp only [Contents, hp] at hc
  have ⟨hf, he⟩ := hc
  simp only [Contents, hp, List.map_append, List.toFinset_append, he]
  refine ⟨fun f hm => ?_, by simp⟩
  rcases List.mem_append.mp hm with hm | hm
  case inl => exact hf f hm
  case inr => rw [List.mem_singleton.mp hm]; exact ⟨hj, rfl⟩

theorem Contents.store (hc : s.Contents o got) (hs : s.fragSize = o.stride)
    (hl : s.origPayloadLen = o.payload.length) (hj : j < o.total) :
    (s.store j (o.chunk j)).Contents o (insert j got) := by
  unfold Slot.store
  split
  case h_1 buf hp =>
    simp only [Contents, hp] at hc
    simp only [Contents, hs]
    exact hc.place hj
  case h_2 hp =>
    have hw := hc.wait hp hj
    dsimp only
    split
    case isTrue =>
      have hf := hw.assembled hp hs hl
      simp only [Slot.promote, Contents]
      exact hf
    case isFalse => exact hw

-- Every fragment of an object implies the same size.
theorem impliedSize_fragment {hashKey : HashKey} {seqNum : SeqNum} (ht : s.fragTotal = o.total)
    (hl : s.origPayloadLen = o.payload.length) (hj : j < o.total) :
    s.impliedSize (o.fragment j hashKey seqNum) = some o.stride := by
  have hn := Object.chunk_pos hj
  have hr := o.rest_pos
  simp only [impliedSize, Object.fragment, ht, hl, Object.stride]
  rw [if_neg hn.ne']
  split
  case isTrue h₁ =>
    have h0 : j = o.total - 1 := by omega
    have hlen : (o.chunk j).length = o.payload.length := by
      rw [h0, Object.length_chunk_last, h₁]
      simp
    rw [if_neg (not_not.mpr hlen), hlen]
  case isFalse h₁ =>
    have hpos : 0 < (o.total - 1) * o.size :=
      Nat.mul_pos (by have := o.total_pos; omega) o.size_pos
    split
    case isTrue h₂ =>
      have hrem : o.payload.length - (o.chunk j).length = (o.total - 1) * o.size := by
        rw [h₂, Object.length_chunk_last]
        omega
      have hlt : ¬o.payload.length ≤ (o.chunk j).length := by omega
      rw [hrem, Nat.mul_mod_right, Nat.mul_div_cancel_left _ (by have := o.total_pos; omega)]
      simp [hlt]
    case isFalse h₂ =>
      rw [Object.length_chunk_of_lt (by omega), if_neg]
      rw [Nat.mul_comm]
      omega

theorem checkFragLen_fragment {hashKey : HashKey} {seqNum : SeqNum} (ht : s.fragTotal = o.total)
    (hl : s.origPayloadLen = o.payload.length) (hs : s.fragSize = 0 ∨ s.fragSize = o.stride)
    (hj : j < o.total) : s.checkFragLen (o.fragment j hashKey seqNum) = some o.stride := by
  simp only [checkFragLen, impliedSize_fragment ht hl hj]
  rw [if_neg]
  rcases hs with hs | hs <;> simp [hs]

-- The missing SeqNums.

section

variable {k best : Nat} {n m : SeqNum}

theorem nearestHeld_some (hn : s.nearestHeld j = some best) (hj : j < s.fragTotal) :
    best < s.fragTotal ∧ s.held[best]? = some true := by
  have ⟨d, _, hd⟩ := List.exists_of_findSome?_eq_some hn
  split at hd
  case isTrue h =>
    cases hd
    exact ⟨by omega, h.2⟩
  case isFalse =>
    split at hd
    case isTrue h => cases hd; exact h
    case isFalse  => cases hd

-- If some fragment has arrived, every other one has a nearest one.
theorem exists_nearestHeld (hh : s.held[k]? = some true) (hk : k < s.fragTotal)
    (hj : j < s.fragTotal) (hne : k ≠ j) : ∃ best, s.nearestHeld j = some best := by
  rw [← Option.isSome_iff_exists, nearestHeld, List.findSome?_isSome_iff]
  rcases Nat.lt_or_gt_of_ne hne with h | h
  case inl =>
    refine ⟨j - k, by rw [List.mem_range'_1]; omega, ?_⟩
    have e : j - (j - k) = k := by omega
    rw [if_pos ⟨by omega, by rw [e]; exact hh⟩]
    rfl
  case inr =>
    refine ⟨k - j, by rw [List.mem_range'_1]; omega, ?_⟩
    have e : j + (k - j) = k := by omega
    split
    case isTrue => rfl
    case isFalse =>
      rw [if_pos ⟨by rw [e]; exact hk, by rw [e]; exact hh⟩]
      rfl

theorem toInt64_of_lt {n : Nat} (h : n < 2 ^ 63) : toInt64 n = n := by
  unfold toInt64
  exact Int.bmod_eq_of_le (by omega) (by omega)

theorem toUint64_of_lt {n : Nat} (h : n < 2 ^ 63) : toUint64 n = n := by
  unfold toUint64
  omega

-- The SeqNum is as far from that of the nearest fragment as the indices are from each other.
theorem missingSeqNum_eq (hh : ¬s.held[j]? = some true) (hb : s.nearestHeld j = some best)
    (hs : s.fragSeq[best]? = some n) (hn : n < 2 ^ 63) (hm : m < 2 ^ 63) (e : n + j = m + best) :
    s.missingSeqNum j = some m := by
  have hint : toInt64 (toInt64 n + (j - best)) = m := by
    dsimp only [SeqNum] at *
    rw [toInt64_of_lt hn, ← toInt64_of_lt hm]
    congr 1
    omega
  have hpos : ¬(m : Int) < 0 := by dsimp only [SeqNum] at *; omega
  simp only [missingSeqNum, if_neg hh, hb, hs, Option.getD_some, hint,
    if_neg hpos, toUint64_of_lt hm]

end

end Slot

-- `s` is a slot of the object, and has received the fragments in `got`.
structure SlotOf (fmt : Formats) (o : Object) (got : Finset Nat) (s : Slot) : Prop where
  key            : s.key = o.key fmt
  txID           : s.txID = o.txID
  subtreeID      : s.subtreeID = o.subtreeID
  origFrameVer   : s.origFrameVer = o.frameVer
  msgType        : s.msgType = o.msgType
  origPayloadLen : s.origPayloadLen = o.payload.length
  fragTotal      : s.fragTotal = o.total
  fragSize       : s.fragSize = if got = ∅ then 0 else o.stride
  held           : ∀ j < o.total, s.held[j]? = some (decide (j ∈ got))
  received       : s.received = got.card
  within         : got ⊆ Finset.range o.total
  contents       : s.Contents o got

namespace SlotOf

variable {fmt : Formats} {o : Object} {got : Finset Nat} {s : Slot} {j : Nat}

theorem kept (hs : SlotOf fmt o got s) {deadline : Time} {requested extended : Bool} :
    SlotOf fmt o got
      { s with deadline := deadline, requested := requested, extended := extended } :=
  { hs with contents := hs.contents }

theorem checkFragLen (hashKey : HashKey) (seqNum : SeqNum) (hs : SlotOf fmt o got s)
    (hj : j < o.total) :
    s.checkFragLen (o.fragment j hashKey seqNum) = some o.stride :=
  Slot.checkFragLen_fragment hs.fragTotal hs.origPayloadLen (by grind [hs.fragSize]) hj

theorem receive (hashKey : HashKey) (seqNum : SeqNum) (hs : SlotOf fmt o got s) (hj : j < o.total)
    (hn : j ∉ got) :
    SlotOf fmt o (insert j got) (s.receive o.stride (o.fragment j hashKey seqNum)) := by
  have hc : Slot.Contents o got { s with fragSize := o.stride } := hs.contents
  have hw : (s.receive o.stride (o.fragment j hashKey seqNum)).Contents o (insert j got) :=
    hc.store rfl hs.origPayloadLen hj
  have hr : ∃ payload early, s.receive o.stride (o.fragment j hashKey seqNum) =
      { s with
        fragSize := o.stride, payload := payload, early := early, held := s.held.set j true
        fragSeq := s.fragSeq.set j seqNum, received := s.received + 1 } := s.receive_eq ..
  have ⟨payload, early, e⟩ := hr
  rw [e] at hw ⊢
  exact
    { hs with
      fragSize := (if_neg (Finset.insert_ne_empty j got)).symm
      held     := by
        intro k hk
        have hh := hs.held k hk
        have hlen : k < s.held.length := (List.getElem?_eq_some_iff.mp hh).1
        simp only [List.getElem?_set]
        split
        case isTrue e  => simp [← e, e ▸ hlen]
        case isFalse e => simp [hh, Ne.symm e]
      received := by rw [Finset.card_insert_of_notMem hn, hs.received]
      within   := Finset.insert_subset (Finset.mem_range.mpr hj) hs.within
      contents := hw }

-- The slot has all fragments when it has counted `fragTotal` of them.
theorem got_eq_range (hs : SlotOf fmt o got s) (hr : ¬s.received < s.fragTotal) :
    got = Finset.range o.total := by
  refine Finset.eq_of_subset_of_card_le hs.within ?_
  rw [Finset.card_range, ← hs.fragTotal, ← hs.received]
  exact not_lt.mp hr

theorem got_ne_range (hs : SlotOf fmt o got s) (hr : s.received < s.fragTotal) :
    got ≠ Finset.range o.total := by
  intro e
  rw [hs.received, hs.fragTotal, e, Finset.card_range] at hr
  exact lt_irrefl _ hr

-- A slot with all fragments is completed with the object's payload.
theorem payload_eq (hs : SlotOf fmt o (Finset.range o.total) s) :
    s.payload.getD s.assembled = o.payload := by
  have hsize : s.fragSize = o.stride := hs.fragSize.trans (if_neg o.range_total_ne_empty)
  exact (hs.contents.filled hsize hs.origPayloadLen).eq_payload

theorem delivery_eq (hs : SlotOf fmt o got s) :
    s.delivery o.payload = o.delivery s.hashKey s.seqNum := by
  simp only [Slot.delivery, Object.delivery, hs.origFrameVer, hs.msgType, hs.txID, hs.subtreeID]

end SlotOf
end Reassembly
