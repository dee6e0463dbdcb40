import ShardListener.Reassembly.Slot

namespace Reassembly

-- The largest UDP payload of a receive buffer. A fragment is no longer than that, whether it comes
-- from the receive loop or from the return channel.
def maxDatagram : Nat :=
  65535

-- An object as its sender cuts it for BRC-130: `total` fragments, all but the last of `size` bytes,
-- and a last one that holds the rest.
structure Object where
  txID      : Bytes32
  subtreeID : Bytes32
  frameVer  : UInt8
  msgType   : UInt8
  payload   : Bytes
  total     : Nat
  size      : Nat
  total_pos : 0 < total
  total_le  : total ≤ 65535
  size_pos  : 0 < size
  size_le   : 1 < total → size ≤ maxDatagram
  rest_pos  : (total - 1) * size < payload.length
  rest_le   : payload.length - (total - 1) * size ≤ maxDatagram

namespace Object

variable (o : Object)

def chunk (j : Nat) : Bytes :=
  if j + 1 < o.total then (o.payload.drop (j * o.size)).take o.size else o.payload.drop (j * o.size)

-- A fragment of the object. Each has a HashKey and a SeqNum of its own.
def fragment (j : Nat) (hashKey : HashKey) (seqNum : SeqNum) : FragFrame where
  txID           := o.txID
  subtreeID      := o.subtreeID
  hashKey        := hashKey
  seqNum         := seqNum
  fragIndex      := j
  fragTotal      := o.total
  origPayloadLen := o.payload.length
  origFrameVer   := o.frameVer
  msgType        := o.msgType
  fragData       := o.chunk j

def key (fmt : Formats) : Bytes32 :=
  slotKey fmt (o.fragment 0 0 0)

-- The object as the frame of its class, with the HashKey and the SeqNum of some fragment.
def delivery (hashKey : HashKey) (seqNum : SeqNum) : Delivery :=
  if o.frameVer = FrameVer.v4 then
    .block ⟨o.msgType, o.txID, hashKey, seqNum, o.payload⟩
  else if o.frameVer = FrameVer.v5 then
    .subtreeData ⟨o.msgType, o.txID, hashKey, seqNum, o.payload⟩
  else if o.frameVer = FrameVer.v9 then
    .beef ⟨o.msgType, o.txID, o.subtreeID, hashKey, seqNum, o.payload⟩
  else
    .tx ⟨FrameVer.v2, o.txID, hashKey, seqNum, o.subtreeID, o.payload⟩

-- The fragment size the buffer derives: an object in one fragment is its own size.
def stride : Nat :=
  if o.total = 1 then o.payload.length else o.size

variable {o} {j k : Nat}

@[simp]
theorem slotKey_fragment {fmt : Formats} {hashKey : HashKey} {seqNum : SeqNum} :
    slotKey fmt (o.fragment j hashKey seqNum) = o.key fmt :=
  rfl

theorem mul_stride (h : j < o.total) : j * o.stride = j * o.size := by
  unfold stride
  split
  case isTrue e =>
    have hj : j = 0 := by omega
    simp [hj]
  case isFalse => rfl

theorem range_total_ne_empty : Finset.range o.total ≠ ∅ := by
  simpa using o.total_pos.ne'

theorem payload_pos : 0 < o.payload.length :=
  Nat.zero_lt_of_lt o.rest_pos

-- Every place of a fragment lies inside of the payload.
theorem offset_lt (h : j < o.total) : j * o.size < o.payload.length := by
  have hj : j * o.size ≤ (o.total - 1) * o.size := Nat.mul_le_mul_right _ (by omega)
  have hr := o.rest_pos
  omega

-- The fragment before the last one ends before the payload does.
theorem next_le (h : j + 1 < o.total) : j * o.size + o.size ≤ o.payload.length := by
  have hn := offset_lt h
  rw [Nat.add_mul, Nat.one_mul] at hn
  omega

theorem length_chunk_of_lt (h : j + 1 < o.total) : (o.chunk j).length = o.size := by
  have hn := next_le h
  simp only [chunk, h, if_true, List.length_take, List.length_drop]
  omega

theorem length_chunk_last :
    (o.chunk (o.total - 1)).length = o.payload.length - (o.total - 1) * o.size := by
  have ht := o.total_pos
  have hl : ¬o.total - 1 + 1 < o.total := by omega
  simp only [chunk, hl, if_false, List.length_drop]

theorem chunk_pos (h : j < o.total) : 0 < (o.chunk j).length := by
  rcases Nat.lt_or_ge (j + 1) o.total with hj | hj
  case inl => rw [length_chunk_of_lt hj]; exact o.size_pos
  case inr =>
    have e : j = o.total - 1 := by omega
    have hr := o.rest_pos
    rw [e, length_chunk_last]
    omega

theorem chunk_end_le (h : j < o.total) :
    j * o.size + (o.chunk j).length ≤ o.payload.length := by
  rcases Nat.lt_or_ge (j + 1) o.total with hj | hj
  case inl => rw [length_chunk_of_lt hj]; exact next_le hj
  case inr =>
    have e : j = o.total - 1 := by omega
    have hr := o.rest_pos
    rw [e, length_chunk_last]
    omega

-- The bytes of a fragment are those of the payload at its place.
theorem getElem?_chunk (h : k < (o.chunk j).length) :
    (o.chunk j)[k]? = o.payload[j * o.size + k]? := by
  unfold chunk at h ⊢
  split
  case isTrue hj =>
    simp only [hj, if_true, List.length_take] at h
    rw [List.getElem?_take_of_lt (by omega), List.getElem?_drop]
  case isFalse => rw [List.getElem?_drop]

-- Every byte of the payload lies in some fragment.
theorem exists_chunk (h : k < o.payload.length) :
    ∃ j < o.total, j * o.size ≤ k ∧ k < j * o.size + (o.chunk j).length := by
  have hp := o.size_pos
  have ht := o.total_pos
  have hd : k / o.size * o.size ≤ k := Nat.div_mul_le_self k o.size
  have hm : k < k / o.size * o.size + o.size := Nat.lt_div_mul_add hp
  rcases Nat.lt_or_ge (k / o.size + 1) o.total with hj | hj
  case inl => exact ⟨k / o.size, by omega, hd, by rw [length_chunk_of_lt hj]; exact hm⟩
  case inr =>
    have hl : (o.total - 1) * o.size ≤ k / o.size * o.size := Nat.mul_le_mul_right _ (by omega)
    refine ⟨o.total - 1, by omega, hl.trans hd, ?_⟩
    rw [length_chunk_last]
    omega

-- The declared length stays below the wrap-around of the buffer's plausibility check.
theorem length_lt : o.payload.length + 1 < 2 ^ 32 := by
  have hr := o.rest_le
  have hp := o.rest_pos
  have ht := o.total_le
  have hs : (o.total - 1) * o.size ≤ 65534 * maxDatagram := by
    rcases Nat.lt_or_ge 1 o.total with h | h
    case inl => exact Nat.mul_le_mul (by omega) (o.size_le h)
    case inr =>
      have e : o.total - 1 = 0 := by omega
      simp [e]
  unfold maxDatagram at *
  omega

-- There are no more fragments than bytes.
theorem total_le_length : o.total ≤ o.payload.length := by
  have hr := o.rest_pos
  have hm : o.total - 1 ≤ (o.total - 1) * o.size := Nat.le_mul_of_pos_right _ o.size_pos
  omega

end Object

-- `buf` has the bytes of the object at the places of the fragments in `got`.
structure Filled (o : Object) (got : Finset Nat) (buf : Bytes) : Prop where
  length : buf.length = o.payload.length
  bytes  : ∀ j ∈ got, ∀ k, j * o.size ≤ k → k < j * o.size + (o.chunk j).length →
    buf[k]? = o.payload[k]?

namespace Filled

variable {o : Object} {got : Finset Nat} {buf : Bytes} {j : Nat}

theorem zeros : Filled o ∅ (List.replicate o.payload.length 0) where
  length := List.length_replicate
  bytes  := by simp

-- A fragment only ever writes bytes of the object, so it does not matter whether it overlaps
-- others.
theorem place (h : Filled o got buf) (hj : j < o.total) :
    Filled o (insert j got) (Slot.place o.stride buf ⟨j, o.chunk j⟩) where
  length := by simp [Slot.place, h.length]
  bytes  := by
    intro i hi k hk hlt
    have hend := Object.chunk_end_le hj
    simp only [Slot.place, Object.mul_stride hj, List.getElem?_writeAt, h.length]
    split
    case isTrue hin =>
      rw [Object.getElem?_chunk (by omega), Nat.add_sub_cancel' hin.1]
    case isFalse hout =>
      rcases Finset.mem_insert.mp hi with e | hi
      case inl => subst e; omega
      case inr => exact h.bytes i hi k hk hlt

-- A buffer with all fragments is the object.
theorem eq_payload (h : Filled o (Finset.range o.total) buf) : buf = o.payload := by
  refine List.ext_getElem? fun k => ?_
  rcases Nat.lt_or_ge k o.payload.length with hk | hk
  case inl =>
    have ⟨j, hj, hle, hlt⟩ := Object.exists_chunk hk
    exact h.bytes j (Finset.mem_range.mpr hj) k hle hlt
  case inr => simp [h.length, hk]

end Filled
end Reassembly
