import ShardListener.Nack.Wire

namespace Bytes32

variable {bs : Bytes}

theorem bytes_copyOf (h : bs.length = 32) : (copyOf bs).bytes = bs := by
  simp [copyOf, ← h]

theorem copyOf_bytes {id : Bytes32} : copyOf id.bytes = id := by
  have ⟨bs, h⟩ := id
  simp [copyOf, ← h]

end Bytes32

namespace Nack

variable {raw rest : Bytes}

-- The bytes of the magic, as they stand in a datagram.
def magicBytes : Bytes :=
  [0xE3, 0xE1, 0xF3, 0xE8]

theorem magic_iff (h : 4 ≤ raw.length) :
    BigEndian.value (raw.take 4) = nackMagic ↔ raw.take 4 = magicBytes := by
  have hmagic : BigEndian.value magicBytes = nackMagic := by decide
  constructor
  case mp =>
    intro e
    exact BigEndian.value_inj (by simp [magicBytes, h]) (e.trans hmagic.symm)
  case mpr => exact fun e => e ▸ hmagic

-- A datagram of the protocol: long enough, with the magic and a type in `types`.
structure Carries (size : Nat) (types : List UInt8) (raw : Bytes) : Prop where
  length  : size ≤ raw.length
  magic   : raw.take 4 = magicBytes
  msgType : raw.getD 6 0 ∈ types

theorem carries_iff {size : Nat} {types : List UInt8} (hs : 4 ≤ size) :
    Carries size types raw ↔
      ¬raw.length < size ∧ BigEndian.value (raw.take 4) = nackMagic ∧ raw.getD 6 0 ∈ types := by
  constructor
  case mp =>
    intro h
    exact ⟨not_lt.mpr h.length, (magic_iff (hs.trans h.length)).mpr h.magic, h.msgType⟩
  case mpr =>
    intro ⟨hl, hm, ht⟩
    have hl := not_lt.mp hl
    exact ⟨hl, (magic_iff (hs.trans hl)).mp hm, ht⟩

theorem Carries.exclusive {size size' : Nat} {types types' : List UInt8}
    (ht : ∀ t ∈ types, t ∉ types') : ¬(Carries size types raw ∧ Carries size' types' raw) :=
  fun ⟨h, h'⟩ => ht _ h.msgType h'.msgType

theorem Carries.agrees_magic {size : Nat} {types : List UInt8} {S : Nat → Prop}
    (hc : Carries size types raw) : List.Agrees S raw 0 (BigEndian.bytes 4 nackMagic) := by
  have e : BigEndian.bytes 4 nackMagic = (raw.drop 0).take 4 := hc.magic.symm
  exact e ▸ .slice

namespace NACK

structure Valid (n : NACK) : Prop where
  msgType  : n.msgType = MsgType.nack
  hashKey  : n.hashKey < 2 ^ 64
  startSeq : n.startSeq < 2 ^ 64
  endSeq   : n.endSeq < 2 ^ 64

def fields (n : NACK) : List Bytes :=
  [BigEndian.bytes 4 nackMagic, BigEndian.bytes 2 nackProtoVer, [n.msgType], [0x00],
    BigEndian.bytes 8 n.hashKey, BigEndian.bytes 8 n.startSeq,
      BigEndian.bytes 8 n.endSeq, n.subtreeID.bytes]

theorem length_fields (n : NACK) : n.fields.flatten.length = nackSize := by
  simp [fields, n.subtreeID.length_eq, nackSize]

end NACK

theorem decode_iff : (decode raw).isSome ↔ Carries nackSize [MsgType.nack] raw := by
  rw [carries_iff (by decide), List.mem_singleton]
  simp only [decode, Option.isSome_unless, Option.isSome_some, and_true, ne_eq, not_not]

theorem decode_fields {n : NACK} (hv : n.Valid) : decode (n.fields.flatten ++ rest) = some n := by
  have hl : ¬(n.fields.flatten ++ rest).length < nackSize := by
    rw [List.length_append, n.length_fields]
    omega
  have h0 : BigEndian.value ((n.fields.flatten ++ rest).take 4) = nackMagic :=
    BigEndian.value_field [] _ rfl (by decide)
  have h6 : (n.fields.flatten ++ rest).getD 6 0 = n.msgType := List.getD_field [_, _] _ (by simp)
  have h8 : BigEndian.value (((n.fields.flatten ++ rest).drop 8).take 8) = n.hashKey :=
    BigEndian.value_field [_, _, _, _] _ (by simp) hv.hashKey
  have h16 : BigEndian.value (((n.fields.flatten ++ rest).drop 16).take 8) = n.startSeq :=
    BigEndian.value_field [_, _, _, _, _] _ (by simp) hv.startSeq
  have h24 : BigEndian.value (((n.fields.flatten ++ rest).drop 24).take 8) = n.endSeq :=
    BigEndian.value_field [_, _, _, _, _, _] _ (by simp) hv.endSeq
  have h32 : ((n.fields.flatten ++ rest).drop 32).take 32 = n.subtreeID.bytes :=
    List.slice_field [_, _, _, _, _, _, _] [] (by simp) n.subtreeID.length_eq
  simp only [decode, if_neg hl, h0, h6, h8, h16, h24, h32, Bytes32.copyOf_bytes, ne_eq,
    not_true, if_false, if_neg (not_not.mpr hv.msgType)]

theorem encode_fields {n : NACK} {buf : Bytes} (hb : nackSize ≤ buf.length) :
    encode n buf = some (List.writeFields 0 buf n.fields) := by
  simp only [encode, if_neg (not_lt.mpr hb), NACK.fields, List.writeFields, BigEndian.length_bytes,
    List.length_singleton]

theorem agrees_fields {n : NACK} (hd : decode raw = some n) :
    List.Agrees (· ∉ [4, 5, 7]) raw 0 n.fields.flatten := by
  have hc := decode_iff.mp (Option.isSome_of_mem hd)
  have hl : 64 ≤ raw.length := hc.length
  have hn : n =
      { msgType   := raw.getD 6 0
        hashKey   := BigEndian.value ((raw.drop 8).take 8)
        startSeq  := BigEndian.value ((raw.drop 16).take 8)
        endSeq    := BigEndian.value ((raw.drop 24).take 8)
        subtreeID := .copyOf ((raw.drop 32).take 32) } := by
    simp only [decode] at hd
    split_ifs at hd
    exact (Option.some_inj.mp hd).symm
  subst hn
  have h4 : List.Agrees (· ∉ [4, 5, 7]) raw 4 (BigEndian.bytes 2 nackProtoVer) := .skip (by decide)
  have h7 : List.Agrees (· ∉ [4, 5, 7]) raw 7 [0x00] := .skip (by decide)
  have h32 : List.Agrees (· ∉ [4, 5, 7]) raw 32 (Bytes32.copyOf ((raw.drop 32).take 32)).bytes := by
    rw [Bytes32.bytes_copyOf (by simp; omega)]
    exact .slice
  exact hc.agrees_magic.append (by simp) <| h4.append (by simp) <|
    .append (.byte (by omega)) (by simp) <|
    h7.append (by simp) <| .append (.number (by omega)) (by simp) <|
    .append (.number (by omega)) (by simp) <| .append (.number (by omega)) (by simp) <|
    h32.append rfl .nil

theorem nack_exact :
    Codec.Exact nackSize encode decode NACK.Valid
      (Carries nackSize [MsgType.nack]) (· ∉ [4, 5, 7]) :=
  .of_fields NACK.fields NACK.length_fields (fun _ _ => encode_fields) (fun _ _ => decode_fields)
    (fun _ => decode_iff) fun _ _ => agrees_fields

namespace Response

structure Valid (r : Response) : Prop where
  msgType : r.msgType ∈ [MsgType.miss, MsgType.ack, MsgType.throttled]
  seqNum  : r.seqNum < 2 ^ 64

def fields (r : Response) : List Bytes :=
  [BigEndian.bytes 4 nackMagic, BigEndian.bytes 2 nackProtoVer, [r.msgType], [r.flags],
    BigEndian.bytes 8 r.seqNum]

theorem length_fields (r : Response) : r.fields.flatten.length = responseSize := by
  simp [fields, responseSize]

end Response

-- The condition on the type of a response, as the source writes it.
theorem not_responseType {mt : UInt8} :
    ¬(mt ≠ MsgType.miss ∧ mt ≠ MsgType.ack ∧ mt ≠ MsgType.throttled) ↔
      mt ∈ [MsgType.miss, MsgType.ack, MsgType.throttled] := by
  simp only [List.mem_cons, List.not_mem_nil, or_false, not_and_or, not_not]

theorem decodeResponse_iff :
    (decodeResponse raw).isSome ↔
      Carries responseSize [MsgType.miss, MsgType.ack, MsgType.throttled] raw := by
  rw [carries_iff (by decide), ← not_responseType]
  simp only [decodeResponse, Option.isSome_unless, Option.isSome_some, and_true, ne_eq, not_not]

theorem decodeResponse_fields {r : Response} (hv : r.Valid) :
    decodeResponse (r.fields.flatten ++ rest) = some r := by
  have hl : ¬(r.fields.flatten ++ rest).length < responseSize := by
    rw [List.length_append, r.length_fields]
    omega
  have h0 : BigEndian.value ((r.fields.flatten ++ rest).take 4) = nackMagic :=
    BigEndian.value_field [] _ rfl (by decide)
  have h6 : (r.fields.flatten ++ rest).getD 6 0 = r.msgType := List.getD_field [_, _] _ (by simp)
  have h7 : (r.fields.flatten ++ rest).getD 7 0 = r.flags := List.getD_field [_, _, _] _ (by simp)
  have h8 : BigEndian.value (((r.fields.flatten ++ rest).drop 8).take 8) = r.seqNum :=
    BigEndian.value_field [_, _, _, _] [] (by simp) hv.seqNum
  simp only [decodeResponse, if_neg hl, h0, h6, h7, h8, ne_eq, not_true, if_false,
    if_neg (not_responseType.mpr hv.msgType)]

theorem encodeResponse_fields {r : Response} {buf : Bytes} (hb : responseSize ≤ buf.length) :
    encodeResponse r buf = some (List.writeFields 0 buf r.fields) := by
  simp only [encodeResponse, if_neg (not_lt.mpr hb), Response.fields, List.writeFields,
    BigEndian.length_bytes, List.length_singleton]

theorem agrees_responseFields {r : Response} (hd : decodeResponse raw = some r) :
    List.Agrees (· ∉ [4, 5]) raw 0 r.fields.flatten := by
  have hc := decodeResponse_iff.mp (Option.isSome_of_mem hd)
  have hl : 16 ≤ raw.length := hc.length
  have hr : r = ⟨raw.getD 6 0, raw.getD 7 0, BigEndian.value ((raw.drop 8).take 8)⟩ := by
    simp only [decodeResponse] at hd
    split_ifs at hd
    exact (Option.some_inj.mp hd).symm
  subst hr
  have h4 : List.Agrees (· ∉ [4, 5]) raw 4 (BigEndian.bytes 2 nackProtoVer) := .skip (by decide)
  exact hc.agrees_magic.append (by simp) <| h4.append (by simp) <|
    .append (.byte (by omega)) (by simp) <|
    .append (.byte (by omega)) (by simp) <| .append (.number (by omega)) rfl .nil

theorem response_exact :
    Codec.Exact responseSize encodeResponse decodeResponse Response.Valid
      (Carries responseSize [MsgType.miss, MsgType.ack, MsgType.throttled]) (· ∉ [4, 5]) :=
  .of_fields Response.fields Response.length_fields (fun _ _ => encodeResponse_fields)
    (fun _ _ => decodeResponse_fields) (fun _ => decodeResponse_iff) fun _ _ =>
      agrees_responseFields

example :
    encodeResponse ⟨MsgType.ack, 0x02, 0x0102030405060708⟩ (List.replicate 16 0xFF) =
      some (magicBytes ++ [0x02, 0xBF, 0x12, 0x02, 1, 2, 3, 4, 5, 6, 7, 8]) := by
  decide

end Nack
