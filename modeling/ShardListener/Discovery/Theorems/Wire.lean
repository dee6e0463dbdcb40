import ShardListener.Discovery.Wire
import ShardListener.Nack.Theorems.Wire

namespace Discovery

open Nack (Carries)

variable {raw rest : Bytes} {a : ADVERT}

def readADVERT (raw : Bytes) : Option ADVERT :=
  (decodeADVERT raw).toOption

-- The positions of a beacon that hold a field: not the version, and not the reserved bytes at the
-- end.
def advertField (i : Nat) : Prop :=
  i ∉ [4, 5] ∧ i < 36

instance : DecidablePred advertField :=
  fun _ => inferInstanceAs (Decidable (_ ∧ _))

namespace ADVERT

def Valid (a : ADVERT) : Prop :=
  a.nackAddr ≠ 0

def fields (a : ADVERT) : List Bytes :=
  [BigEndian.bytes 4 advertMagic, BigEndian.bytes 2 advertProtoVer, [msgTypeADVERT], [a.scope],
    BigEndian.bytes 16 a.nackAddr.toNat, BigEndian.bytes 2 a.nackPort.toNat,
      [a.tier], [a.preference],
    BigEndian.bytes 2 a.beaconInterval.toNat, BigEndian.bytes 2 a.flags.toNat,
    BigEndian.bytes 4 a.instanceID.toNat, BigEndian.bytes 4 0, List.replicate 16 0]

theorem length_fields (a : ADVERT) : a.fields.flatten.length = advertSize := by
  simp [fields, advertSize]

end ADVERT

-- A beacon is read if it has the header of one, and an address that is not all zeros.
structure Announces (raw : Bytes) : Prop where
  header  : Carries advertSize [msgTypeADVERT] raw
  address : ∃ b ∈ (raw.drop 8).take 16, b ≠ 0

-- The fields of a datagram that is long enough.
def ADVERT.parsed (raw : Bytes) : ADVERT where
  scope          := raw.getD 7 0
  nackAddr       := BitVec.ofNat 128 (BigEndian.value ((raw.drop 8).take 16))
  nackPort       := UInt16.ofNat (BigEndian.value ((raw.drop 24).take 2))
  tier           := raw.getD 26 0
  preference     := raw.getD 27 0
  beaconInterval := UInt16.ofNat (BigEndian.value ((raw.drop 28).take 2))
  flags          := UInt16.ofNat (BigEndian.value ((raw.drop 30).take 2))
  instanceID     := UInt32.ofNat (BigEndian.value ((raw.drop 32).take 4))

theorem readADVERT_eq :
    readADVERT raw =
      if raw.length < advertSize then none
      else if BigEndian.value (raw.take 4) ≠ advertMagic then none
      else if raw.getD 6 0 ≠ msgTypeADVERT then none
      else if ((raw.drop 8).take 16).all (· == 0) then none
      else some (.parsed raw) := by
  simp only [readADVERT, decodeADVERT, apply_ite Except.toOption]
  rfl

theorem readADVERT_iff : (readADVERT raw).isSome ↔ Announces raw := by
  have haddr : ¬((raw.drop 8).take 16).all (· == 0) = true ↔ ∃ b ∈ (raw.drop 8).take 16, b ≠ 0 := by
    simp
  simp only [readADVERT_eq, Option.isSome_unless, Option.isSome_some, and_true,
    ne_eq, not_not, haddr]
  constructor
  case mp =>
    intro ⟨hl, hm, ht, ha⟩
    exact ⟨(Nack.carries_iff (by decide)).mpr ⟨hl, hm, List.mem_singleton.mpr ht⟩, ha⟩
  case mpr =>
    intro ⟨hc, ha⟩
    have ⟨hl, hm, ht⟩ := (Nack.carries_iff (by decide)).mp hc
    exact ⟨hl, hm, List.mem_singleton.mp ht, ha⟩

theorem readADVERT_fields (hv : a.Valid) : readADVERT (a.fields.flatten ++ rest) = some a := by
  have hl : ¬(a.fields.flatten ++ rest).length < advertSize := by
    rw [List.length_append, a.length_fields]
    omega
  have h0 : BigEndian.value ((a.fields.flatten ++ rest).take 4) = advertMagic :=
    BigEndian.value_field [] _ rfl (by decide)
  have h6 : (a.fields.flatten ++ rest).getD 6 0 = msgTypeADVERT :=
    List.getD_field [_, _] _ (by simp)
  have h7 : (a.fields.flatten ++ rest).getD 7 0 = a.scope := List.getD_field [_, _, _] _ (by simp)
  have h8 : ((a.fields.flatten ++ rest).drop 8).take 16 = BigEndian.bytes 16 a.nackAddr.toNat :=
    List.slice_field [_, _, _, _] _ (by simp) (by simp)
  have h24 : BigEndian.value (((a.fields.flatten ++ rest).drop 24).take 2) = a.nackPort.toNat :=
    BigEndian.value_field [_, _, _, _, _] _ (by simp) a.nackPort.toNat_lt
  have h26 : (a.fields.flatten ++ rest).getD 26 0 = a.tier :=
    List.getD_field [_, _, _, _, _, _] _ (by simp)
  have h27 : (a.fields.flatten ++ rest).getD 27 0 = a.preference :=
    List.getD_field [_, _, _, _, _, _, _] _ (by simp)
  have h28 : BigEndian.value (((a.fields.flatten ++ rest).drop 28).take 2) =
      a.beaconInterval.toNat :=
    BigEndian.value_field [_, _, _, _, _, _, _, _] _ (by simp) a.beaconInterval.toNat_lt
  have h30 : BigEndian.value (((a.fields.flatten ++ rest).drop 30).take 2) = a.flags.toNat :=
    BigEndian.value_field [_, _, _, _, _, _, _, _, _] _ (by simp) a.flags.toNat_lt
  have h32 : BigEndian.value (((a.fields.flatten ++ rest).drop 32).take 4) = a.instanceID.toNat :=
    BigEndian.value_field [_, _, _, _, _, _, _, _, _, _] _ (by simp) a.instanceID.toNat_lt
  have haddr : BigEndian.value (BigEndian.bytes 16 a.nackAddr.toNat) = a.nackAddr.toNat :=
    BigEndian.value_bytes a.nackAddr.isLt
  have hz : ¬(BigEndian.bytes 16 a.nackAddr.toNat).all (· == 0) = true := by
    intro hall
    have hzero := BigEndian.value_eq_zero fun b hb => beq_iff_eq.mp (List.all_eq_true.mp hall b hb)
    exact hv (BitVec.eq_of_toNat_eq (haddr.symm.trans hzero))
  simp only [readADVERT, decodeADVERT, if_neg hl, h0, h6, h7, h8, h24, h26, h27, h28,
    h30, h32, haddr, ne_eq, not_true, if_false, if_neg hz, BitVec.ofNat_toNat, UInt16.ofNat_toNat,
    UInt32.ofNat_toNat]
  rfl

theorem encodeADVERT_fields {buf : Bytes} (hb : advertSize ≤ buf.length) :
    encodeADVERT a buf = some (List.writeFields 0 buf a.fields) := by
  simp only [encodeADVERT, if_neg (not_lt.mpr hb), ADVERT.fields, List.writeFields,
    BigEndian.length_bytes, List.length_singleton]

theorem agrees_advertFields (hd : readADVERT raw = some a) :
    List.Agrees advertField raw 0 a.fields.flatten := by
  have hc := (readADVERT_iff.mp (Option.isSome_of_mem hd)).header
  have hl : 56 ≤ raw.length := hc.length
  have ha : a = .parsed raw := by
    rw [readADVERT_eq] at hd
    split_ifs at hd
    exact (Option.some_inj.mp hd).symm
  subst ha
  have h6 : raw.getD 6 0 = msgTypeADVERT := List.mem_singleton.mp hc.msgType
  have h6 : List.Agrees advertField raw 6 [msgTypeADVERT] := h6 ▸ .byte (by omega)
  have h4 : List.Agrees advertField raw 4 (BigEndian.bytes 2 advertProtoVer) := .skip (by decide)
  have h36 : List.Agrees advertField raw 36 (BigEndian.bytes 4 0) := .skip (by decide)
  have h40 : List.Agrees advertField raw 40 (List.replicate 16 0) := .skip (by decide)
  have haddr : (BitVec.ofNat 128 (BigEndian.value ((raw.drop 8).take 16))).toNat =
      BigEndian.value ((raw.drop 8).take 16) :=
    (BitVec.toNat_ofNat ..).trans (Nat.mod_eq_of_lt BigEndian.value_take_lt)
  have hshort (off : Nat) : (UInt16.ofNat (BigEndian.value ((raw.drop off).take 2))).toNat =
      BigEndian.value ((raw.drop off).take 2) :=
    UInt16.toNat_ofNat_of_lt' BigEndian.value_take_lt
  have hlong : (UInt32.ofNat (BigEndian.value ((raw.drop 32).take 4))).toNat =
      BigEndian.value ((raw.drop 32).take 4) :=
    UInt32.toNat_ofNat_of_lt' BigEndian.value_take_lt
  simp only [ADVERT.fields, ADVERT.parsed, haddr, hshort, hlong]
  exact hc.agrees_magic.append (by simp) <| h4.append (by simp) <| h6.append (by simp) <|
    .append (.byte (by omega)) (by simp) <| .append (.number (by omega)) (by simp) <|
    .append (.number (by omega)) (by simp) <| .append (.byte (by omega)) (by simp) <|
    .append (.byte (by omega)) (by simp) <| .append (.number (by omega)) (by simp) <|
    .append (.number (by omega)) (by simp) <| .append (.number (by omega)) (by simp) <|
    h36.append (by simp) <| h40.append rfl .nil

theorem advert_exact :
    Codec.Exact advertSize encodeADVERT readADVERT ADVERT.Valid Announces advertField :=
  .of_fields ADVERT.fields ADVERT.length_fields (fun _ _ => encodeADVERT_fields)
    (fun _ _ => readADVERT_fields) (fun _ => readADVERT_iff) fun _ _ => agrees_advertFields

-- The three kinds of datagrams are told apart by their type.
theorem control_codecs :
    Codec.Exact Nack.nackSize Nack.encode Nack.decode Nack.NACK.Valid
      (Carries Nack.nackSize [Nack.MsgType.nack]) (· ∉ [4, 5, 7]) ∧
    Codec.Exact Nack.responseSize Nack.encodeResponse Nack.decodeResponse Nack.Response.Valid
      (Carries Nack.responseSize [Nack.MsgType.miss, Nack.MsgType.ack, Nack.MsgType.throttled])
        (· ∉ [4, 5]) ∧
    Codec.Exact advertSize encodeADVERT readADVERT ADVERT.Valid Announces advertField ∧
    ∀ raw, ¬((Nack.decode raw).isSome ∧ (Nack.decodeResponse raw).isSome) ∧
      ¬((Nack.decode raw).isSome ∧ (readADVERT raw).isSome) ∧
      ¬((Nack.decodeResponse raw).isSome ∧ (readADVERT raw).isSome) := by
  refine ⟨Nack.nack_exact, Nack.response_exact, advert_exact, fun raw => ?_⟩
  rw [Nack.decode_iff, Nack.decodeResponse_iff, readADVERT_iff]
  refine ⟨Carries.exclusive ?_, fun ⟨h, h'⟩ => Carries.exclusive ?_ ⟨h, h'.header⟩,
    fun ⟨h, h'⟩ => Carries.exclusive ?_ ⟨h, h'.header⟩⟩
  case refine_1 =>
    simp [Nack.MsgType.nack, Nack.MsgType.miss, Nack.MsgType.ack, Nack.MsgType.throttled]
  case refine_2 => simp [Nack.MsgType.nack, msgTypeADVERT]
  case refine_3 => simp [Nack.MsgType.miss, Nack.MsgType.ack, Nack.MsgType.throttled, msgTypeADVERT]

end Discovery
