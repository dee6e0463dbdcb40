import ShardListener.Extensions.Splice

-- Big-endian numbers.
namespace BigEndian

variable {k v : Nat} {b : UInt8} {bs bs' : List UInt8}

def value (bs : List UInt8) : Nat :=
  bs.foldl (fun n b => 256 * n + b.toNat) 0

-- The `k` low bytes of a number.
def bytes : Nat → Nat → List UInt8
  | 0, _     => []
  | k + 1, v => bytes k (v / 256) ++ [UInt8.ofNat v]

@[simp]
theorem length_bytes : (bytes k v).length = k := by
  induction k generalizing v
  case zero      => rfl
  case succ k hi => simp [bytes, hi]

theorem value_snoc : value (bs ++ [b]) = 256 * value bs + b.toNat := by
  simp [value]

theorem value_eq_zero (h : ∀ b ∈ bs, b = 0) : value bs = 0 := by
  induction bs using List.reverseRecOn
  case nil => rfl
  case append_singleton bs b hi =>
    have ⟨hbs, hb⟩ := List.forall_mem_append.mp h
    rw [value_snoc, hi hbs, List.forall_mem_singleton.mp hb]
    rfl

theorem value_lt : value bs < 2 ^ (8 * bs.length) := by
  induction bs using List.reverseRecOn
  case nil => simp [value]
  case append_singleton bs b hi =>
    rw [value_snoc, List.length_append, List.length_singleton, Nat.mul_succ, pow_add]
    have hb := b.toNat_lt
    omega

theorem value_bytes (h : v < 2 ^ (8 * k)) : value (bytes k v) = v := by
  induction k generalizing v
  case zero => exact (Nat.lt_one_iff.mp h).symm
  case succ k hi =>
    have hdiv : v / 256 < 2 ^ (8 * k) := by
      rw [Nat.mul_succ, pow_add] at h
      omega
    rw [bytes, value_snoc, hi hdiv, UInt8.toNat_ofNat']
    omega

theorem bytes_value : bytes bs.length (value bs) = bs := by
  induction bs using List.reverseRecOn
  case nil => rfl
  case append_singleton bs b hi =>
    have hb := b.toNat_lt
    have hdiv : (256 * value bs + b.toNat) / 256 = value bs := by omega
    have hlow : UInt8.ofNat (256 * value bs + b.toNat) = b := by
      apply UInt8.toNat_inj.mp
      rw [UInt8.toNat_ofNat']
      omega
    rw [List.length_append, List.length_singleton, bytes, value_snoc, hdiv, hlow, hi]

theorem bytes_value_of_length (h : bs.length = k) : bytes k (value bs) = bs :=
  h ▸ bytes_value

theorem value_inj (hl : bs.length = bs'.length) (h : value bs = value bs') : bs = bs' := by
  calc
    bs = bytes bs.length (value bs)   := bytes_value.symm
    _  = bytes bs'.length (value bs') := by rw [hl, h]
    _  = bs'                          := bytes_value

end BigEndian

namespace List

variable {α : Type} {buf raw l f : List α} {fs : List (List α)} {off n : Nat} {S : Nat → Prop}

-- Writes fields side by side, the first one at `off`.
def writeFields (off : Nat) (buf : List α) : List (List α) → List α
  | []      => buf
  | f :: fs => writeFields (off + f.length) (buf.writeAt off f) fs

theorem writeAt_append (h : n + f.length ≤ buf.length) (hl : l.length = n) :
    (l ++ buf.drop n).writeAt n f = (l ++ f) ++ buf.drop (n + f.length) := by
  subst hl
  have hroom : f.length ≤ (l ++ buf.drop l.length).length - l.length := by
    rw [length_append, length_drop]
    omega
  rw [writeAt, take_left, take_of_length_le hroom, drop_append,
    drop_of_length_le (by omega), nil_append, drop_drop, append_assoc, Nat.add_sub_cancel_left]

theorem writeFields_append (h : n + fs.flatten.length ≤ buf.length) (hl : l.length = n) :
    writeFields n (l ++ buf.drop n) fs = (l ++ fs.flatten) ++ buf.drop (n + fs.flatten.length) := by
  induction fs generalizing n l
  case nil => simp [writeFields]
  case cons f fs hi =>
    rw [flatten_cons, length_append] at h ⊢
    rw [writeFields, writeAt_append (by omega) hl,
      hi (by omega) (by rw [length_append, hl]), append_assoc l, Nat.add_assoc]

theorem writeFields_eq (h : fs.flatten.length ≤ buf.length) :
    writeFields 0 buf fs = fs.flatten ++ buf.drop fs.flatten.length := by
  have hroom : 0 + fs.flatten.length ≤ buf.length := by rwa [Nat.zero_add]
  simpa using writeFields_append hroom length_nil

-- A field stands behind those before it.
theorem slice_field {rest : List α} (pre post : List (List α)) (hoff : pre.flatten.length = off)
    (hn : f.length = n) : (((pre ++ f :: post).flatten ++ rest).drop off).take n = f := by
  rw [flatten_append, flatten_cons, append_assoc, append_assoc, drop_left' hoff, take_left' hn]

theorem getD_field {rest : List α} {x d : α} (pre post : List (List α))
    (hoff : pre.flatten.length = off) : ((pre ++ [x] :: post).flatten ++ rest).getD off d = x := by
  rw [flatten_append, flatten_cons, append_assoc, append_assoc, ← hoff, getD_eq_getElem?_getD,
    getElem?_append_right le_rfl, Nat.sub_self]
  rfl

-- The list is what stands in `raw` from `off` on, at the positions in `S`.
def Agrees (S : Nat → Prop) (raw : List α) (off : Nat) (l : List α) : Prop :=
  ∀ i < l.length, S (off + i) → l[i]? = raw[off + i]?

namespace Agrees

theorem nil : Agrees S raw off [] :=
  nofun

theorem append (hf : Agrees S raw off f) (e : off + f.length = n) (hl : Agrees S raw n l) :
    Agrees S raw off (f ++ l) := by
  subst e
  intro i hi hS
  rw [getElem?_append]
  split
  case isTrue hlt => exact hf i hlt hS
  case isFalse hge =>
    rw [length_append] at hi
    have e : off + f.length + (i - f.length) = off + i := by omega
    rw [← e] at hS ⊢
    exact hl (i - f.length) (by omega) hS

theorem slice : Agrees S raw off ((raw.drop off).take n) := by
  intro i hi _
  rw [length_take] at hi
  rw [getElem?_take_of_lt (by omega), getElem?_drop]

theorem byte {d : α} (h : off < raw.length) : Agrees S raw off [raw.getD off d] := by
  intro i hi _
  cases Nat.lt_one_iff.mp hi
  simp [getElem?_eq_getElem h]

theorem skip (h : ∀ i < l.length, ¬S (off + i)) : Agrees S raw off l :=
  fun i hi hS => absurd hS (h i hi)

end Agrees
end List

theorem BigEndian.value_field {rest : List UInt8} {off k v : Nat} (pre post : List (List UInt8))
    (hoff : pre.flatten.length = off) (hv : v < 2 ^ (8 * k)) :
    value ((((pre ++ bytes k v :: post).flatten ++ rest).drop off).take k) = v := by
  rw [List.slice_field pre post hoff length_bytes, value_bytes hv]

theorem BigEndian.value_take_lt {k : Nat} {bs : List UInt8} : value (bs.take k) < 2 ^ (8 * k) := by
  have hle : 8 * (bs.take k).length ≤ 8 * k := Nat.mul_le_mul_left 8 (List.length_take_le k bs)
  exact value_lt.trans_le (Nat.pow_le_pow_right (by decide) hle)

theorem List.Agrees.number {raw : List UInt8} {off k : Nat} {S : Nat → Prop}
    (h : off + k ≤ raw.length) :
    Agrees S raw off (BigEndian.bytes k (BigEndian.value ((raw.drop off).take k))) := by
  have hlen : ((raw.drop off).take k).length = k := by
    rw [length_take, length_drop]
    omega
  rw [BigEndian.bytes_value_of_length hlen]
  exact slice

-- A reader that has a reason to refuse.
theorem Option.isSome_unless {α : Type} {c : Prop} [Decidable c] {o : Option α} :
    (if c then none else o).isSome ↔ ¬c ∧ o.isSome := by
  split
  case isTrue h  => simp [h]
  case isFalse h => simp [h]

namespace Codec

variable {α : Type} {size : Nat} {encode : α → List UInt8 → Option (List UInt8)}
variable {decode : List UInt8 → Option α} {Valid : α → Prop} {Accepts : List UInt8 → Prop}
variable {S : Nat → Prop}

-- A message of a fixed size: `encode` writes it to the front of a buffer, and fails if the buffer
-- is too short; `decode` reads it from there. Valid messages are read back, exactly the datagrams
-- in `Accepts` are read, and writing what was read reproduces the bytes at the positions in `S`.
structure Exact (size : Nat) (encode : α → List UInt8 → Option (List UInt8))
    (decode : List UInt8 → Option α) (Valid : α → Prop) (Accepts : List UInt8 → Prop)
    (S : Nat → Prop) : Prop where
  roundTrip : ∀ x buf, Valid x → size ≤ buf.length → (encode x buf).bind decode = some x
  accepts   : ∀ raw, (decode raw).isSome ↔ Accepts raw
  reencode  : ∀ raw x buf, decode raw = some x → size ≤ buf.length →
    ∃ out, encode x buf = some out ∧ out.drop size = buf.drop size ∧
      ∀ i < size, S i → out[i]? = raw[i]?

-- The rule for a message that is written field by field.
theorem Exact.of_fields (fields : α → List (List UInt8))
    (hsize : ∀ x, (fields x).flatten.length = size)
    (henc : ∀ x buf, size ≤ buf.length → encode x buf = some (List.writeFields 0 buf (fields x)))
    (hdec : ∀ x rest, Valid x → decode ((fields x).flatten ++ rest) = some x)
    (hacc : ∀ raw, (decode raw).isSome ↔ Accepts raw)
    (hre : ∀ raw x, decode raw = some x → List.Agrees S raw 0 (fields x).flatten) :
    Exact size encode decode Valid Accepts S := by
  have hw (x : α) {buf : List UInt8} (hb : size ≤ buf.length) :
      encode x buf = some ((fields x).flatten ++ buf.drop size) := by
    rw [henc x buf hb, List.writeFields_eq (by rwa [hsize]), hsize]
  refine ⟨fun x buf hv hb => ?roundTrip, hacc, fun raw x buf hd hb => ?reencode⟩
  case roundTrip =>
    rw [hw x hb]
    exact hdec x _ hv
  case reencode =>
    refine ⟨_, hw x hb, by rw [List.drop_left' (hsize x)], fun i hi hS => ?_⟩
    have hlt : i < (fields x).flatten.length := (hsize x).symm ▸ hi
    have hag := hre raw x hd i hlt
    rw [Nat.zero_add] at hag
    rw [List.getElem?_append_left hlt]
    exact hag hS

end Codec
