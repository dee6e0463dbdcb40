import ShardListener.Reassembly.Theorems.Assembly

namespace Reassembly

open Buffer

-- The header fields of a fragment have the widths of the wire format.
def Sized (ff : FragFrame) : Prop :=
  ff.fragIndex < 2 ^ 16 ∧ ff.fragTotal < 2 ^ 16 ∧ ff.origPayloadLen < 2 ^ 32

instance : DecidablePred Sized :=
  fun _ => inferInstanceAs (Decidable (_ ∧ _ ∧ _))

-- How many bytes the fragments carry.
def dataLen (fs : List FragFrame) : Nat :=
  (fs.map fun f => f.fragData.length).sum

theorem promoteAfter_pos {total : Nat} (ht : 0 < total) : 0 < promoteAfter total := by
  simp only [promoteAfter]
  omega

theorem promoteAfter_le {total : Nat} : promoteAfter total ≤ total :=
  Nat.min_le_left ..

-- The bound that the number of fragments gives.
theorem le_promoteAfter {total : Nat} : total - 1 ≤ 32 * (promoteAfter total - 1) := by
  simp only [promoteAfter]
  omega

namespace Slot

variable {s s' : Slot} {ff f : FragFrame} {fs : List FragFrame} {size j : Nat} {data : Bytes}

theorem payload_store :
    (s.store j data).payload = none ↔
      s.payload = none ∧ (s.early.length + 1) % 2 ^ 16 < promoteAfter s.fragTotal := by
  simp only [store]
  split
  case h_1 hp => simp [hp]
  case h_2 hp =>
    split
    case isTrue hle => simpa [promote, hp] using hle
    case isFalse hn => simpa [hp] using hn

theorem early_store (he : s.payload ≠ none → s.early = []) (hp : (s.store j data).payload ≠ none) :
    (s.store j data).early = [] := by
  revert hp
  simp only [store]
  split
  case h_1 hs => exact fun _ => he (by simp [hs])
  case h_2 hs =>
    split
    case isTrue  => exact fun _ => rfl
    case isFalse => exact fun hp => absurd hs hp

-- The slot has taken `fs`, and the buffer of its object is there as soon as these are enough.
structure Staged (fs : List FragFrame) (s : Slot) : Prop where
  made    : Made fs s
  total   : 0 < s.fragTotal ∧ s.fragTotal < 2 ^ 16
  waiting : s.payload = none → fs.length < promoteAfter s.fragTotal
  early   : s.payload ≠ none → s.early = []

theorem Made.length_le (hm : Made fs s) : fs.length ≤ s.fragTotal := by
  rw [← hm.count, ← hm.lengths.1]
  exact List.count_le_length

theorem Made.early_length (hm : Made fs s) (hp : s.payload = none) :
    s.early.length = fs.length := by
  have hh := hm.holds
  simp only [Holds, hp] at hh
  rw [hh, List.length_map]

namespace Staged

theorem newSlot {ω : Type} {cfg : Config} {h : Hooks ω} {i : Instant} {key : Bytes32}
    (ht : 0 < ff.fragTotal) (hs : Sized ff) : Staged [] (Buffer.newSlot cfg h i key ff) where
  made      := .newSlot
  total     := ⟨ht, hs.2.1⟩
  waiting _ := promoteAfter_pos ht
  early _   := rfl

theorem kept (hs : Staged fs s) (hk : s.Kept s') : Staged fs s' := by
  have hm := hs.made.kept hk
  have ⟨_, _, _, e⟩ := hk
  subst e
  exact ⟨hm, hs.total, hs.waiting, hs.early⟩

-- The number of the fragments that wait for the buffer does not wrap.
theorem payload_receive (hs : Staged fs s) (ht : s.Takes ff) (hl : s.checkFragLen ff = some size) :
    (s.receive size ff).payload = none ↔
      s.payload = none ∧ fs.length + 1 < promoteAfter s.fragTotal := by
  have hle := (hs.made.receive ht hl).length_le
  have ⟨_, _, e⟩ := s.receive_eq size ff
  have htot : (s.receive size ff).fragTotal = s.fragTotal := by rw [e]
  have hlt := hs.total.2
  rw [htot, List.length_append, List.length_singleton] at hle
  change ({ s with fragSize := size }.store ff.fragIndex ff.fragData).payload = none ↔ _
  rw [payload_store]
  refine and_congr_right fun hp => ?_
  rw [show s.early.length = fs.length from hs.made.early_length hp, Nat.mod_eq_of_lt (by omega)]

theorem receive (hs : Staged fs s) (ht : s.Takes ff) (hl : s.checkFragLen ff = some size) :
    Staged (fs ++ [ff]) (s.receive size ff) := by
  have hm := hs.made.receive ht hl
  have hp := hs.payload_receive ht hl
  have ⟨_, _, e⟩ := s.receive_eq size ff
  have htot : (s.receive size ff).fragTotal = s.fragTotal := by rw [e]
  refine ⟨hm, htot.symm ▸ hs.total, fun hn => ?_, fun hn => ?_⟩
  case refine_1 =>
    rw [htot, List.length_append, List.length_singleton]
    exact (hp.mp hn).2
  case refine_2 =>
    have hearly : { s with fragSize := size }.payload ≠ none →
        { s with fragSize := size }.early = [] :=
      hs.early
    exact early_store hearly hn

end Staged

-- All fragments but the last one of the object are of one length.
theorem Made.dataLen (hm : Made fs s) :
    (if ∃ f ∈ fs, f.fragIndex + 1 = s.fragTotal then
      dataLen fs + s.fragSize + (s.fragTotal - 1) * s.fragSize =
        fs.length * s.fragSize + s.origPayloadLen
    else dataLen fs = fs.length * s.fragSize) := by
  have hlen : ∀ f ∈ fs, s.Implies f s.fragSize ∧ f.fragIndex < s.fragTotal :=
    fun f hf => ⟨hm.implies hf, hm.within hf⟩
  have hn := hm.nodup
  clear hm
  induction fs
  case nil => simp [Reassembly.dataLen]
  case cons f fs hi =>
    have ⟨himp, hlt⟩ := hlen f List.mem_cons_self
    have hi := hi (fun g hg => hlen g (List.mem_cons_of_mem _ hg)) hn.of_cons
    have hadd : Reassembly.dataLen (f :: fs) = f.fragData.length + Reassembly.dataLen fs := by
      simp [Reassembly.dataLen]
    rw [List.length_cons, Nat.succ_mul, hadd]
    by_cases e : f.fragIndex + 1 = s.fragTotal
    case pos =>
      -- No other fragment is the last one.
      have hno : ¬∃ g ∈ fs, g.fragIndex + 1 = s.fragTotal := by
        intro ⟨g, hg, eg⟩
        have hf : f.fragIndex ∉ fs.map FragFrame.fragIndex := (List.nodup_cons.mp hn).1
        have e : g.fragIndex = f.fragIndex := by omega
        exact hf (e ▸ List.mem_map_of_mem hg)
      have hlast := himp.last e
      rw [if_neg hno] at hi
      rw [if_pos ⟨f, List.mem_cons_self, e⟩]
      omega
    case neg =>
      have hin := himp.inner (by omega)
      have hiff : (∃ g ∈ f :: fs, g.fragIndex + 1 = s.fragTotal) ↔
          ∃ g ∈ fs, g.fragIndex + 1 = s.fragTotal := by simp [e]
      rw [if_congr hiff rfl rfl]
      split at hi
      case isTrue h  => rw [if_pos h]; omega
      case isFalse h => rw [if_neg h]; omega

-- What the allocation of the buffer costs, in terms of the bytes that came.
theorem Made.bounded_iff (hm : Made fs s) (hfs : fs ≠ [])
    (hlen : fs.length = promoteAfter s.fragTotal) :
    s.origPayloadLen ≤ 32 * Reassembly.dataLen fs ↔
      (∃ f ∈ fs, f.fragIndex + 1 = s.fragTotal) ∨
        s.origPayloadLen - (s.fragTotal - 1) * s.fragSize ≤
          (32 * promoteAfter s.fragTotal - (s.fragTotal - 1)) * s.fragSize := by
  have ⟨f, hf⟩ := List.exists_mem_of_ne_nil fs hfs
  have hroom := (hm.implies hf).room
  have hpos := List.length_pos_of_mem hf
  have hbytes := hm.dataLen
  have hle : s.fragTotal - 1 ≤ 32 * (promoteAfter s.fragTotal - 1) := le_promoteAfter
  rw [hlen] at hbytes hpos
  generalize s.fragTotal - 1 = n at *
  have ⟨m, e⟩ := Nat.exists_eq_add_one.mpr hpos
  rw [e] at hbytes hle ⊢
  have hsize : n * s.fragSize ≤ 32 * m * s.fragSize := Nat.mul_le_mul_right _ hle
  rw [Nat.mul_assoc] at hsize
  rw [Nat.succ_mul m] at hbytes
  split at hbytes
  case isTrue h => exact iff_of_true (by omega) (.inl h)
  case isFalse h =>
    rw [or_iff_right h, Nat.sub_mul, Nat.mul_assoc, Nat.succ_mul m, hbytes]
    omega

end Slot

variable {ω : Type}

-- The slot for which a fragment makes the buffer of the object be allocated, with the fragment in
-- it.
def allocating (fmt : Formats) (cfg : Config) (h : Hooks ω) (i : Instant) (b : Buffer)
    (ff : FragFrame) : Option Slot :=
  (met fmt cfg h i b ff).bind fun s =>
    if s.Takes ff ∧ s.payload = none then
      ((s.checkFragLen ff).map (s.receive · ff)).filter fun s =>
        s.payload.isSome ∨ s.fragTotal ≤ s.received
    else none

def allocated (fmt : Formats) (cfg : Config) (h : Hooks ω) (p : Buffer × ω) : Op → Option Slot
  | .observe i ff => allocating fmt cfg h i (sweepIfDue cfg h i p).1 ff
  | _             => none

-- The buffer that the operation allocates is of at most 32 times the bytes that its slot has taken.
def Bounded (fmt : Formats) (cfg : Config) (h : Hooks ω) (q : (Buffer × ω) × Parts) (op : Op) :
    Prop :=
  ∀ s ∈ allocated fmt cfg h q.1 op,
    s.origPayloadLen ≤ 32 * dataLen (q.2.after fmt cfg h q.1 op s.key)

-- The slot has the last fragment of its object, or leaves that one no more than the bound allows.
def Proportionate (fmt : Formats) (cfg : Config) (h : Hooks ω) (q : (Buffer × ω) × Parts)
    (op : Op) : Prop :=
  ∀ s ∈ allocated fmt cfg h q.1 op,
    (∃ f ∈ q.2.after fmt cfg h q.1 op s.key, f.fragIndex + 1 = s.fragTotal) ∨
      s.origPayloadLen - (s.fragTotal - 1) * s.fragSize ≤
        (32 * promoteAfter s.fragTotal - (s.fragTotal - 1)) * s.fragSize

variable {fmt : Formats} {cfg : Config} {h : Hooks ω} {i : Instant} {b : Buffer} {ff : FragFrame}
variable {s : Slot} {q : (Buffer × ω) × Parts} {op : Op}

instance : Decidable (Bounded fmt cfg h q op) :=
  inferInstanceAs (Decidable (∀ s ∈ _, _))

instance : Decidable (Proportionate fmt cfg h q op) :=
  inferInstanceAs (Decidable (∀ s ∈ _, (∃ f ∈ _, _) ∨ _))

theorem staged : Parts.Rule fmt cfg h Sized Slot.Staged where
  kept _ _ _ hs hk           := hs.kept hk
  newSlot _ _ _ hd ho        := .newSlot (Nat.pos_of_ne_zero (not_or.mp ho.2.1).1) hd
  receive _ _ _ _ _ hs ht hl := hs.receive ht hl

theorem allocating_met (ha : allocating fmt cfg h i b ff = some s) :
    ∃ s₀ size, met fmt cfg h i b ff = some s₀ ∧ s₀.Takes ff ∧ s₀.payload = none ∧
      s₀.checkFragLen ff = some size ∧ s = s₀.receive size ff ∧
      (s.payload.isSome ∨ s.fragTotal ≤ s.received) := by
  have ⟨s₀, hm, hs⟩ := Option.bind_eq_some_iff.mp ha
  split at hs
  case isFalse => cases hs
  case isTrue ht =>
    have ⟨hs, hp⟩ := Option.filter_eq_some_iff.mp hs
    have ⟨size, hsize, e⟩ := Option.map_eq_some_iff.mp hs
    exact ⟨s₀, size, hm, ht.1, ht.2, hsize, e.symm, by simpa using hp⟩

-- The buffer is allocated by the fragment with which the slot has enough.
theorem Recorded.allocated (hq : Recorded Slot.Staged q) (hd : op.Carries Sized)
    (ha : s ∈ allocated fmt cfg h q.1 op) :
    let fs := q.2.after fmt cfg h q.1 op s.key
    s.Made fs ∧ fs ≠ [] ∧ fs.length = promoteAfter s.fragTotal := by
  cases op
  case tick  => cases ha
  case purge => cases ha
  case observe i ff =>
    have hrule : Parts.Rule fmt cfg h Sized Slot.Staged := staged
    have hq : Recorded _ (sweepIfDue cfg h i q.1, q.2) := hrule.sweepIfDue hq
    have ⟨s₀, size, hm, ht, hp, hsize, e, hfull⟩ := allocating_met ha
    have hs₀ := hrule.met hq hd hm
    have hmade := hs₀.made.receive ht hsize
    have ⟨_, _, e'⟩ := s₀.receive_eq size ff
    have htot : s.fragTotal = s₀.fragTotal := by rw [e, e']
    have hkey : s.key = slotKey fmt ff := by
      rw [e, Slot.receive_key]
      exact hq.keyed.met rfl hm
    simp only [hkey, Parts.after, Parts.add_taken hm ht]
    refine ⟨e ▸ hmade, by simp, ?_⟩
    have hlt := hs₀.waiting hp
    have hge : promoteAfter s₀.fragTotal ≤
        (q.2.before fmt (sweepIfDue cfg h i q.1).1 ff).length + 1 := by
      cases hfull
      case inl hsome =>
        have hpay := hs₀.payload_receive ht hsize
        rw [← e, Option.isSome_iff_ne_none.mp hsome |> iff_false_intro, false_iff] at hpay
        exact not_lt.mp fun h => hpay ⟨hp, h⟩
      case inr hfull =>
        have hrec : s.received = _ := (e ▸ hmade).received
        rw [htot, hrec, List.length_append, List.length_singleton] at hfull
        exact promoteAfter_le.trans hfull
    rw [htot, List.length_append, List.length_singleton]
    exact Nat.le_antisymm hlt hge

-- The whole buffers are within the bound exactly if every slot that gets one has the last fragment
-- of its object or has shown enough of the others.
theorem bounded_iff_proportionate {ops : List Op} {w : ω} (hd : ∀ op ∈ ops, op.Carries Sized) :
    Run.Along (traced fmt cfg h) (Bounded fmt cfg h) (({}, w), fun _ => []) ops ↔
      Run.Along (traced fmt cfg h) (Proportionate fmt cfg h) (({}, w), fun _ => []) ops := by
  refine Run.along_iff_along (fun q op hq hd => ?_) (fun q op hq hd _ => staged.step hq hd)
    Recorded.empty hd
  refine forall_congr' fun s => forall_congr' fun ha => ?_
  have ⟨hm, hne, hlen⟩ := hq.allocated hd ha
  exact hm.bounded_iff hne hlen

-- Fragment `j` of nine. The first eight make the buffer be allocated.
def ninth (len : Nat) (j : Nat) : Op :=
  .observe ⟨0, fun _ => 0⟩ ⟨.fill 1, .zero, 5, j + 1, j, 9, len, FrameVer.v2, 0, [j.toUInt8]⟩

theorem bounded_nine_bytes :
    Run.Along (traced lastByte (.new 0 0 true) Hooks.none)
      (Bounded lastByte (.new 0 0 true) Hooks.none) (({}, ()), fun _ => [])
        ((List.range 9).map (ninth 9)) :=
  (bounded_iff_proportionate (by decide +kernel)).mpr (by decide +kernel)

-- Eight bytes are enough for a buffer of 64 MiB.
theorem eight_bytes_not_bounded :
    (∀ op ∈ (List.range 8).map (ninth (64 * 2 ^ 20)), op.Carries Sized) ∧
      ¬Run.Along (traced lastByte (.new 0 0 true) Hooks.none)
        (Bounded lastByte (.new 0 0 true) Hooks.none) (({}, ()), fun _ => [])
        ((List.range 8).map (ninth (64 * 2 ^ 20))) := by
  decide +kernel

end Reassembly
