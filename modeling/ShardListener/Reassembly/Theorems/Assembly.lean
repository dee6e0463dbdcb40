import ShardListener.Reassembly.Theorems.Parts
import ShardListener.Reassembly.Theorems.Window

namespace Reassembly

open Buffer

-- The data of the first of the fragments that has the index `j`.
def dataAt (fs : List FragFrame) (j : Nat) : Bytes :=
  ((fs.find? (·.fragIndex = j)).map FragFrame.fragData).getD []

namespace Slot

variable {s s' : Slot} {ff f : FragFrame} {fs : List FragFrame} {size j : Nat}

-- What a slot is once it has taken the fragments `fs`. Each has a place of its own, and all of them
-- imply the size of the slot.
structure Made (fs : List FragFrame) (s : Slot) : Prop where
  holds    : s.Holds fs
  received : s.received = fs.length
  nodup    : (fs.map FragFrame.fragIndex).Nodup
  held     : ∀ j, s.held[j]? = some true ↔ j ∈ fs.map FragFrame.fragIndex
  count    : s.held.count true = fs.length
  lengths  : s.held.length = s.fragTotal ∧ s.fragSeq.length = s.fragTotal
  sized    : ∀ f ∈ fs, s.impliedSize f = some s.fragSize

theorem impliedSize_receive : (s.receive size ff).impliedSize f = s.impliedSize f := by
  have ⟨_, _, e⟩ := s.receive_eq size ff
  rw [e]
  rfl

theorem length_written : (s.written fs).length = s.origPayloadLen := by
  induction fs using List.reverseRecOn
  case nil               => simp [written]
  case append_singleton fs f hi => simp [written_append, place, hi]

-- Fragments that lie side by side are all found in their places.
theorem getElem?_written {data : Nat → Bytes} {n r : Nat} (ht : List.Tiles s.fragSize n data)
    (hl : ∀ j < n, j * s.fragSize + (data j).length ≤ s.origPayloadLen)
    (hd : ∀ f ∈ fs, f.fragIndex < n ∧ f.fragData = data f.fragIndex) (hf : f ∈ fs)
    (hr : r < (data f.fragIndex).length) :
    (s.written fs)[f.fragIndex * s.fragSize + r]? = (data f.fragIndex)[r]? := by
  induction fs using List.reverseRecOn
  case nil => cases hf
  case append_singleton fs g hi =>
    have ⟨hg, eg⟩ := hd g (by simp)
    have ⟨hlt, _⟩ := hd f hf
    have hend := hl _ hlt
    simp only [written_append, place, List.getElem?_writeAt, length_written, eg]
    by_cases e : f.fragIndex = g.fragIndex
    case pos => rw [← e, if_pos (by omega), Nat.add_sub_cancel_left]
    case neg =>
      have hout := ht.outside hlt hg e hr
      have hf : f ∈ fs := (List.mem_append.mp hf).resolve_right fun h =>
        e (congrArg FragFrame.fragIndex (List.mem_singleton.mp h))
      rw [if_neg (by omega)]
      exact hi (fun f hf => hd f (List.mem_append_left _ hf)) hf

namespace Made

theorem newSlot {ω : Type} {cfg : Config} {h : Hooks ω} {i : Instant} {key : Bytes32} :
    Made [] (Buffer.newSlot cfg h i key ff) where
  holds    := rfl
  received := rfl
  nodup    := List.nodup_nil
  held     := by simp [Buffer.newSlot, List.getElem?_replicate]
  count    := by simp [Buffer.newSlot, List.count_replicate]
  lengths  := by simp [Buffer.newSlot]
  sized    := by simp

theorem kept (hm : Made fs s) (hk : s.Kept s') : Made fs s' := by
  have ⟨_, _, _, e⟩ := hk
  subst e
  exact ⟨hm.holds, hm.received, hm.nodup, hm.held, hm.count, hm.lengths, hm.sized⟩

theorem within (hm : Made fs s) (hf : f ∈ fs) : f.fragIndex < s.fragTotal := by
  have hh := (hm.held f.fragIndex).mpr (List.mem_map_of_mem hf)
  exact hm.lengths.1 ▸ (List.getElem?_eq_some_iff.mp hh).1

theorem implies (hm : Made fs s) (hf : f ∈ fs) : s.Implies f s.fragSize :=
  impliedSize_some (hm.sized f hf)

-- The slot had no size yet, or the fragment implies the one it has.
theorem fragSize (hm : Made fs s) (hf : f ∈ fs) (hs : s.checkFragLen ff = some size) :
    s.fragSize = size :=
  (checkFragLen_some hs).2 (hm.implies hf).size_pos.ne'

theorem receive (hm : Made fs s) (ht : s.Takes ff) (hs : s.checkFragLen ff = some size) :
    Made (fs ++ [ff]) (s.receive size ff) := by
  have ⟨_, hidx, hheld, _⟩ := ht
  have hfree : ff.fragIndex ∉ fs.map FragFrame.fragIndex := mt (hm.held _).mpr hheld
  have hlt : ff.fragIndex < s.held.length := hm.lengths.1.symm ▸ hidx
  have ⟨_, _, e⟩ := s.receive_eq size ff
  refine ⟨hm.holds.receive hs, ?received, ?nodup, fun j => ?held, ?count, ?lengths,
    fun f hf => ?sized⟩
  case received => simp [e, hm.received]
  case nodup =>
    rw [List.map_append, List.map_singleton]
    exact Fifo.nodup_snoc hm.nodup hfree
  case held =>
    simp only [e, List.getElem?_set, List.map_append, List.map_singleton, List.mem_append,
      List.mem_singleton, ← hm.held]
    by_cases hj : ff.fragIndex = j
    case pos => simp [← hj, hlt]
    case neg => simp [hj, Ne.symm hj]
  case count =>
    have hoff : s.held[ff.fragIndex] ≠ true :=
      fun h => hheld (List.getElem?_eq_some_iff.mpr ⟨hlt, h⟩)
    simp [e, List.count_set hlt, hoff, hm.count]
  case lengths => simp [e, hm.lengths]
  case sized =>
    have hsize : (s.receive size ff).fragSize = size := by rw [e]
    rw [impliedSize_receive, hsize]
    cases List.mem_append.mp hf
    case inl hf => exact hm.fragSize hf hs ▸ hm.sized f hf
    case inr hf =>
      cases List.mem_singleton.mp hf
      exact (checkFragLen_some hs).1

-- There is one fragment for every index of a full slot.
theorem full (hm : Made fs s) (hr : s.fragTotal ≤ s.received) (hj : j < s.fragTotal) :
    ∃ f ∈ fs, f.fragIndex = j := by
  have hsub : fs.map FragFrame.fragIndex ⊆ List.range s.fragTotal := by
    intro k hk
    have ⟨f, hf, e⟩ := List.mem_map.mp hk
    exact List.mem_range.mpr (e ▸ hm.within hf)
  have hlen : (List.range s.fragTotal).length ≤ (fs.map FragFrame.fragIndex).length := by
    simpa [← hm.received] using hr
  have hperm := (hm.nodup.subperm hsub).perm_of_length_le hlen
  exact List.mem_map.mp (hperm.mem_iff.mpr (List.mem_range.mpr hj))

-- The first fragment with an index is the only one.
theorem dataAt_eq (hm : Made fs s) (hf : f ∈ fs) : dataAt fs f.fragIndex = f.fragData := by
  have ⟨g, hg⟩ : ∃ g, fs.find? (·.fragIndex = f.fragIndex) = some g :=
    Option.isSome_iff_exists.mp (List.find?_isSome.mpr ⟨f, hf, by simp⟩)
  have e : g.fragIndex = f.fragIndex := by simpa using List.find?_some hg
  have e : g = f := List.inj_on_of_nodup_map hm.nodup (List.mem_of_find?_eq_some hg) hf e
  simp [dataAt, hg, e]

theorem tiles (hm : Made fs s) (hr : s.fragTotal ≤ s.received) :
    List.Tiles s.fragSize s.fragTotal (dataAt fs) := by
  intro j hj
  have ⟨f, hf, e⟩ := hm.full hr (Nat.lt_of_succ_lt hj)
  rw [← e, hm.dataAt_eq hf]
  exact (hm.implies hf).inner (e ▸ hj)

-- The place of a fragment ends where the next one starts, or where the object ends.
theorem end_le (hm : Made fs s) (hf : f ∈ fs) :
    f.fragIndex * s.fragSize + f.fragData.length ≤ s.origPayloadLen := by
  have hi := hm.implies hf
  have hroom := hi.room
  rcases Nat.lt_or_eq_of_le (hm.within hf) with hlt | e
  case inl =>
    have hle : (f.fragIndex + 1) * s.fragSize ≤ (s.fragTotal - 1) * s.fragSize :=
      Nat.mul_le_mul_right _ (by omega)
    have hlen := hi.inner hlt
    rw [Nat.succ_mul] at hle
    omega
  case inr =>
    have hlast := hi.last e
    have e : f.fragIndex = s.fragTotal - 1 := by omega
    rw [e]
    omega

theorem written (hm : Made fs s) (ht : 0 < s.fragTotal) (hr : s.fragTotal ≤ s.received) :
    s.written fs = (List.range s.fragTotal).flatMap (dataAt fs) := by
  have ⟨n, hn⟩ := Nat.exists_eq_succ_of_ne_zero ht.ne'
  have ⟨l, hl, el⟩ := hm.full hr (hn ▸ Nat.lt_succ_self n)
  have hlast := (hm.implies hl).last (by omega)
  have htiles := hm.tiles hr
  have hend : ∀ j < s.fragTotal, j * s.fragSize + (dataAt fs j).length ≤ s.origPayloadLen := by
    intro j hj
    have ⟨f, hf, e⟩ := hm.full hr hj
    rw [← e, hm.dataAt_eq hf]
    exact hm.end_le hf
  have hplaced : ∀ j < s.fragTotal, ∀ r < (dataAt fs j).length,
      (s.written fs)[j * s.fragSize + r]? = (dataAt fs j)[r]? := by
    intro j hj r hlt
    have ⟨f, hf, e⟩ := hm.full hr hj
    subst e
    exact getElem?_written htiles hend (fun g hg => ⟨hm.within hg, (hm.dataAt_eq hg).symm⟩) hf hlt
  rw [hn] at htiles hplaced hlast ⊢
  refine htiles.eq_flatMap (hm.implies hl).size_pos ?_ fun j hj => hplaced j (Nat.lt_succ_of_le hj)
  rw [length_written, ← el, hm.dataAt_eq hl, el]
  exact hlast.symm

end Made
end Slot

variable {ω : Type}

-- The slot that the operation completes.
def completed (fmt : Formats) (cfg : Config) (h : Hooks ω) (p : Buffer × ω) : Op → Option Slot
  | .observe i ff => completing fmt cfg h i (sweepIfDue cfg h i p).1 ff
  | _             => none

-- The log after some calls, in which only objects in `D` are delivered.
def Adds (log : List Call) (D : Delivery → Prop) (w : ω × List Call) : Prop :=
  ∃ calls, w.2 = log ++ calls ∧ ∀ d, .complete d ∈ calls → D d

-- The payload of a slot with the fragments `fs` is their concatenation: it has the declared length,
-- there is a fragment for every index, and all of them imply one size.
structure Slot.Concatenated (s : Slot) (fs : List FragFrame) : Prop where
  length : (s.payload.getD s.assembled).length = s.origPayloadLen
  bytes  : s.payload.getD s.assembled = (List.range s.fragTotal).flatMap (dataAt fs)
  full   : ∀ j < s.fragTotal, ∃ f ∈ fs, f.fragIndex = j
  sized  : ∃ size, ∀ f ∈ fs, s.impliedSize f = some size

-- The slot that the operation completes has the concatenation of the fragments that it has taken,
-- and nothing else is delivered.
structure Concatenates (fmt : Formats) (cfg : Config) (h : Hooks ω)
    (q : (Buffer × (ω × List Call)) × Parts) (op : Op) : Prop where
  payload : ∀ s ∈ completed fmt cfg h.logged q.1 op,
    s.Concatenated (q.2.after fmt cfg h.logged q.1 op s.key)
  only    : Adds q.1.2.2
    (fun d => ∃ s ∈ completed fmt cfg h.logged q.1 op, d = s.delivery (s.payload.getD s.assembled))
    (step fmt cfg h.logged q.1 op).2

variable {fmt : Formats} {cfg : Config} {h : Hooks ω} {op : Op}

theorem made : Parts.Rule fmt cfg h (fun _ => True) Slot.Made where
  kept _ _ _ hm hk           := hm.kept hk
  newSlot _ _ _ _ _          := .newSlot
  receive _ _ _ _ _ hm ht hs := hm.receive ht hs

theorem Slot.Made.concatenated {s : Slot} {fs : List FragFrame} (hm : s.Made fs)
    (ht : 0 < s.fragTotal) (hr : s.fragTotal ≤ s.received) : s.Concatenated fs where
  length := by rw [hm.holds.payload, length_written]
  bytes  := by rw [hm.holds.payload, hm.written ht hr]
  full   := fun _ hj => hm.full hr hj
  sized  := ⟨s.fragSize, hm.sized⟩

namespace Adds

variable {log : List Call} {D : Delivery → Prop} {w : ω × List Call} {i : Instant} {ff : FragFrame}
variable {p : Buffer × (ω × List Call)} {d : Delivery}

theorem refl : Adds w.2 D w :=
  ⟨[], (List.append_nil _).symm, by simp⟩

theorem deliver (ha : Adds log D w) (hd : D d) : Adds log D (h.logged.deliver fmt i d w) := by
  have ⟨calls, e, hc⟩ := ha
  rw [Hooks.logged_deliver]
  refine ⟨calls ++ [.complete d], by rw [e, List.append_assoc], fun d' hm => ?_⟩
  rw [List.mem_append, List.mem_singleton] at hm
  cases hm
  case inl hm => exact hc d' hm
  case inr e  => cases e; exact hd

theorem spares : h.logged.Spares (Adds log D) where
  metric _ _ _ ha       := ha
  onIncomplete _ q _ ha := by
    have ⟨calls, e, hc⟩ := ha
    refine ⟨calls ++ [.incomplete q], ?_, fun d hm => hc d (by simpa using hm)⟩
    simp [Hooks.logged, e]

theorem gather (ha : Adds log D p.2)
    (hd : ∀ s ∈ completing fmt cfg h.logged i p.1 ff, D (s.delivery (s.payload.getD s.assembled))) :
    Adds log D (gather fmt cfg h.logged i ff p).2 :=
  gather_env (fun _ _ ha => ha) (fun _ ha => ha) (fun s hc _ ha => ha.deliver (hd s hc)) ha

theorem foldl_abandoned {keys : List Bytes32} (ha : Adds log D w) :
    Adds log D (keys.foldl (fun w _ => h.logged.metric .abandoned w) w) := by
  induction keys generalizing w
  case nil              => exact ha
  case cons key keys hi => exact hi (spares.metric .abandoned w nofun ha)

theorem step {p : Buffer × (ω × List Call)} :
    Adds p.2.2
      (fun d => ∃ s ∈ completed fmt cfg h.logged p op, d = s.delivery (s.payload.getD s.assembled))
      (step fmt cfg h.logged p op).2 := by
  cases op
  case observe i ff => exact (spares.sweepIfDue refl).gather fun s hs => ⟨s, hs, rfl⟩
  case tick i       => exact spares.evictExpired refl
  case purge        => exact foldl_abandoned refl

end Adds

theorem Recorded.concatenates {q : (Buffer × (ω × List Call)) × Parts} (hq : Recorded Slot.Made q) :
    Concatenates fmt cfg h q op where
  only    := .step
  payload := by
    intro s hs
    cases op
    case tick  => cases hs
    case purge => cases hs
    case observe i ff =>
      have hrule : Parts.Rule fmt cfg h.logged _ Slot.Made := made
      have hq : Recorded _ (sweepIfDue cfg h.logged i q.1, q.2) := hrule.sweepIfDue hq
      have hmade := hrule.completing hq trivial hs
      have ⟨s₀, size, hm, hby, _, e⟩ := completing_met hs
      have hkey : s.key = slotKey fmt ff := by
        rw [e, Slot.receive_key]
        exact hq.keyed.met rfl hm
      have ⟨_, _, e'⟩ := s₀.receive_eq size ff
      have ⟨_, hidx, _, _, hfull⟩ := hby
      rw [hkey]
      refine hmade.concatenated ?_ ?_
      case refine_1 => simp [e, e', Nat.zero_lt_of_lt hidx]
      case refine_2 => simpa [e, e'] using hfull

-- In every run, with whatever fragments: the payload of a completed slot is the plain concatenation
-- of the fragments that it has taken.
theorem assembly_concatenates {ops : List Op} {w : ω} :
    Run.Along (traced fmt cfg h.logged) (Concatenates fmt cfg h)
      (({}, (w, [])), fun _ => []) ops := by
  refine Run.along_of_preserved (fun q op hq _ _ => made.step hq ?_)
    (fun q op hq _ _ => hq.concatenates)
    Recorded.empty (fun _ _ => trivial) (Run.Along.of_forall fun _ _ => trivial)
  cases op <;> trivial

end Reassembly
