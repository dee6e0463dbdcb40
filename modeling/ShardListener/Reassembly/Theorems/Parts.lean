import ShardListener.Reassembly.Theorems.Gather

namespace Reassembly

namespace Slot

variable {s s' : Slot} {ff : FragFrame} {fs : List FragFrame} {size : Nat}

-- What the length of a fragment that implies the size `size` is.
structure Implies (s : Slot) (ff : FragFrame) (size : Nat) : Prop where
  pos      : 0 < ff.fragData.length
  size_pos : 0 < size
  room     : (s.fragTotal - 1) * size < s.origPayloadLen
  inner    : ff.fragIndex + 1 < s.fragTotal → ff.fragData.length = size
  last     : ff.fragIndex + 1 = s.fragTotal →
    (s.fragTotal - 1) * size + ff.fragData.length = s.origPayloadLen

theorem impliedSize_some (hs : s.impliedSize ff = some size) : s.Implies ff size := by
  simp only [impliedSize] at hs
  split at hs
  case isTrue => cases hs
  case isFalse hn =>
    have hpos := Nat.pos_of_ne_zero hn
    split at hs
    case isTrue ht =>
      -- The only fragment is the object.
      split at hs
      case isTrue => cases hs
      case isFalse hl =>
        cases hs
        have hl := not_not.mp hl
        refine ⟨hpos, hpos, ?_, fun _ => rfl, fun _ => ?_⟩
        case refine_1 => simpa [ht] using hl ▸ hpos
        case refine_2 => simpa [ht] using hl
    case isFalse ht =>
      split at hs
      case isTrue hi =>
        split at hs
        case isTrue => cases hs
        case isFalse hr =>
          -- The rest is positive and a multiple of the size.
          obtain ⟨hlt, hmod⟩ := not_or.mp hr
          have hdiv := Nat.div_add_mod (s.origPayloadLen - ff.fragData.length) (s.fragTotal - 1)
          rw [not_not.mp hmod, Nat.add_zero] at hdiv
          cases hs
          refine ⟨hpos, Nat.pos_of_ne_zero fun e => ?_, by omega, by omega, by omega⟩
          rw [e, Nat.mul_zero] at hdiv
          omega
      case isFalse hi =>
        split at hs
        case isTrue => cases hs
        case isFalse hr =>
          cases hs
          rw [Nat.mul_comm] at hr
          exact ⟨hpos, hpos, not_le.mp hr, fun _ => rfl, by omega⟩

theorem checkFragLen_some (hs : s.checkFragLen ff = some size) :
    s.impliedSize ff = some size ∧ (s.fragSize ≠ 0 → s.fragSize = size) := by
  simp only [checkFragLen] at hs
  split at hs
  case h_1 => cases hs
  case h_2 size' hi =>
    split at hs
    case isTrue => cases hs
    case isFalse hz =>
      cases hs
      exact ⟨hi, fun h => not_not.mp (not_and.mp hz h)⟩

-- The buffer with the bytes of the fragments.
def written (s : Slot) (fs : List FragFrame) : Bytes :=
  fs.foldl (fun buf ff => place s.fragSize buf ⟨ff.fragIndex, ff.fragData⟩)
    (List.replicate s.origPayloadLen 0)

-- The slot has the bytes of the fragments `fs`, in its buffer or waiting for it.
def Holds (s : Slot) (fs : List FragFrame) : Prop :=
  match s.payload with
  | some buf => s.fragSize ≠ 0 ∧ buf = s.written fs
  | none     => s.early = fs.map fun ff => ⟨ff.fragIndex, ff.fragData⟩

theorem Holds.assembled (hh : s.Holds fs) (hp : s.payload = none) : s.assembled = s.written fs := by
  simp only [Holds, hp] at hh
  simp only [Slot.assembled, written, hh, List.foldl_map]

-- What a slot is completed with.
theorem Holds.payload (hh : s.Holds fs) : s.payload.getD s.assembled = s.written fs := by
  cases hp : s.payload
  case none => exact hh.assembled hp
  case some =>
    simp only [Holds, hp] at hh
    exact hh.2

theorem written_append :
    s.written (fs ++ [ff]) = place s.fragSize (s.written fs) ⟨ff.fragIndex, ff.fragData⟩ := by
  simp [written]

theorem Holds.store (hh : s.Holds fs) (hz : s.fragSize ≠ 0) :
    (s.store ff.fragIndex ff.fragData).Holds (fs ++ [ff]) := by
  simp only [Slot.store]
  split
  case h_1 buf hp =>
    simp only [Holds, hp] at hh
    refine ⟨hz, ?_⟩
    rw [hh.2]
    exact written_append.symm
  case h_2 hp =>
    have hw : Holds { s with early := s.early ++ [⟨ff.fragIndex, ff.fragData⟩] } (fs ++ [ff]) := by
      simp only [Holds, hp] at hh
      simp only [Holds, hp, hh, List.map_append, List.map_singleton]
    split
    case isTrue  => exact ⟨hz, hw.assembled hp⟩
    case isFalse => exact hw

-- A fragment of another size would have been refused.
theorem Holds.receive (hh : s.Holds fs) (hs : s.checkFragLen ff = some size) :
    (s.receive size ff).Holds (fs ++ [ff]) := by
  have ⟨hi, hsize⟩ := checkFragLen_some hs
  have hz := (impliedSize_some hi).size_pos.ne'
  have hh' : Holds { s with fragSize := size } fs := by
    cases hp : s.payload
    case none => simpa only [Holds, hp] using hh
    case some buf =>
      simp only [Holds, hp] at hh
      simp only [Holds]
      exact ⟨hz, hsize hh.1 ▸ hh.2⟩
  exact hh'.store hz

theorem Holds.kept (hh : s.Holds fs) (hk : s.Kept s') : s'.Holds fs := by
  have ⟨_, _, _, e⟩ := hk
  subst e
  exact hh

end Slot

open Buffer

-- The fragments that the slots have taken, in the order in which they came.
abbrev Parts := Bytes32 → List FragFrame

namespace Parts

variable {ω : Type} (fmt : Formats) (cfg : Config) (h : Hooks ω)

-- A slot that is opened has taken none before.
def add (i : Instant) (b : Buffer) (ff : FragFrame) (parts : Parts) : Parts :=
  let key := slotKey fmt ff
  if (met fmt cfg h i b ff).any (·.Takes ff) then
    Function.update parts key ((if key ∈ b.slots then parts key else []) ++ [ff])
  else parts

def after (p : Buffer × ω) (parts : Parts) : Op → Parts
  | .observe i ff => parts.add fmt cfg h i (sweepIfDue cfg h i p).1 ff
  | _             => parts

-- The parts of the slot that a fragment meets.
def before (b : Buffer) (ff : FragFrame) (parts : Parts) : List FragFrame :=
  if slotKey fmt ff ∈ b.slots then parts (slotKey fmt ff) else []

variable {fmt cfg h} {i : Instant} {b : Buffer} {ff : FragFrame} {parts : Parts} {s : Slot}
variable {k : Bytes32}

theorem before_of_lookup (hl : b.slots.lookup (slotKey fmt ff) = some s) :
    parts.before fmt b ff = parts (slotKey fmt ff) :=
  if_pos (AList.mem_iff_lookup.mpr ⟨s, hl⟩)

theorem before_of_lookup_none (hl : b.slots.lookup (slotKey fmt ff) = none) :
    parts.before fmt b ff = [] :=
  if_neg (AList.lookup_eq_none.mp hl)

theorem add_taken (hm : met fmt cfg h i b ff = some s) (ht : s.Takes ff) :
    parts.add fmt cfg h i b ff (slotKey fmt ff) = parts.before fmt b ff ++ [ff] := by
  have hany : (met fmt cfg h i b ff).any (·.Takes ff) = true := by simpa [hm] using ht
  simp [add, before, hany]

-- The other slots keep their parts.
theorem add_untaken (hn : k = slotKey fmt ff → ∀ s, met fmt cfg h i b ff = some s → ¬s.Takes ff) :
    parts.add fmt cfg h i b ff k = parts k := by
  simp only [add]
  cases hm : met fmt cfg h i b ff
  case none => rfl
  case some s =>
    split
    case isFalse   => rfl
    case isTrue ht => exact Function.update_of_ne (fun e => hn e s hm (by simpa using ht)) ..

end Parts

variable {ω : Type}

-- A step, with the record of the fragments.
def traced (fmt : Formats) (cfg : Config) (h : Hooks ω) (q : (Buffer × ω) × Parts) (op : Op) :
    (Buffer × ω) × Parts :=
  (step fmt cfg h q.1 op, q.2.after fmt cfg h q.1 op)

-- The fragment of the operation has the property `D`.
def Op.Carries (D : FragFrame → Prop) : Op → Prop
  | .observe _ ff => D ff
  | _             => True

instance {D : FragFrame → Prop} [DecidablePred D] : DecidablePred (Op.Carries D)
  | .observe _ ff => inferInstanceAs (Decidable (D ff))
  | .tick _       => .isTrue trivial
  | .purge        => .isTrue trivial

-- A relation between the parts of a slot and the slot, which is there when the slot is opened and
-- stays when it is kept by a sweep and when it takes a fragment with the property `D`.
structure Parts.Rule (fmt : Formats) (cfg : Config) (h : Hooks ω) (D : FragFrame → Prop)
    (R : List FragFrame → Slot → Prop) : Prop where
  kept    : ∀ fs s s', R fs s → s.Kept s' → R fs s'
  newSlot : ∀ i b ff, D ff → Opens fmt cfg b ff → R [] (newSlot cfg h i (slotKey fmt ff) ff)
  receive : ∀ fs s ff size, D ff → R fs s → s.Takes ff → s.checkFragLen ff = some size →
    R (fs ++ [ff]) (s.receive size ff)

-- Every slot is stored under its key, and is related to its parts.
structure Recorded (R : List FragFrame → Slot → Prop) (q : (Buffer × ω) × Parts) : Prop where
  keyed : q.1.1.Keyed
  all   : q.1.1.All fun key s => R (q.2 key) s

namespace Parts.Rule

variable {fmt : Formats} {cfg : Config} {h : Hooks ω} {D : FragFrame → Prop}
variable {R : List FragFrame → Slot → Prop} {q : (Buffer × ω) × Parts} {i : Instant}
variable {ff : FragFrame}
variable {op : Op} {s : Slot} {size : Nat}

theorem met (hr : Parts.Rule fmt cfg h D R) (hq : Recorded R q) (hd : D ff)
    (hm : Buffer.met fmt cfg h i q.1.1 ff = some s) : R (q.2.before fmt q.1.1 ff) s := by
  rcases met_eq_some hm with hl | ⟨hl, ho, e⟩
  case inl => exact before_of_lookup hl ▸ hq.all _ s hl
  case inr => exact before_of_lookup_none hl ▸ e ▸ hr.newSlot i _ ff hd ho

-- The slot that takes a fragment, whether it is completed or not.
theorem taken (hr : Parts.Rule fmt cfg h D R) (hq : Recorded R q) (hd : D ff)
    (hm : Buffer.met fmt cfg h i q.1.1 ff = some s) (ht : s.Takes ff)
    (hs : s.checkFragLen ff = some size) :
    R (q.2.add fmt cfg h i q.1.1 ff (slotKey fmt ff)) (s.receive size ff) := by
  rw [add_taken hm ht]
  exact hr.receive _ s ff size hd (hr.met hq hd hm) ht hs

theorem sweep {p : Buffer × ω} (hr : Parts.Rule fmt cfg h D R) (hq : Recorded R q)
    (ho : ∀ k, Outlives (q.1.1.slots.lookup k) (p.1.slots.lookup k)) : Recorded R (p, q.2) where
  keyed := hq.keyed.sweep ho
  all   := hq.all.sweep (fun _ s s' => hr.kept _ s s') ho

theorem gather (hr : Parts.Rule fmt cfg h D R) (hq : Recorded R q) (hd : D ff) :
    Recorded R (Buffer.gather fmt cfg h i ff q.1, q.2.add fmt cfg h i q.1.1 ff) where
  keyed := hq.keyed.gather
  all   := by
    intro k s' hl
    rcases lookup_gather hq.keyed hl with ⟨hl, hn⟩ | ⟨e, s, size, hm, ht, _, hs, e'⟩
    case inl =>
      dsimp only
      rw [add_untaken hn]
      exact hq.all k s' hl
    case inr =>
      subst e e'
      exact hr.taken hq hd hm ht hs

theorem sweepIfDue (hr : Parts.Rule fmt cfg h D R) (hq : Recorded R q) :
    Recorded R (Buffer.sweepIfDue cfg h i q.1, q.2) :=
  hr.sweep hq fun _ => sweepIfDue_outlives

theorem step (hr : Parts.Rule fmt cfg h D R) (hq : Recorded R q) (hd : op.Carries D) :
    Recorded R (traced fmt cfg h q op) := by
  cases op
  case observe i ff => exact hr.gather (hr.sweepIfDue hq) hd
  case tick i       => exact hr.sweep hq fun _ => evictExpired_outlives
  case purge        => exact ⟨nofun, nofun⟩

theorem completing (hr : Parts.Rule fmt cfg h D R) (hq : Recorded R q) (hd : D ff)
    (hc : Buffer.completing fmt cfg h i q.1.1 ff = some s) :
    R (q.2.add fmt cfg h i q.1.1 ff (slotKey fmt ff)) s := by
  have ⟨s₀, size, hm, hby, hsize, e⟩ := completing_met hc
  exact e ▸ hr.taken hq hd hm hby.takes hsize

end Parts.Rule

theorem Recorded.empty {R : List FragFrame → Slot → Prop} {w : ω} {parts : Parts} :
    Recorded R (({}, w), parts) :=
  ⟨nofun, nofun⟩

end Reassembly
