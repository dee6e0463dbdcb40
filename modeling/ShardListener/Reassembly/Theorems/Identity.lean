import ShardListener.Reassembly.Theorems.Exact
import ShardListener.Reassembly.Theorems.Parts

namespace Reassembly

namespace Slot

variable {s s' : Slot} {ff : FragFrame} {fs : List FragFrame} {size : Nat}

-- The fragment carries the metadata of the slot, which are those that the completed frame reports.
def Agrees (s : Slot) (ff : FragFrame) : Prop :=
  ff.fragTotal = s.fragTotal ∧ ff.origPayloadLen = s.origPayloadLen ∧
    ff.origFrameVer = s.origFrameVer ∧ ff.msgType = s.msgType ∧ ff.txID = s.txID ∧
    (s.origFrameVer = FrameVer.v9 → ff.subtreeID = s.subtreeID)

instance : DecidablePred s.Agrees :=
  fun _ => inferInstanceAs (Decidable (_ ∧ _ ∧ _ ∧ _ ∧ _ ∧ (_ → _)))

-- The metadata of a fragment that its key does not tell are those of the slot.
def Matches (s : Slot) (ff : FragFrame) : Prop :=
  ff.origPayloadLen = s.origPayloadLen ∧ ff.origFrameVer = s.origFrameVer ∧ ff.msgType = s.msgType

instance : DecidablePred s.Matches :=
  fun _ => inferInstanceAs (Decidable (_ ∧ _ ∧ _))

theorem Agrees.kept (ha : s.Agrees ff) (hk : s.Kept s') : s'.Agrees ff := by
  have ⟨_, _, _, e⟩ := hk
  subst e
  exact ha

theorem agrees_receive {f : FragFrame} : (s.receive size ff).Agrees f ↔ s.Agrees f := by
  have ⟨_, _, e⟩ := s.receive_eq size ff
  rw [e]
  exact Iff.rfl

end Slot

open Buffer

variable {ω : Type}

-- The slot whose object a fragment causes to be delivered.
def delivering (fmt : Formats) (cfg : Config) (h : Hooks ω) (i : Instant) (b : Buffer)
    (ff : FragFrame) : Option Slot :=
  (completing fmt cfg h i b ff).filter fun s =>
    ¬(cfg.verifyHash ∧ ¬verified fmt s.origFrameVer s.txID (s.payload.getD s.assembled))

-- If the operation delivers an object, then its payload is written by fragments that all carry the
-- metadata of the object.
def Unmixed (fmt : Formats) (cfg : Config) (h : Hooks ω) (q : (Buffer × ω) × Parts) : Op → Prop
  | .observe i ff =>
    let b := (sweepIfDue cfg h i q.1).1
    ∀ s ∈ delivering fmt cfg h i b ff,
      s.payload.getD s.assembled = s.written (q.2.add fmt cfg h i b ff (slotKey fmt ff)) ∧
        ∀ f ∈ q.2.add fmt cfg h i b ff (slotKey fmt ff), s.Agrees f
  | _ => True

-- A fragment that goes into an open slot carries the length, the version and the message type of
-- the fragment that has opened it.
def Uniform (fmt : Formats) (cfg : Config) (h : Hooks ω) (q : (Buffer × ω) × Parts) : Op → Prop
  | .observe i ff =>
    ∀ s ∈ (sweepIfDue cfg h i q.1).1.slots.lookup (slotKey fmt ff), s.Takes ff → s.Matches ff
  | _ => True

variable {fmt : Formats} {cfg : Config} {h : Hooks ω}

instance {q : (Buffer × ω) × Parts} : DecidablePred (Unmixed fmt cfg h q)
  | .observe .. => inferInstanceAs (Decidable (∀ s ∈ _, _ = _ ∧ ∀ f ∈ _, _))
  | .tick _     => .isTrue trivial
  | .purge      => .isTrue trivial

instance {q : (Buffer × ω) × Parts} : DecidablePred (Uniform fmt cfg h q)
  | .observe .. => inferInstanceAs (Decidable (∀ s ∈ _, _ → _))
  | .tick _     => .isTrue trivial
  | .purge      => .isTrue trivial

-- SHA-256 has no collision among the (ContentID, TopicID) pairs of the fragments.
def CollisionFree (fmt : Formats) (fs : List FragFrame) : Prop :=
  ∀ f ∈ fs, ∀ g ∈ fs, f.origFrameVer = FrameVer.v9 → g.origFrameVer = FrameVer.v9 →
    fmt.pairKey f.txID f.subtreeID = fmt.pairKey g.txID g.subtreeID →
      f.txID = g.txID ∧ f.subtreeID = g.subtreeID

instance {fs : List FragFrame} : Decidable (CollisionFree fmt fs) :=
  inferInstanceAs (Decidable (∀ f ∈ _, ∀ g ∈ _, _ → _ → _ → _ ∧ _))

-- What is known of a slot: it was opened by a fragment with its key, and it has the bytes of its
-- parts, which all carry its metadata.
structure Coherent (fmt : Formats) (fs : List FragFrame) (parts : Parts) (key : Bytes32)
    (s : Slot) : Prop where
  opened : ∃ f ∈ fs, slotKey fmt f = key ∧ s.txID = f.txID ∧ s.subtreeID = f.subtreeID ∧
    s.origFrameVer = f.origFrameVer
  holds  : s.Holds (parts key)
  agrees : ∀ f ∈ parts key, s.Agrees f

namespace Coherent

variable {fs : List FragFrame} {parts : Parts} {key : Bytes32} {s s' : Slot} {ff : FragFrame}
variable {i : Instant} {b : Buffer} {size : Nat}

theorem kept (hp : Coherent fmt fs parts key s) (hk : s.Kept s') :
    Coherent fmt fs parts key s' := by
  have ⟨_, _, _, e⟩ := hk
  have ho := hp.opened
  refine ⟨?_, hp.holds.kept hk, fun f hf => (hp.agrees f hf).kept hk⟩
  subst e
  exact ho

-- The key of a fragment with the version of the slot tells the rest of its identity.
theorem agrees_of_uniform (hc : CollisionFree fmt fs)
    (hp : Coherent fmt fs parts (slotKey fmt ff) s) (hff : ff ∈ fs) (ht : s.Takes ff)
    (hu : s.Matches ff) : s.Agrees ff := by
  obtain ⟨hlen, hver, hmsg⟩ := hu
  obtain ⟨f, hf, hkey, htx, hsub, hv⟩ := hp.opened
  have hver' : f.origFrameVer = ff.origFrameVer := hv.symm.trans hver.symm
  by_cases h9 : ff.origFrameVer = FrameVer.v9
  case pos =>
    simp only [slotKey, hver', h9, ne_eq, not_true_eq_false, if_false] at hkey
    obtain ⟨et, es⟩ := hc f hf ff hff (hver'.trans h9) h9 hkey
    exact ⟨ht.1, hlen, hver, hmsg, et.symm.trans htx.symm, fun _ => es.symm.trans hsub.symm⟩
  case neg =>
    simp only [slotKey, hver', h9, ne_eq, not_false_eq_true, if_true] at hkey
    exact ⟨ht.1, hlen, hver, hmsg, hkey.symm.trans htx.symm, fun h => absurd (hver.trans h) h9⟩

theorem newSlot (hff : ff ∈ fs) (hn : parts (slotKey fmt ff) = []) :
    Coherent fmt fs parts (slotKey fmt ff) (newSlot cfg h i (slotKey fmt ff) ff) where
  opened := ⟨ff, hff, rfl, rfl, rfl, rfl⟩
  holds  := by simp [Slot.Holds, Buffer.newSlot, hn]
  agrees := by simp [hn]

theorem receive (hp : Coherent fmt fs parts key s) (ha : s.Agrees ff)
    (hs : s.checkFragLen ff = some size) {parts' : Parts} (he : parts' key = parts key ++ [ff]) :
    Coherent fmt fs parts' key (s.receive size ff) where
  opened := by
    have ⟨_, _, e⟩ := s.receive_eq size ff
    have ho := hp.opened
    rw [e]
    exact ho
  holds  := he ▸ hp.holds.receive hs
  agrees := by
    intro f hf
    rw [he, List.mem_append, List.mem_singleton] at hf
    apply Slot.agrees_receive.mpr
    cases hf
    case inl hf => exact hp.agrees f hf
    case inr e  => exact e ▸ ha

-- The slot that takes a fragment.
theorem add (hc : CollisionFree fmt fs) (ha : b.All (Coherent fmt fs parts)) (hff : ff ∈ fs)
    (hm : met fmt cfg h i b ff = some s) (ht : s.Takes ff) (hs : s.checkFragLen ff = some size)
    (hu : ∀ s ∈ b.slots.lookup (slotKey fmt ff), s.Takes ff → s.Matches ff) :
    Coherent fmt fs (parts.add fmt cfg h i b ff) (slotKey fmt ff) (s.receive size ff) := by
  have hadd : parts.add fmt cfg h i b ff (slotKey fmt ff) = _ := Parts.add_taken hm ht
  rcases met_eq_some hm with hl | ⟨hl, _, e⟩
  case inl =>
    have hp := ha _ s hl
    rw [Parts.before_of_lookup hl] at hadd
    exact hp.receive (hp.agrees_of_uniform hc hff ht (hu s hl ht)) hs hadd
  case inr =>
    subst e
    have hp : Coherent fmt fs (Function.update parts (slotKey fmt ff) []) (slotKey fmt ff)
        (Buffer.newSlot cfg h i (slotKey fmt ff) ff) := newSlot hff (Function.update_self ..)
    refine hp.receive (hp.agrees_of_uniform hc hff ht ⟨rfl, rfl, rfl⟩) hs ?_
    rw [hadd, Parts.before_of_lookup_none hl, Function.update_self]

end Coherent

namespace Buffer

variable {fs : List FragFrame} {parts : Parts} {ff : FragFrame} {i : Instant} {p : Buffer × ω}
variable {q : (Buffer × ω) × Parts} {op : Op}

-- The other slots keep their parts.
theorem All.coherent_gather (hc : CollisionFree fmt fs) (hkd : p.1.Keyed)
    (ha : p.1.All (Coherent fmt fs parts)) (hff : ff ∈ fs)
    (hu : ∀ s ∈ p.1.slots.lookup (slotKey fmt ff), s.Takes ff → s.Matches ff) :
    (Buffer.gather fmt cfg h i ff p).1.All (Coherent fmt fs (parts.add fmt cfg h i p.1 ff)) := by
  intro k s' hl
  rcases lookup_gather hkd hl with ⟨hl, hn⟩ | ⟨e, s, size, hm, ht, _, hs, e'⟩
  case inr =>
    subst e e'
    exact .add hc ha hff hm ht hs hu
  case inl =>
    have hp := ha k s' hl
    have e : parts.add fmt cfg h i p.1 ff k = parts k := Parts.add_untaken hn
    exact ⟨hp.opened, e.symm ▸ hp.holds, e.symm ▸ hp.agrees⟩

end Buffer

-- Every slot is stored under its key, and is coherent.
def Consistent (fmt : Formats) (fs : List FragFrame) (q : (Buffer × ω) × Parts) : Prop :=
  q.1.1.Keyed ∧ q.1.1.All (Coherent fmt fs q.2)

-- The fragment of the operation is one of `fs`.
def Op.Brought (fs : List FragFrame) : Op → Prop
  | .observe _ ff => ff ∈ fs
  | _             => True

namespace Consistent

variable {fs : List FragFrame} {ff : FragFrame} {i : Instant} {q : (Buffer × ω) × Parts} {op : Op}

theorem sweep {q' : Buffer × ω} (hq : Consistent fmt fs q)
    (ho : ∀ k, Outlives (q.1.1.slots.lookup k) (q'.1.slots.lookup k)) :
    Consistent fmt fs (q', q.2) :=
  ⟨hq.1.sweep ho, hq.2.sweep (fun _ _ _ hp hk => hp.kept hk) ho⟩

theorem step (hc : CollisionFree fmt fs) (hq : Consistent fmt fs q) (hb : op.Brought fs)
    (hu : Uniform fmt cfg h q op) : Consistent fmt fs (traced fmt cfg h q op) := by
  cases op
  case observe i ff =>
    have hs : Consistent fmt fs (sweepIfDue cfg h i q.1, q.2) :=
      hq.sweep fun _ => sweepIfDue_outlives
    exact ⟨hs.1.gather, hs.2.coherent_gather hc hs.1 hb hu⟩
  case tick i => exact hq.sweep fun _ => evictExpired_outlives
  case purge  => exact ⟨nofun, nofun⟩

theorem unmixed (hc : CollisionFree fmt fs) (hq : Consistent fmt fs q) (hb : op.Brought fs)
    (hu : Uniform fmt cfg h q op) : Unmixed fmt cfg h q op := by
  cases op
  case observe i ff =>
    have hs : Consistent fmt fs (sweepIfDue cfg h i q.1, q.2) :=
      hq.sweep fun _ => sweepIfDue_outlives
    intro s hd
    have ⟨s₀, size, hm, hby, hsize, e⟩ := completing_met (Option.filter_eq_some_iff.mp hd).1
    subst e
    have hp : Coherent fmt fs _ _ _ := .add hc hs.2 hb hm hby.takes hsize hu
    exact ⟨hp.holds.payload, hp.agrees⟩
  case tick  => trivial
  case purge => trivial

end Consistent

-- The fragments of a run.
def Op.fragments (ops : List Op) : List FragFrame :=
  ops.filterMap fun
    | .observe _ ff => some ff
    | _             => none

theorem brought_of_mem {ops : List Op} {op : Op} (h : op ∈ ops) :
    op.Brought (Op.fragments ops) := by
  cases op
  case observe i ff => exact List.mem_filterMap.mpr ⟨_, h, rfl⟩
  case tick         => trivial
  case purge        => trivial

-- In every run in which the fragments that go into one slot agree in length, version and message
-- type, a delivered payload consists of fragments that all carry the metadata of the delivered
-- frame.
theorem unmixed_of_uniform {ops : List Op} {w : ω} (hc : CollisionFree fmt (Op.fragments ops))
    (hu : Run.Along (traced fmt cfg h) (Uniform fmt cfg h) (({}, w), fun _ => []) ops) :
    Run.Along (traced fmt cfg h) (Unmixed fmt cfg h) (({}, w), fun _ => []) ops := by
  have h₀ : Consistent fmt (Op.fragments ops) (({}, w), fun _ => []) := ⟨nofun, nofun⟩
  exact Run.along_of_preserved (fun q op hq hb hu => hq.step hc hb hu)
    (fun q op hq hb hu => hq.unmixed hc hb hu) h₀ (fun op hm => brought_of_mem hm) hu

theorem unmixed_interleaved :
    Run.Along (traced lastByte (.new 0 0 true) Hooks.none)
      (Unmixed lastByte (.new 0 0 true) Hooks.none)
      (({}, ()), fun _ => []) interleaving :=
  unmixed_of_uniform (by decide +kernel) (by decide +kernel)

-- The second fragment is one of subtree data. It is delivered as part of a block control frame.
def controlOf (j : Nat) (frameVer msgType : UInt8) : Op :=
  .observe ⟨0, fun _ => 0⟩ ⟨.fill 1, .zero, 5, j + 1, j, 2, 2, frameVer, msgType, [j.toUInt8]⟩

theorem two_classes_not_unmixed :
    let ops := [controlOf 0 FrameVer.v4 1, controlOf 1 FrameVer.v5 2]
    CollisionFree lastByte (Op.fragments ops) ∧
      ¬Run.Along (traced lastByte (.new 0 0 true) Hooks.none)
        (Unmixed lastByte (.new 0 0 true) Hooks.none) (({}, ()), fun _ => []) ops := by
  decide +kernel

end Reassembly
