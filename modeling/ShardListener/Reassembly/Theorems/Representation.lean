import ShardListener.Reassembly.Theorems.Allocation
import ShardListener.Reassembly.Theorems.Order

namespace Reassembly

open Buffer

-- What `New` and the setters establish of the settings.
structure Config.Sane (fmt : Formats) (cfg : Config) : Prop where
  maxSlots  : 0 < cfg.maxSlots
  maxObject : 0 < cfg.maxObject
  envelope  : 0 ≤ fmt.beefRecordMaxEnvelope

namespace Slot

variable {ω : Type} {fmt : Formats} {cfg : Config} {h : Hooks ω} {s s' : Slot} {ff : FragFrame}
variable {fs : List FragFrame} {size i best : Nat}

-- The fragments wait for the buffer of the object, or it is there.
def Stage (s : Slot) : Prop :=
  s.payload = none ∧ s.received = s.early.length ∧ s.received < promoteAfter s.fragTotal ∨
    (∃ buf, s.payload = some buf ∧ buf.length = s.origPayloadLen) ∧ s.early = []

-- The slice expressions on a slot: `have` is read up to `fragTotal`, `fragSeq` at the nearest held
-- index, and the buffer is written from the place of each waiting fragment on. The list of the
-- missing SeqNums is made with room for those that are not received.
structure InRange (s : Slot) : Prop where
  held     : ∀ i < s.fragTotal, i < s.held.length
  fragSeq  : ∀ i < s.fragTotal, ∀ best ∈ s.nearestHeld i, best < s.fragSeq.length
  received : s.received ≤ s.fragTotal
  early    : ∀ f ∈ s.early, f.index * s.fragSize ≤ s.origPayloadLen

-- Those on the way of a fragment into a slot.
structure StoreInRange (s : Slot) (size : Nat) (ff : FragFrame) : Prop where
  fragSeq : ff.fragIndex < s.fragSeq.length
  payload : ∀ buf ∈ s.payload, ff.fragIndex * size ≤ buf.length
  stored  : (s.receive size ff).InRange

-- What holds of every slot in the table.
structure Represented (fmt : Formats) (cfg : Config) (s : Slot) : Prop where
  received_pos : 1 ≤ s.received
  received     : s.received = s.held.count true
  received_lt  : s.received < s.fragTotal
  fragSize_pos : 1 ≤ s.fragSize
  fragSize_lt  : (s.fragTotal - 1) * s.fragSize < s.origPayloadLen
  bound        : (s.origPayloadLen : Int) ≤ maxObj fmt cfg s.origFrameVer
  stage        : s.Stage
  inRange      : s.InRange

theorem Staged.inRange (hs : Staged fs s) : s.InRange where
  held _ hi         := hs.made.lengths.1.symm ▸ hi
  fragSeq _ hi _ hb := hs.made.lengths.2.symm ▸ (nearestHeld_some hb hi).1
  received          := hs.made.received ▸ hs.made.length_le
  early             := by
    intro f hf
    cases hp : s.payload
    case some => simp [hs.early (by simp [hp])] at hf
    case none =>
      have hh := hs.made.holds
      simp only [Holds, hp] at hh
      rw [hh] at hf
      obtain ⟨g, hg, e⟩ := List.mem_map.mp hf
      subst e
      exact Nat.le_of_add_right_le (hs.made.end_le hg)

theorem Made.length_payload {buf : Bytes} (hm : Made fs s) (hp : s.payload = some buf) :
    buf.length = s.origPayloadLen := by
  have hh := hm.holds
  simp only [Holds, hp] at hh
  rw [hh.2, length_written]

theorem Staged.storeInRange (hs : Staged fs s) (ht : s.Takes ff)
    (hl : s.checkFragLen ff = some size) : s.StoreInRange size ff where
  fragSeq := hs.made.lengths.2.symm ▸ ht.2.1
  payload := by
    intro buf hp
    have hroom := (impliedSize_some (checkFragLen_some hl).1).room
    have hidx : ff.fragIndex * size ≤ (s.fragTotal - 1) * size :=
      Nat.mul_le_mul_right _ (Nat.le_sub_one_of_lt ht.2.1)
    rw [hs.made.length_payload hp]
    exact hidx.trans hroom.le
  stored := (hs.receive ht hl).inRange

theorem Staged.stage (hs : Staged fs s) : s.Stage := by
  cases hp : s.payload
  case none =>
    have hlen := hs.made.early_length hp
    refine .inl ⟨hp, ?_, ?_⟩
    case refine_1 => rw [hs.made.received, hlen]
    case refine_2 => rw [hs.made.received]; exact hs.waiting hp
  case some buf => exact .inr ⟨⟨buf, hp, hs.made.length_payload hp⟩, hs.early (by simp [hp])⟩

-- A slot with its fragments, whose object is within the bound for its version.
structure Admitted (fmt : Formats) (cfg : Config) (fs : List FragFrame) (s : Slot) : Prop where
  staged : Staged fs s
  bound  : (s.origPayloadLen : Int) ≤ maxObj fmt cfg s.origFrameVer

-- A slot that is not empty, and not complete.
def Partly (s : Slot) : Prop :=
  0 < s.received ∧ s.received < s.fragTotal

theorem Admitted.represented (ha : Admitted fmt cfg fs s) (hp : s.Partly) :
    s.Represented fmt cfg := by
  have hm := ha.staged.made
  have hne : 0 < fs.length := hm.received ▸ hp.1
  have ⟨f, hf⟩ := List.exists_mem_of_length_pos hne
  have hi := hm.implies hf
  exact ⟨hp.1, hm.received.trans hm.count.symm, hp.2, hi.size_pos, hi.room,
    ha.bound, ha.staged.stage, ha.staged.inRange⟩

theorem Partly.kept (hp : s.Partly) (hk : s.Kept s') : s'.Partly := by
  have ⟨_, _, _, e⟩ := hk
  subst e
  exact hp

theorem partly_receive (ht : s.Takes ff) (hc : ¬s.CompletedBy ff) : (s.receive size ff).Partly := by
  have ⟨_, _, e⟩ := s.receive_eq size ff
  have ⟨htot, hidx, hheld, hlen⟩ := ht
  rw [e]
  exact ⟨Nat.succ_pos _, not_le.mp fun hle => hc ⟨htot, hidx, hheld, hlen, hle⟩⟩

end Slot

-- The representation invariant.
structure Buffer.Represented (fmt : Formats) (cfg : Config) (b : Buffer) : Prop where
  slots     : b.slots.size ≤ cfg.maxSlots
  done      : b.done.size ≤ cfg.maxSlots
  apart     : ∀ key, ¬(key ∈ b.slots ∧ key ∈ b.done)
  doneOrder : b.doneOrder.Nodup ∧ ∀ key, key ∈ b.doneOrder ↔ key ∈ b.done
  listed    : ∀ key ∈ b.slots, key ∈ b.insertOrder
  slot      : b.All fun _ s => s.Represented fmt cfg

variable {ω : Type} {fmt : Formats} {cfg : Config} {h : Hooks ω} {i : Instant} {b : Buffer}
variable {ff : FragFrame} {q : (Buffer × ω) × Parts} {p : Buffer × ω} {op : Op}

-- The slice expressions that the operation evaluates: on the slots that its sweep finds, and on the
-- slot that its fragment meets.
structure Indexed (fmt : Formats) (cfg : Config) (h : Hooks ω) (p : Buffer × ω)
    (op : Op) : Prop where
  sweep : p.1.All fun _ s => ∀ s', s.Kept s' → s'.InRange
  check : ∀ i ff, op = .observe i ff → ∀ s ∈ met fmt cfg h i (sweepIfDue cfg h i p).1 ff,
    ff.fragTotal = s.fragTotal → ff.fragIndex < s.fragTotal → ff.fragIndex < s.held.length
  store : ∀ i ff, op = .observe i ff → ∀ s ∈ met fmt cfg h i (sweepIfDue cfg h i p).1 ff,
    s.Takes ff → ∀ size ∈ s.checkFragLen ff, s.StoreInRange size ff

-- The bound on the length is in force for every version.
theorem Config.Sane.maxObj_pos (hc : cfg.Sane fmt) (ver : UInt8) : 0 < maxObj fmt cfg ver := by
  have ⟨_, hobj, henv⟩ := hc
  simp only [maxObj]
  split
  case isTrue hv => omega
  case isFalse   => exact hobj

theorem admitted (hc : cfg.Sane fmt) : Parts.Rule fmt cfg h Sized (Slot.Admitted fmt cfg) where
  kept _ _ _ ha hk := by
    have hs := ha.staged.kept hk
    have hb := ha.bound
    have ⟨_, _, _, e⟩ := hk
    subst e
    exact ⟨hs, hb⟩
  newSlot i b ff hd ho := by
    refine ⟨staged.newSlot i b ff hd ho, not_lt.mp fun hlt => ?_⟩
    exact ho.2.2.2 ⟨hc.maxObj_pos _, hlt⟩
  receive _ s ff size _ ha ht hl := by
    have hs := ha.staged.receive ht hl
    have hb := ha.bound
    have ⟨_, _, e⟩ := s.receive_eq size ff
    refine ⟨hs, ?_⟩
    rw [e]
    exact hb

namespace Buffer

theorem Remembers.length_sweep {p' : Buffer × ω} (hm : p.1.Remembers)
    (he : p'.1.memory = p.1.memory ∨ p'.1.memory = (p.1.sweepDone i.now).memory) :
    p'.1.doneOrder.length ≤ p.1.doneOrder.length := by
  cases he
  case inl e => rw [(Prod.mk.inj e).2]
  case inr e =>
    rw [(Prod.mk.inj e).2, hm.doneOrder_sweepDone]
    exact List.length_filter_le ..

-- The memory does not exceed its capacity.
theorem Sound.length_gather (hs : p.1.Sound fmt) (hpos : 0 < cfg.maxSlots)
    (hd : p.1.doneOrder.length ≤ cfg.maxSlots) :
    (Buffer.gather fmt cfg h i ff p).1.doneOrder.length ≤ cfg.maxSlots := by
  cases hc : completing fmt cfg h i p.1 ff
  case none =>
    have e := (Prod.mk.inj (gather_not_completing_memory hc)).2
    rwa [e]
  case some s =>
    have e := (Prod.mk.inj (gather_completing_memory hs.keyed hc).1).2
    rw [e, hs.remembers.doneOrder_markDone (hs.completing_not_mem hc)]
    exact Fifo.length_push_le hpos hd

theorem All.partly_gather (hkd : p.1.Keyed) (ha : p.1.All fun _ s => s.Partly) :
    (Buffer.gather fmt cfg h i ff p).1.All fun _ s => s.Partly := by
  intro k s' hl
  rcases lookup_gather hkd hl with ⟨hl, _⟩ | ⟨_, s, size, _, ht, hw, _, e⟩
  case inl => exact ha k s' hl
  case inr =>
    rw [e]
    exact Slot.partly_receive ht hw

end Buffer

-- Everything that the invariant rests on.
structure Regular (fmt : Formats) (cfg : Config) (q : (Buffer × ω) × Parts) : Prop where
  recorded : Recorded (Slot.Admitted fmt cfg) q
  sound    : q.1.1.Sound fmt
  listed   : q.1.1.Listed
  slots    : q.1.1.slots.size ≤ cfg.maxSlots
  done     : q.1.1.doneOrder.length ≤ cfg.maxSlots
  partly   : q.1.1.All fun _ s => s.Partly

namespace Regular

theorem empty {t : Time} {w : ω} {parts : Parts} :
    Regular fmt cfg (({ lastEvict := t }, w), parts) where
  recorded := ⟨nofun, nofun⟩
  sound    := .new
  listed   := nofun
  slots    := Nat.zero_le _
  done     := Nat.zero_le _
  partly   := nofun

theorem represented (hq : Regular fmt cfg q) : q.1.1.Represented fmt cfg where
  slots     := hq.slots
  done      := hq.sound.remembers.size ▸ hq.done
  apart     := by
    intro key ⟨hs, hd⟩
    exact AList.lookup_eq_none.mp (hq.sound.apart key hd) hs
  doneOrder := ⟨hq.sound.remembers.nodup, hq.sound.remembers.mem⟩
  listed    := hq.listed
  slot key s hl := (hq.recorded.all key s hl).represented (hq.partly key s hl)

theorem sweep (h : Hooks ω) (hc : cfg.Sane fmt) (hq : Regular fmt cfg q)
    (ho : ∀ k, Outlives (q.1.1.slots.lookup k) (p.1.slots.lookup k)) (hl : p.1.Listed)
    (he : p.1.memory = q.1.1.memory ∨ p.1.memory = (q.1.1.sweepDone i.now).memory) :
    Regular fmt cfg (p, q.2) where
  recorded := Parts.Rule.sweep (h := h) (admitted hc) hq.recorded ho
  sound    := hq.sound.sweep ho he
  listed   := hl
  slots    := (size_le_of_outlives ho).trans hq.slots
  done     := (hq.sound.remembers.length_sweep he).trans hq.done
  partly   := hq.partly.sweep (fun _ _ _ hp hk => hp.kept hk) ho

theorem sweepIfDue (hc : cfg.Sane fmt) (hq : Regular fmt cfg q) :
    Regular fmt cfg (sweepIfDue cfg h i q.1, q.2) :=
  hq.sweep h hc (fun _ => sweepIfDue_outlives) hq.listed.sweepIfDue sweepIfDue_memory

theorem gather (hc : cfg.Sane fmt) (hq : Regular fmt cfg q) (hd : Sized ff) :
    Regular fmt cfg (gather fmt cfg h i ff q.1, q.2.add fmt cfg h i q.1.1 ff) where
  recorded := (admitted hc).gather hq.recorded hd
  sound    := hq.sound.gather
  listed   := hq.listed.gather hq.sound.keyed
  slots    := hq.listed.size_gather hq.sound.keyed hc.maxSlots hq.slots
  done     := hq.sound.length_gather hc.maxSlots hq.done
  partly   := All.partly_gather hq.sound.keyed hq.partly

theorem step (hc : cfg.Sane fmt) (hq : Regular fmt cfg q) (hd : op.Carries Sized) :
    Regular fmt cfg (traced fmt cfg h q op) := by
  cases op
  case observe i ff => exact (hq.sweepIfDue hc).gather hc hd
  case tick i =>
    exact hq.sweep h hc (fun _ => evictExpired_outlives) hq.listed.evictExpired
      (.inr evictExpired_memory)
  case purge => exact empty

theorem indexed (hc : cfg.Sane fmt) (hq : Regular fmt cfg q) (hd : op.Carries Sized) :
    Indexed fmt cfg h q.1 op where
  sweep key s hl s' hk := ((hq.recorded.all key s hl).staged.kept hk).inRange
  check i ff e s hm _ hidx := by
    subst e
    have hs := ((admitted hc).met (hq.sweepIfDue hc).recorded hd hm).staged
    exact hs.made.lengths.1.symm ▸ hidx
  store i ff e s hm ht size hl := by
    subst e
    exact ((admitted hc).met (hq.sweepIfDue hc).recorded hd hm).staged.storeInRange ht hl

end Regular

-- The representation invariant holds in every state that the buffer reaches, and every slice
-- expression is in range.
theorem represented_always {ops : List Op} {w : ω} (hc : cfg.Sane fmt)
    (hd : ∀ op ∈ ops, op.Carries Sized) :
    Run.Always (step fmt cfg h) (fun p => p.1.Represented fmt cfg) ({}, w) ops ∧
      Run.Along (step fmt cfg h) (Indexed fmt cfg h) ({}, w) ops := by
  have hf : ∀ (q : (Buffer × ω) × Parts) op, (traced fmt cfg h q op).1 = step fmt cfg h q.1 op :=
    fun _ _ => rfl
  have h₀ : Regular fmt cfg ((({}, w), fun _ => []) : (Buffer × ω) × Parts) := .empty
  have hcarry :
      Run.Along (traced fmt cfg h) (fun _ op => op.Carries Sized) (({}, w), fun _ => []) ops :=
    .of_forall hd
  have hreg := Run.always_of_preserved (fun q op hq hd => hq.step hc hd) h₀ hcarry
  have hidx : Run.Along (traced fmt cfg h) (fun q op => Indexed fmt cfg h q.1 op) _ ops :=
    Run.along_of_preserved (fun q op hq hd _ => hq.step hc hd)
      (fun q op hq hd _ => hq.indexed hc hd)
      h₀ hd hcarry
  have hrep := hreg.mono fun q hq => hq.represented
  exact ⟨hrep.map (f := Prod.fst) (Q := fun p => p.1.Represented fmt cfg) hf,
    hidx.map (f := Prod.fst) (P := Indexed fmt cfg h) hf⟩

theorem represented_interleaved :
    Run.Always (step lastByte (.new 0 0 true) Hooks.none)
        (fun p => p.1.Represented lastByte (.new 0 0 true)) ({}, ()) interleaving ∧
      Run.Along (step lastByte (.new 0 0 true) Hooks.none)
        (Indexed lastByte (.new 0 0 true) Hooks.none) ({}, ()) interleaving :=
  represented_always ⟨by decide, by decide, by decide⟩ (by decide +kernel)

end Reassembly
