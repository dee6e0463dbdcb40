import ShardListener.Reassembly.Theorems.Gather
import ShardListener.Reassembly.Theorems.Wait

namespace Reassembly

-- What becomes of an object when its last fragment comes.
def Object.finish {ω : Type} (fmt : Formats) (cfg : Config) (h : Hooks ω) (i : Instant) (o : Object)
    (hashKey : HashKey) (seqNum : SeqNum) (w : ω) : ω :=
  if cfg.verifyHash ∧ ¬verified fmt o.frameVer o.txID o.payload then h.metric .hashMismatch w
  else h.deliver fmt i (o.delivery hashKey seqNum) w

namespace Buffer

variable {ω : Type} {fmt : Formats} {cfg : Config} {h : Hooks ω} {i : Instant} {p : Buffer × ω}
variable {k key : Bytes32} {keys : List Bytes32} {P : ω → Prop}

-- A sweep leaves a slot alone that is not past its deadline, whatever it does to the others.

theorem lookup_expire_of_fresh (hf : ∀ s, p.1.slots.lookup k = some s → i.now ≤ s.deadline) :
    (expire cfg h i p key).1.slots.lookup k = p.1.slots.lookup k := by
  by_cases e : k = key
  case neg => exact expire_turn.lookup e
  case pos =>
    subst e
    unfold expire
    split
    case h_1      => rfl
    case h_2 s hl => rw [if_pos (hf s hl)]

theorem lookup_foldl_expire_of_fresh
    (hf : ∀ s, p.1.slots.lookup k = some s → i.now ≤ s.deadline) :
    (keys.foldl (expire cfg h i) p).1.slots.lookup k = p.1.slots.lookup k := by
  induction keys generalizing p
  case nil => rfl
  case cons key ks hi =>
    have hl : (expire cfg h i p key).1.slots.lookup k = p.1.slots.lookup k :=
      lookup_expire_of_fresh hf
    exact (hi fun s hs => hf s (hl ▸ hs)).trans hl

theorem lookup_sweepIfDue_of_fresh (hf : ∀ s, p.1.slots.lookup k = some s → i.now ≤ s.deadline) :
    (sweepIfDue cfg h i p).1.slots.lookup k = p.1.slots.lookup k := by
  unfold sweepIfDue
  split
  case isFalse => rfl
  case isTrue =>
    have hf' : ∀ s, (p.1.sweepDone i.now).slots.lookup k = some s → i.now ≤ s.deadline := by
      rw [sweepDone_slots]
      exact hf
    have hl : (p.1.insertOrder.foldl (expire cfg h i) (p.1.sweepDone i.now, p.2)).1.slots.lookup k =
        (p.1.sweepDone i.now).slots.lookup k := lookup_foldl_expire_of_fresh hf'
    exact hl.trans (by rw [sweepDone_slots])

theorem openSlot_done {ff : FragFrame} : (openSlot cfg h i key ff p).1.done = p.1.done := by
  have he : (evictOldest h p).1.done = p.1.done := by
    unfold evictOldest
    split
    case h_1 => rfl
    case h_2 => rfl
  simp only [openSlot]
  split
  case isTrue  => exact he
  case isFalse => rfl

variable {o : Object} {got : Finset Nat} {j : Nat} {deadline : Time}

-- The buffer has the fragments `got` of the object, in a slot with the given deadline.
structure Awaits (fmt : Formats) (o : Object) (got : Finset Nat) (deadline : Time) (b : Buffer) :
    Prop where
  new  : o.key fmt ∉ b.done
  none : b.slots.lookup (o.key fmt) = none → got = ∅
  some : ∀ s, b.slots.lookup (o.key fmt) = some s → SlotOf fmt o got s ∧ s.deadline = deadline

namespace Awaits

theorem sweepIfDue (ha : Awaits fmt o got deadline p.1) (ht : i.now ≤ deadline) :
    Awaits fmt o got deadline (sweepIfDue cfg h i p).1 := by
  have hl : (Buffer.sweepIfDue cfg h i p).1.slots.lookup (o.key fmt) =
      p.1.slots.lookup (o.key fmt) :=
    lookup_sweepIfDue_of_fresh fun s hs => (ha.some s hs).2 ▸ ht
  exact ⟨fun hm => ha.new (mem_done_of_sweepIfDue hm), hl ▸ ha.none, hl ▸ ha.some⟩

-- A fragment goes to the slot of the object, or opens it.
theorem gather (hashKey : HashKey) (seqNum : SeqNum) (ha : Awaits fmt o got deadline p.1)
    (hf : o.Fits fmt cfg) (hj : j < o.total) (hfirst : got = ∅ → deadline = i.now + cfg.ttl)
    (hs : h.Spares P) (hp : P p.2) :
    ∃ p' s, Buffer.gather fmt cfg h i (o.fragment j hashKey seqNum) p =
        accept fmt cfg h i (o.fragment j hashKey seqNum) p' s ∧
      SlotOf fmt o got s ∧ s.deadline = deadline ∧ o.key fmt ∉ p'.1.done ∧ P p'.2 := by
  cases hl : p.1.slots.lookup (o.key fmt)
  case some s =>
    have ⟨hso, hdl⟩ := ha.some s hl
    exact ⟨p, s, gather_slot (o.fragment j hashKey seqNum) hl, hso, hdl, ha.new, hp⟩
  case none =>
    have e := ha.none hl
    refine ⟨_, _, gather_first hf hj hl ha.new, e ▸ slotOf_newSlot, (hfirst e).symm, ?_, ?_⟩
    case refine_1 => rw [openSlot_done]; exact ha.new
    case refine_2 => exact openSlot_env hs.metric hp

-- A fragment that is not the last one.
theorem observe_next (hashKey : HashKey) (seqNum : SeqNum) (ha : Awaits fmt o got deadline p.1)
    (hf : o.Fits fmt cfg) (hj : j < o.total) (hm : j ∉ got)
    (hn : insert j got ≠ Finset.range o.total) (ht : i.now ≤ deadline)
    (hfirst : got = ∅ → deadline = i.now + cfg.ttl) (hs : h.Spares P) (hp : P p.2) :
    let q := observe fmt cfg h i p (o.fragment j hashKey seqNum)
    Awaits fmt o (insert j got) deadline q.1 ∧ P q.2 := by
  have ha' : Awaits fmt o got deadline (Buffer.sweepIfDue cfg h i p).1 := ha.sweepIfDue ht
  have ⟨p', s, e, hso, hdl, hd, hp'⟩ := ha'.gather hashKey seqNum hf hj hfirst hs (hs.sweepIfDue hp)
  have ⟨_, _, hrec⟩ := s.receive_eq o.stride (o.fragment j hashKey seqNum)
  have hl :
      (p'.1.putSlot (o.key fmt) (s.receive o.stride (o.fragment j hashKey seqNum))).slots.lookup
      (o.key fmt) = Option.some (s.receive o.stride (o.fragment j hashKey seqNum)) := by
    rw [lookup_putSlot, if_pos rfl]
  simp only [observe, e, accept_next hso hj hm hn]
  refine ⟨⟨hd, fun hn => ?_, fun s' hl' => ?_⟩, hp'⟩
  case refine_1 => rw [hl] at hn; cases hn
  case refine_2 =>
    rw [hl] at hl'
    cases hl'
    exact ⟨hso.receive hashKey seqNum hj hm, by rw [hrec]; exact hdl⟩

-- The last one: the object is delivered, or dropped because its hash does not match.
theorem observe_last (hashKey : HashKey) (seqNum : SeqNum) (ha : Awaits fmt o got deadline p.1)
    (hf : o.Fits fmt cfg) (hj : j < o.total) (hm : j ∉ got)
    (hn : insert j got = Finset.range o.total) (ht : i.now ≤ deadline)
    (hfirst : got = ∅ → deadline = i.now + cfg.ttl) (hs : h.Spares P) (hp : P p.2) :
    ∃ w hashKey' seqNum', P w ∧
      (observe fmt cfg h i p (o.fragment j hashKey seqNum)).2 =
        o.finish fmt cfg h i hashKey' seqNum' w := by
  have ha' : Awaits fmt o got deadline (Buffer.sweepIfDue cfg h i p).1 := ha.sweepIfDue ht
  have ⟨p', s, e, hso, _, _, hp'⟩ := ha'.gather hashKey seqNum hf hj hfirst hs (hs.sweepIfDue hp)
  have hrec := hso.receive hashKey seqNum hj hm
  let s' := s.receive o.stride (o.fragment j hashKey seqNum)
  have hw : P (if s'.extended then h.metric .lateDone p'.2 else p'.2) := by
    split
    case isTrue  => exact hs.metric _ _ nofun hp'
    case isFalse => exact hp'
  refine ⟨_, s'.hashKey, s'.seqNum, hw, ?_⟩
  simp only [observe, e, accept_full hso hj hm hn, complete_slotOf (hn ▸ hrec)]
  rfl

end Awaits

-- A fragment of an object beyond the bound.
theorem observe_oversize (hashKey : HashKey) (seqNum : SeqNum) (hf : ¬o.Fits fmt cfg)
    (hj : j < o.total) (hl : p.1.slots.lookup (o.key fmt) = none) (hd : o.key fmt ∉ p.1.done)
    (hs : h.Spares P) (hp : P p.2) :
    let q := observe fmt cfg h i p (o.fragment j hashKey seqNum)
    q.1.slots.lookup (o.key fmt) = none ∧ o.key fmt ∉ q.1.done ∧ P q.2 := by
  have hl' : (sweepIfDue cfg h i p).1.slots.lookup (o.key fmt) = none :=
    (lookup_sweepIfDue_of_fresh (by simp [hl])).trans hl
  have hd' : o.key fmt ∉ (sweepIfDue cfg h i p).1.done := fun hm => hd (mem_done_of_sweepIfDue hm)
  simp only [observe, gather_oversize hf hj hl' hd']
  exact ⟨hl', hd', hs.metric _ _ nofun (hs.sweepIfDue hp)⟩

end Buffer
end Reassembly
