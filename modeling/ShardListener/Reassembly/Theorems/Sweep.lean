import ShardListener.Reassembly.Buffer

namespace Reassembly

-- What the sweeps can change of a slot they leave in place.
def Slot.Kept (s s' : Slot) : Prop :=
  ∃ deadline requested extended,
    s' = { s with deadline := deadline, requested := requested, extended := extended }

namespace Slot.Kept

variable {s s₁ s₂ : Slot}

theorem refl : s.Kept s :=
  ⟨s.deadline, s.requested, s.extended, rfl⟩

theorem trans (h₁ : s.Kept s₁) (h₂ : s₁.Kept s₂) : s.Kept s₂ := by
  have ⟨_, _, _, e₁⟩ := h₁
  have ⟨d, r, e, e₂⟩ := h₂
  subst e₁ e₂
  exact ⟨d, r, e, rfl⟩

end Slot.Kept

-- A slot is gone, or it is kept.
def Outlives (before after : Option Slot) : Prop :=
  ∀ s', after = some s' → ∃ s, before = some s ∧ s.Kept s'

namespace Outlives

variable {o o₁ o₂ : Option Slot} {s : Slot}

theorem refl : Outlives o o :=
  fun s h => ⟨s, h, .refl⟩

theorem gone : Outlives o none :=
  fun _ h => nomatch h

theorem trans (h₁ : Outlives o o₁) (h₂ : Outlives o₁ o₂) : Outlives o o₂ := by
  intro s₂ e₂
  have ⟨s₁, e₁, k₂⟩ := h₂ s₂ e₂
  have ⟨s, e, k₁⟩ := h₁ s₁ e₁
  exact ⟨s, e, k₁.trans k₂⟩

-- A slot that is still there was kept.
theorem kept (h : Outlives (some s) o) (hs : o.isSome) : ∃ s', o = some s' ∧ s.Kept s' := by
  have ⟨s', e⟩ := Option.isSome_iff_exists.mp hs
  have ⟨_, e₁, k⟩ := h s' e
  cases e₁
  exact ⟨s', e, k⟩

end Outlives

namespace Buffer

variable {ω : Type} {fmt : Formats} {cfg : Config} {h : Hooks ω} {i : Instant} {b : Buffer}
variable {p : Buffer × ω} {k key : Bytes32} {s : Slot} {keys : List Bytes32}

theorem lookup_removeSlot :
    (b.removeSlot key).slots.lookup k = if k = key then none else b.slots.lookup k :=
  AList.lookup_erase_eq_ite

theorem lookup_putSlot :
    (b.putSlot key s).slots.lookup k = if k = key then some s else b.slots.lookup k :=
  AList.lookup_insert_eq_ite

theorem removeSlot_outlives : Outlives (b.slots.lookup k) ((b.removeSlot key).slots.lookup k) := by
  rw [lookup_removeSlot]
  split
  case isTrue  => exact .gone
  case isFalse => exact .refl

theorem putSlot_outlives {s' : Slot} (hl : b.slots.lookup key = some s) (hk : s.Kept s') :
    Outlives (b.slots.lookup k) ((b.putSlot key s').slots.lookup k) := by
  rw [lookup_putSlot]
  split
  case isTrue e  => subst e; rintro _ ⟨⟩; exact ⟨s, hl, hk⟩
  case isFalse   => exact .refl

theorem request_kept {limit : Time} {w : ω} : s.Kept (request h i limit s w).1 := by
  unfold request
  split
  case isTrue  => exact ⟨_, _, _, rfl⟩
  case isFalse => exact .refl

theorem hold_kept {limit : Time} {w : ω} : s.Kept (hold cfg h i limit s w).1 :=
  ⟨_, _, _, rfl⟩

-- What a turn of the sweep can do to the buffer, all of it at the key whose turn it is.
inductive Turn (b : Buffer) (key : Bytes32) : Buffer → Prop
  | idle : Turn b key b
  | gone : Turn b key (b.removeSlot key)
  | kept {s s' : Slot} (stored : b.slots.lookup key = some s) (same : s.Kept s') :
    Turn b key (b.putSlot key s')

theorem holdForRepair_turn {pending : ω → HashKey → List SeqNum → Bool}
    (hl : p.1.slots.lookup key = some s) :
    Turn p.1 key (holdForRepair cfg h pending i p key s).1 := by
  simp only [holdForRepair]
  split
  case isTrue => exact .gone
  case isFalse =>
    split
    case isTrue =>
      split
      case isTrue  => exact .gone
      case isFalse => exact .kept hl (request_kept.trans hold_kept)
    case isFalse => exact .gone

theorem expire_turn : Turn p.1 key (expire cfg h i p key).1 := by
  unfold expire
  split
  case h_1 => exact .idle
  case h_2 s hl =>
    split
    case isTrue => exact .idle
    case isFalse =>
      split
      case h_1 => exact .gone
      case h_2 => exact holdForRepair_turn hl

namespace Turn

variable {b' : Buffer}

theorem outlives (ht : Turn b key b') : Outlives (b.slots.lookup k) (b'.slots.lookup k) := by
  cases ht
  case idle       => exact .refl
  case gone       => exact removeSlot_outlives
  case kept hl hk => exact putSlot_outlives hl hk

theorem lookup (ht : Turn b key b') (hne : k ≠ key) : b'.slots.lookup k = b.slots.lookup k := by
  cases ht
  case idle => rfl
  case gone => rw [lookup_removeSlot, if_neg hne]
  case kept => rw [lookup_putSlot, if_neg hne]

theorem insertOrder (ht : Turn b key b') : b'.insertOrder = b.insertOrder := by
  cases ht <;> rfl

end Turn

theorem foldl_expire_outlives :
    Outlives (p.1.slots.lookup k) ((keys.foldl (expire cfg h i) p).1.slots.lookup k) := by
  induction keys generalizing p
  case nil            => exact .refl
  case cons key ks hi => exact expire_turn.outlives.trans hi

@[simp]
theorem sweepDone_slots : (b.sweepDone i.now).slots = b.slots := by
  unfold sweepDone
  split <;> rfl

theorem evictExpired_outlives :
    Outlives (p.1.slots.lookup k) ((evictExpired cfg h i p).1.slots.lookup k) := by
  have ho : Outlives ((p.1.sweepDone i.now).slots.lookup k)
      ((evictExpired cfg h i p).1.slots.lookup k) :=
    foldl_expire_outlives (p := (p.1.sweepDone i.now, p.2))
  exact sweepDone_slots ▸ ho

theorem sweepIfDue_outlives :
    Outlives (p.1.slots.lookup k) ((sweepIfDue cfg h i p).1.slots.lookup k) := by
  unfold sweepIfDue
  split
  case isTrue  => exact evictExpired_outlives
  case isFalse => exact .refl

-- A sweep opens no slots.
theorem size_le_of_outlives {b b' : Buffer}
    (ho : ∀ k, Outlives (b.slots.lookup k) (b'.slots.lookup k)) : b'.slots.size ≤ b.slots.size := by
  refine AList.size_le_of_mem fun k hk => ?_
  have ⟨s', hl'⟩ := AList.mem_iff_lookup.mp hk
  have ⟨s, hl, _⟩ := ho k s' hl'
  exact AList.mem_iff_lookup.mpr ⟨s, hl⟩

-- The record of a terminal key touches nothing but the memory of the completed objects.
theorem markDone_eq {now : Time} :
    b.markDone cfg now key =
      { b with
        done      := (b.markDone cfg now key).done
        doneOrder := (b.markDone cfg now key).doneOrder } := by
  unfold markDone
  split
  case isTrue => rfl
  case isFalse =>
    dsimp only
    split
    case h_1 => split <;> rfl
    case h_2 => rfl

@[simp]
theorem markDone_slots {now : Time} : (b.markDone cfg now key).slots = b.slots := by
  rw [markDone_eq]

theorem mem_done_of_markDone {now : Time} (hm : k ∈ (b.markDone cfg now key).done) :
    k = key ∨ k ∈ b.done := by
  unfold markDone at hm
  rcases (AList.mem_insert _).mp hm with e | hm
  case inl => exact .inl e
  case inr =>
    refine .inr ?_
    split at hm
    case isTrue => exact hm
    case isFalse =>
      dsimp only at hm
      split at hm
      case h_1 =>
        split at hm
        case isTrue  => exact (AList.mem_erase.mp hm).2
        case isFalse => exact hm
      case h_2 => exact hm

-- The memory of the completed objects.
def memory (b : Buffer) : Dict Bytes32 Time × List Bytes32 :=
  (b.done, b.doneOrder)

-- The sweep of the slots leaves it alone.

theorem Turn.memory {b' : Buffer} (ht : Turn b key b') : b'.memory = b.memory := by
  cases ht <;> rfl

theorem foldl_expire_memory : (keys.foldl (expire cfg h i) p).1.memory = p.1.memory := by
  induction keys generalizing p
  case nil            => rfl
  case cons key ks hi => exact hi.trans expire_turn.memory

theorem evictExpired_memory : (evictExpired cfg h i p).1.memory = (p.1.sweepDone i.now).memory :=
  foldl_expire_memory (p := (p.1.sweepDone i.now, p.2))

theorem mem_of_forget {now : Time} {done : Dict Bytes32 Time} (hm : k ∈ forget now done key) :
    k ∈ done := by
  unfold forget at hm
  split at hm
  case h_1 => exact hm
  case h_2 =>
    split at hm
    case isTrue  => exact (AList.mem_erase.mp hm).2
    case isFalse => exact hm

theorem mem_of_foldl_forget {now : Time} {done : Dict Bytes32 Time}
    (hm : k ∈ keys.foldl (forget now) done) : k ∈ done := by
  induction keys generalizing done
  case nil            => exact hm
  case cons key ks hi => exact mem_of_forget (hi hm)

theorem mem_done_of_sweepDone {now : Time} (hm : k ∈ (b.sweepDone now).done) : k ∈ b.done := by
  unfold sweepDone at hm
  split at hm
  case isTrue  => exact hm
  case isFalse => exact mem_of_foldl_forget hm

theorem mem_done_of_evictExpired (hm : k ∈ (evictExpired cfg h i p).1.done) : k ∈ p.1.done := by
  have e : (evictExpired cfg h i p).1.done = (p.1.sweepDone i.now).done :=
    congrArg Prod.fst evictExpired_memory
  exact mem_done_of_sweepDone (e ▸ hm)

theorem mem_done_of_sweepIfDue (hm : k ∈ (sweepIfDue cfg h i p).1.done) : k ∈ p.1.done := by
  unfold sweepIfDue at hm
  split at hm
  case isTrue  => exact mem_done_of_evictExpired hm
  case isFalse => exact hm

end Buffer

-- What one turn of the sweep does to the callbacks' state: metrics calls (none of a hash mismatch),
-- and at most one request for fragments, which is one of those in `A`. `P` holds before the turn
-- and `Q` after it.
structure Hooks.Answers {ω : Type} (h : Hooks ω) (A : Incomplete → Prop)
    (P Q : ω → Prop) : Prop where
  after        : ∀ m w, m ≠ .hashMismatch → Q w → Q (h.metric m w)
  idle         : ∀ w, P w → Q w
  onIncomplete : ∀ i q w, A q → P w → Q (h.onIncomplete i q w)

namespace Hooks.Answers

variable {ω : Type} {cfg : Config} {h : Hooks ω} {i : Instant} {p : Buffer × ω} {key : Bytes32}
variable {s : Slot} {A : Incomplete → Prop} {P Q : ω → Prop} {w : ω}

theorem notifyIncomplete (ht : h.Answers A P Q) (ha : A (Buffer.incomplete s s.missingSeqNums))
    (hp : P w) : Q (Buffer.notifyIncomplete h i s w) := by
  unfold Buffer.notifyIncomplete
  split
  case isTrue  => exact ht.idle _ hp
  case isFalse => exact ht.onIncomplete _ _ _ ha hp

theorem request {limit : Time} (ht : h.Answers A P Q)
    (ha : A (Buffer.incomplete s s.missingSeqNums)) (hp : P w) :
    Q (Buffer.request h i limit s w).2 := by
  unfold Buffer.request
  split
  case isTrue  => exact ht.onIncomplete _ _ _ ha hp
  case isFalse => exact ht.idle _ hp

theorem abandon {reason : AbandonReason} (ht : h.Answers A P Q) (hq : Q p.2) :
    Q (Buffer.abandon h p key reason).2 :=
  ht.after _ _ nofun (ht.after _ _ nofun hq)

theorem holdForRepair {pending : ω → HashKey → List SeqNum → Bool} (ht : h.Answers A P Q)
    (ha : A (Buffer.incomplete s s.missingSeqNums)) (hp : P p.2) :
    Q (Buffer.holdForRepair cfg h pending i p key s).2 := by
  simp only [Buffer.holdForRepair]
  split
  case isTrue => exact ht.abandon (ht.idle _ hp)
  case isFalse =>
    split
    case isTrue =>
      split
      case isTrue  => exact ht.abandon (ht.request ha hp)
      case isFalse =>
        simp only [Buffer.hold]
        split
        case isTrue  => exact ht.request ha hp
        case isFalse => exact ht.after _ _ nofun (ht.request ha hp)
    case isFalse => exact ht.abandon (ht.request ha hp)

theorem expire (ht : h.Answers A P Q)
    (ha : ∀ s, p.1.slots.lookup key = some s → s.deadline < i.now →
      A (Buffer.incomplete s s.missingSeqNums))
    (hp : P p.2) : Q (Buffer.expire cfg h i p key).2 := by
  unfold Buffer.expire
  split
  case h_1 => exact ht.idle _ hp
  case h_2 s hl =>
    split
    case isTrue => exact ht.idle _ hp
    case isFalse hd =>
      have ha := ha s hl (not_le.mp hd)
      split
      case h_1 => exact ht.abandon (ht.notifyIncomplete ha hp)
      case h_2 => exact ht.holdForRepair ha hp

end Hooks.Answers

-- The same where the requests do not matter.
structure Hooks.Turns {ω : Type} (h : Hooks ω) (P Q : ω → Prop) : Prop where
  after        : ∀ m w, m ≠ .hashMismatch → Q w → Q (h.metric m w)
  idle         : ∀ w, P w → Q w
  onIncomplete : ∀ i q w, P w → Q (h.onIncomplete i q w)

namespace Hooks.Turns

variable {ω : Type} {cfg : Config} {h : Hooks ω} {i : Instant} {p : Buffer × ω} {key : Bytes32}
variable {P Q : ω → Prop}

theorem answers (ht : h.Turns P Q) : h.Answers (fun _ => True) P Q where
  after                 := ht.after
  idle                  := ht.idle
  onIncomplete i q w _  := ht.onIncomplete i q w

theorem expire (ht : h.Turns P Q) (hp : P p.2) : Q (Buffer.expire cfg h i p key).2 :=
  ht.answers.expire (fun _ _ _ => trivial) hp

end Hooks.Turns

-- A property of the callbacks' state that the metrics hooks and the requests for fragments leave
-- alone. It survives the sweeps: they make no other calls.
structure Hooks.Spares {ω : Type} (h : Hooks ω) (P : ω → Prop) : Prop where
  metric       : ∀ m w, m ≠ .hashMismatch → P w → P (h.metric m w)
  onIncomplete : ∀ i q w, P w → P (h.onIncomplete i q w)

namespace Hooks.Spares

variable {ω : Type} {cfg : Config} {h : Hooks ω} {i : Instant} {p : Buffer × ω}
variable {keys : List Bytes32} {P : ω → Prop}

theorem turns (hs : h.Spares P) : h.Turns P P where
  after        := hs.metric
  idle _ hp    := hp
  onIncomplete := hs.onIncomplete

theorem foldl_expire (hs : h.Spares P) (hp : P p.2) :
    P (keys.foldl (Buffer.expire cfg h i) p).2 := by
  induction keys generalizing p
  case nil            => exact hp
  case cons key ks hi => exact hi (hs.turns.expire hp)

theorem evictExpired (hs : h.Spares P) (hp : P p.2) : P (Buffer.evictExpired cfg h i p).2 :=
  hs.foldl_expire (p := (p.1.sweepDone i.now, p.2)) hp

theorem sweepIfDue (hs : h.Spares P) (hp : P p.2) : P (Buffer.sweepIfDue cfg h i p).2 := by
  unfold Buffer.sweepIfDue
  split
  case isTrue  => exact hs.evictExpired hp
  case isFalse => exact hp

end Hooks.Spares
end Reassembly
