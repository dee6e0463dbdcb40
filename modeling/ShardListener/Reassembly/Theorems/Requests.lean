import ShardListener.Reassembly.Theorems.InTime

namespace Reassembly

namespace Buffer

variable {ω : Type} {cfg : Config} {h : Hooks ω} {i : Instant} {p : Buffer × ω} {key : Bytes32}
variable {b : Buffer} {S : Slot → Prop}

-- The slots past their deadline are in `S`.
def Late (now : Time) (S : Slot → Prop) (b : Buffer) : Prop :=
  ∀ key s, b.slots.lookup key = some s → s.deadline < now → S s

-- A sweep makes no slot late that was not.
theorem Late.expire (hs : ∀ s s', S s → s.Kept s' → S s') (hb : p.1.Late i.now S) :
    (expire cfg h i p key).1.Late i.now S := by
  intro k s' hl hd
  have ⟨s, hl₀, hk⟩ := expire_turn.outlives s' hl
  by_cases hlate : s.deadline < i.now
  case pos => exact hs s s' (hb k s hl₀ hlate) hk
  case neg =>
    have hf : ∀ s₀, p.1.slots.lookup k = some s₀ → i.now ≤ s₀.deadline := by
      intro s₀ e
      cases hl₀.symm.trans e
      exact not_lt.mp hlate
    rw [lookup_expire_of_fresh hf] at hl
    exact hb k s' hl hd

end Buffer

namespace Hooks.Answers

variable {ω : Type} {cfg : Config} {h : Hooks ω} {i : Instant} {p : Buffer × ω}
variable {A : Incomplete → Prop} {P : ω → Prop} {keys : List Bytes32} {S : Slot → Prop}

theorem foldl_expire (ht : h.Answers A P P) (hs : ∀ s s', S s → s.Kept s' → S s')
    (ha : ∀ s, S s → A (Buffer.incomplete s s.missingSeqNums)) (hb : p.1.Late i.now S)
    (hp : P p.2) : P (keys.foldl (Buffer.expire cfg h i) p).2 := by
  induction keys generalizing p
  case nil => exact hp
  case cons key ks hi =>
    apply hi
    case hb => exact hb.expire hs
    case hp => exact ht.expire (fun s hl hd => ha s (hb key s hl hd)) hp

-- The requests of a sweep are those of the slots that it finds past their deadline.
theorem evictExpired (ht : h.Answers A P P)
    (ha : ∀ key s, p.1.slots.lookup key = some s → s.deadline < i.now →
      A (Buffer.incomplete s s.missingSeqNums))
    (hp : P p.2) : P (Buffer.evictExpired cfg h i p).2 := by
  let S (s' : Slot) := ∃ key s, p.1.slots.lookup key = some s ∧ s.deadline < i.now ∧ s.Kept s'
  have hs : ∀ s s', S s → s.Kept s' → S s' :=
    fun _ _ ⟨key, s, hl, hd, hk⟩ hk' => ⟨key, s, hl, hd, hk.trans hk'⟩
  have hb : (p.1.sweepDone i.now).Late i.now S := by
    intro key s hl hd
    rw [Buffer.sweepDone_slots] at hl
    exact ⟨key, s, hl, hd, .refl⟩
  have hq : ∀ s, S s → A (Buffer.incomplete s s.missingSeqNums) := by
    intro s' ⟨key, s, hl, hd, hk⟩
    rw [hk.incomplete]
    exact ha key s hl hd
  exact ht.foldl_expire (p := (p.1.sweepDone i.now, p.2)) hs hq hb hp

theorem sweepIfDue (ht : h.Answers A P P)
    (ha : Buffer.sweepEvery cfg ≤ Time.sub i.now p.1.lastEvict →
      ∀ key s, p.1.slots.lookup key = some s → s.deadline < i.now →
        A (Buffer.incomplete s s.missingSeqNums))
    (hp : P p.2) : P (Buffer.sweepIfDue cfg h i p).2 := by
  unfold Buffer.sweepIfDue
  split
  case isTrue hdue => exact ht.evictExpired (ha hdue) hp
  case isFalse     => exact hp

end Hooks.Answers
end Reassembly
