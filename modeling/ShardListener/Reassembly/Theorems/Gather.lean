import ShardListener.Reassembly.Theorems.Slot
import ShardListener.Reassembly.Theorems.Sweep

namespace Reassembly

-- The fragment is the one the slot lacks.
def Slot.CompletedBy (s : Slot) (ff : FragFrame) : Prop :=
  ff.fragTotal = s.fragTotal ∧ ff.fragIndex < s.fragTotal ∧ s.held[ff.fragIndex]? ≠ some true ∧
    (s.checkFragLen ff).isSome ∧ s.fragTotal ≤ s.received + 1

instance {s : Slot} {ff : FragFrame} : Decidable (s.CompletedBy ff) :=
  inferInstanceAs (Decidable (_ ∧ _ ∧ _ ∧ _ ∧ _))

namespace Slot

variable {s : Slot} {ff : FragFrame}

-- The slot stores the fragment.
def Takes (s : Slot) (ff : FragFrame) : Prop :=
  ff.fragTotal = s.fragTotal ∧ ff.fragIndex < s.fragTotal ∧ s.held[ff.fragIndex]? ≠ some true ∧
    (s.checkFragLen ff).isSome

instance : Decidable (s.Takes ff) :=
  inferInstanceAs (Decidable (_ ∧ _ ∧ _ ∧ _))

theorem CompletedBy.takes (hc : s.CompletedBy ff) : s.Takes ff :=
  have ⟨ht, hi, hh, hl, _⟩ := hc
  ⟨ht, hi, hh, hl⟩

end Slot

namespace Buffer

variable {ω : Type} {fmt : Formats} {cfg : Config} {h : Hooks ω} {i : Instant} {ff : FragFrame}
variable {p : Buffer × ω} {k key : Bytes32} {s : Slot} {P Q : ω → Prop}

-- No slot is past its deadline.
def Fresh (i : Instant) (p : Buffer × ω) : Prop :=
  ∀ key s, p.1.slots.lookup key = some s → i.now ≤ s.deadline

theorem expire_of_fresh (hf : Fresh i p) : expire cfg h i p key = p := by
  unfold expire
  split
  case h_1 => rfl
  case h_2 s hl => rw [if_pos (hf key s hl)]

theorem foldl_expire_of_fresh {keys : List Bytes32} (hf : Fresh i p) :
    keys.foldl (expire cfg h i) p = p := by
  induction keys
  case nil            => rfl
  case cons key ks hi => rw [List.foldl_cons, expire_of_fresh hf, hi]

-- A sweep that finds no slot past its deadline makes no calls and leaves the slots alone.
theorem evictExpired_of_fresh (hf : Fresh i p) :
    (evictExpired cfg h i p).1.slots = p.1.slots ∧ (evictExpired cfg h i p).2 = p.2 := by
  have hd : Fresh i (p.1.sweepDone i.now, p.2) := by
    intro key s hl
    exact hf key s (sweepDone_slots ▸ hl)
  simp only [evictExpired, foldl_expire_of_fresh hd, compact, sweepDone_slots, and_self]

-- A fragment that finds no slot opens one.
def Opens (fmt : Formats) (cfg : Config) (b : Buffer) (ff : FragFrame) : Prop :=
  slotKey fmt ff ∉ b.done ∧ ¬(ff.fragTotal = 0 ∨ ff.fragTotal ≤ ff.fragIndex) ∧
    ¬(ff.origPayloadLen = 0 ∨ (ff.origPayloadLen + 1) % 2 ^ 32 < ff.fragTotal) ∧
      ¬oversize fmt cfg ff

instance {b : Buffer} : Decidable (Opens fmt cfg b ff) :=
  inferInstanceAs (Decidable (_ ∧ _ ∧ _ ∧ _))

-- The slot a fragment meets: the one that is there, or a new one.
def met (fmt : Formats) (cfg : Config) (h : Hooks ω) (i : Instant) (b : Buffer) (ff : FragFrame) :
    Option Slot :=
  (b.slots.lookup (slotKey fmt ff)).or
    (if Opens fmt cfg b ff then some (newSlot cfg h i (slotKey fmt ff) ff) else none)

-- The slot it completes, with the fragment in it.
def completing (fmt : Formats) (cfg : Config) (h : Hooks ω) (i : Instant) (b : Buffer)
    (ff : FragFrame) : Option Slot :=
  (met fmt cfg h i b ff).bind fun s =>
    if s.CompletedBy ff then (s.checkFragLen ff).map (s.receive · ff) else none

theorem met_eq_some {b : Buffer} (hs : met fmt cfg h i b ff = some s) :
    b.slots.lookup (slotKey fmt ff) = some s ∨ b.slots.lookup (slotKey fmt ff) = none ∧
      Opens fmt cfg b ff ∧ s = newSlot cfg h i (slotKey fmt ff) ff := by
  rcases Option.or_eq_some_iff.mp hs with hl | ⟨hl, hnew⟩
  case inl => exact .inl hl
  case inr =>
    split at hnew
    case isTrue ho => exact .inr ⟨hl, ho, (Option.some_inj.mp hnew).symm⟩
    case isFalse   => cases hnew

theorem met_eq_none {b : Buffer} (hs : met fmt cfg h i b ff = none) :
    b.slots.lookup (slotKey fmt ff) = none ∧ ¬Opens fmt cfg b ff := by
  have ⟨hl, hnew⟩ := Option.or_eq_none_iff.mp hs
  refine ⟨hl, fun ho => ?_⟩
  rw [if_pos ho] at hnew
  cases hnew

theorem completing_met {b : Buffer} (hc : completing fmt cfg h i b ff = some s) :
    ∃ s₀ size, met fmt cfg h i b ff = some s₀ ∧ s₀.CompletedBy ff ∧ s₀.checkFragLen ff = some size ∧
      s = s₀.receive size ff := by
  have ⟨s₀, hmet, hs⟩ := Option.bind_eq_some_iff.mp hc
  split at hs
  case isFalse => cases hs
  case isTrue hby =>
    have ⟨size, hsize, e⟩ := Option.map_eq_some_iff.mp hs
    exact ⟨s₀, size, hmet, hby, hsize, e.symm⟩

theorem completing_cases {b : Buffer} (hc : completing fmt cfg h i b ff = some s) :
    ∃ s₀ size, (b.slots.lookup (slotKey fmt ff) = some s₀ ∨
      s₀ = newSlot cfg h i (slotKey fmt ff) ff) ∧
      s₀.CompletedBy ff ∧ s₀.checkFragLen ff = some size ∧ s = s₀.receive size ff := by
  have ⟨s₀, size, hmet, hs⟩ := completing_met hc
  exact ⟨s₀, size, (met_eq_some hmet).imp_right fun ⟨_, _, e⟩ => e, hs⟩

theorem evictOldest_env (hm : ∀ m w, m ≠ .hashMismatch → P w → P (h.metric m w)) (hp : P p.2) :
    P (evictOldest h p).2 := by
  unfold evictOldest
  split
  case h_1 => exact hp
  case h_2 => exact hm _ _ nofun (hm _ _ nofun hp)

theorem openSlot_env (hm : ∀ m w, m ≠ .hashMismatch → P w → P (h.metric m w)) (hp : P p.2) :
    P (openSlot cfg h i key ff p).2 := by
  simp only [openSlot]
  split
  case isTrue  => exact hm _ _ nofun (evictOldest_env hm hp)
  case isFalse => exact hm _ _ nofun hp

theorem complete_fst :
    (complete fmt cfg h i p s).1 = (p.1.markDone cfg i.now s.key).removeSlot s.key := by
  simp only [complete]
  split
  case isTrue  => rfl
  case isFalse => rfl

-- What a fragment does to the slot it meets: the slot does not take it, is removed over its length,
-- takes it and has to wait for others, or is completed.
theorem accept_cases (fmt : Formats) (cfg : Config) (h : Hooks ω) (i : Instant) (ff : FragFrame)
    (p : Buffer × ω) (s : Slot) :
    accept fmt cfg h i ff p s = p ∧ ¬s.Takes ff ∧
        (ff.fragTotal ≠ s.fragTotal ∨ s.fragTotal ≤ ff.fragIndex ∨
          s.held[ff.fragIndex]? = some true) ∨
      accept fmt cfg h i ff p s = (p.1.removeSlot s.key, h.metric .badFragment p.2) ∧ ¬s.Takes ff ∨
      ∃ size, s.Takes ff ∧ s.checkFragLen ff = some size ∧
        (accept fmt cfg h i ff p s = (p.1.putSlot s.key (s.receive size ff), p.2) ∧
          ¬s.CompletedBy ff ∨
          accept fmt cfg h i ff p s = complete fmt cfg h i p (s.receive size ff) ∧
            s.CompletedBy ff) := by
  unfold accept
  split
  case isTrue hshape =>
    refine .inl ⟨rfl, fun ht => ?_, hshape.imp_right .inl⟩
    exact hshape.elim (· ht.1) (not_le.mpr ht.2.1)
  case isFalse hshape =>
    have ⟨htot, hidx⟩ := not_or.mp hshape
    split
    case isTrue hheld => exact .inl ⟨rfl, fun ht => ht.2.2.1 hheld, .inr (.inr hheld)⟩
    case isFalse hheld =>
      split
      case h_1 hlen =>
        refine .inr (.inl ⟨rfl, fun ht => ?_⟩)
        have hsome := ht.2.2.2
        rw [hlen] at hsome
        cases hsome
      case h_2 size hsize =>
        have ht : s.Takes ff := ⟨not_not.mp htot, not_le.mp hidx, hheld, by simp [hsize]⟩
        refine .inr (.inr ⟨size, ht, hsize, ?_⟩)
        have ⟨_, _, e⟩ := s.receive_eq size ff
        have hrec : (s.receive size ff).received = s.received + 1 := by rw [e]
        have htot : (s.receive size ff).fragTotal = s.fragTotal := by rw [e]
        dsimp only
        split
        case isTrue hlt =>
          rw [hrec, htot] at hlt
          exact .inl ⟨by rw [Slot.receive_key], fun hby => not_le.mpr hlt hby.2.2.2.2⟩
        case isFalse hge =>
          rw [hrec, htot] at hge
          exact .inr ⟨rfl, ht.1, ht.2.1, ht.2.2.1, ht.2.2.2, not_lt.mp hge⟩

theorem accept_completes {size : Nat} (hc : s.CompletedBy ff)
    (hsize : s.checkFragLen ff = some size) :
    accept fmt cfg h i ff p s = complete fmt cfg h i p (s.receive size ff) := by
  rcases accept_cases fmt cfg h i ff p s with ⟨_, hn, _⟩ | ⟨_, hn⟩ | ⟨size', _, hsize', hrest⟩
  case inl     => exact absurd hc.takes hn
  case inr.inl => exact absurd hc.takes hn
  case inr.inr =>
    cases hsize.symm.trans hsize'
    exact (hrest.resolve_left fun ⟨_, hn⟩ => hn hc).1

theorem accept_incomplete (hm : ∀ m w, m ≠ .hashMismatch → P w → P (h.metric m w))
    (hc : ¬s.CompletedBy ff) (hp : P p.2) : P (accept fmt cfg h i ff p s).2 := by
  rcases accept_cases fmt cfg h i ff p s with ⟨e, _⟩ | ⟨e, _⟩ | ⟨_, _, _, ⟨e, _⟩ | ⟨_, hby⟩⟩
  case inl         => rwa [e]
  case inr.inl     => rw [e]; exact hm _ _ nofun hp
  case inr.inr.inl => rwa [e]
  case inr.inr.inr => exact absurd hby hc

theorem gather_slot (ff : FragFrame) (hl : p.1.slots.lookup (slotKey fmt ff) = some s) :
    gather fmt cfg h i ff p = accept fmt cfg h i ff p s := by
  simp only [gather, hl]

-- A fragment that finds no slot opens one or leaves the buffer alone.

theorem gather_opening (hl : p.1.slots.lookup (slotKey fmt ff) = none) (ho : Opens fmt cfg p.1 ff) :
    gather fmt cfg h i ff p = accept fmt cfg h i ff (openSlot cfg h i (slotKey fmt ff) ff p)
      (newSlot cfg h i (slotKey fmt ff) ff) := by
  have ⟨hd, ht, hlen, hover⟩ := ho
  simp only [gather, hl, if_neg hd, if_neg ht, if_neg hlen, if_neg hover]

theorem gather_ignoring_cases (hl : p.1.slots.lookup (slotKey fmt ff) = none)
    (ho : ¬Opens fmt cfg p.1 ff) :
    gather fmt cfg h i ff p = p ∨ ∃ m, (m = .lateFragment ∨ m = .oversize) ∧
      gather fmt cfg h i ff p = (p.1, h.metric m p.2) := by
  simp only [gather, hl]
  split
  case isTrue => exact .inr ⟨.lateFragment, .inl rfl, rfl⟩
  case isFalse hd =>
    split
    case isTrue => exact .inl rfl
    case isFalse ht =>
      split
      case isTrue => exact .inl rfl
      case isFalse hlen =>
        split
        case isTrue        => exact .inr ⟨.oversize, .inr rfl, rfl⟩
        case isFalse hover => exact absurd ⟨hd, ht, hlen, hover⟩ ho

theorem gather_ignoring (hl : p.1.slots.lookup (slotKey fmt ff) = none)
    (ho : ¬Opens fmt cfg p.1 ff) : (gather fmt cfg h i ff p).1 = p.1 := by
  rcases gather_ignoring_cases hl ho with e | ⟨m, _, e⟩
  case inl => rw [e]
  case inr => rw [e]

-- What `Observe` does after the sweep: a fragment that meets a slot goes to it; another one is
-- dropped, and only metrics calls are made.

theorem gather_accepts (hs : met fmt cfg h i p.1 ff = some s) :
    ∃ p', (p' = p ∨ p' = openSlot cfg h i (slotKey fmt ff) ff p) ∧
      gather fmt cfg h i ff p = accept fmt cfg h i ff p' s := by
  rcases met_eq_some hs with hl | ⟨hl, ho, e⟩
  case inl => exact ⟨p, .inl rfl, gather_slot ff hl⟩
  case inr =>
    subst e
    exact ⟨_, .inr rfl, gather_opening hl ho⟩

theorem gather_met (hm : ∀ m w, m ≠ .hashMismatch → P w → P (h.metric m w))
    (hs : met fmt cfg h i p.1 ff = some s) (hp : P p.2) :
    ∃ p', gather fmt cfg h i ff p = accept fmt cfg h i ff p' s ∧ P p'.2 := by
  have ⟨p', ho, e⟩ := gather_accepts hs
  refine ⟨p', e, ?_⟩
  rcases ho with rfl | rfl
  case inl => exact hp
  case inr => exact openSlot_env hm hp

theorem gather_unmet (hm : ∀ m w, m ≠ .hashMismatch → P w → P (h.metric m w))
    (hs : met fmt cfg h i p.1 ff = none) (hp : P p.2) : P (gather fmt cfg h i ff p).2 := by
  have ⟨hl, ho⟩ := met_eq_none hs
  rcases gather_ignoring_cases hl ho with e | ⟨m, rfl | rfl, e⟩
  case inl     => rwa [e]
  case inr.inl => rw [e]; exact hm _ _ nofun hp
  case inr.inr => rw [e]; exact hm _ _ nofun hp

theorem gather_completing (hm : ∀ m w, m ≠ .hashMismatch → P w → P (h.metric m w))
    (hc : completing fmt cfg h i p.1 ff = some s) (hp : P p.2) :
    ∃ p', gather fmt cfg h i ff p = complete fmt cfg h i p' s ∧ P p'.2 := by
  have ⟨s₀, size, hmet, hby, hsize, e⟩ := completing_met hc
  subst e
  have ⟨p', e, hp'⟩ := gather_met hm hmet hp
  exact ⟨p', e.trans (accept_completes hby hsize), hp'⟩

theorem gather_not_completing (hm : ∀ m w, m ≠ .hashMismatch → P w → P (h.metric m w))
    (hc : completing fmt cfg h i p.1 ff = none) (hp : P p.2) : P (gather fmt cfg h i ff p).2 := by
  cases hmet : met fmt cfg h i p.1 ff
  case none => exact gather_unmet hm hmet hp
  case some s =>
    have ⟨p', e, hp'⟩ := gather_met hm hmet hp
    rw [e]
    refine accept_incomplete hm (fun hby => ?_) hp'
    have ⟨_, _, _, hlen, _⟩ := hby
    have ⟨size, hsize⟩ := Option.isSome_iff_exists.mp hlen
    simp [completing, hmet, hby, hsize] at hc

theorem complete_env (hm : ∀ m w, P w → P (h.metric m w)) (hpq : ∀ w, P w → Q w)
    (hd : ∀ w, P w → Q (h.deliver fmt i (s.delivery (s.payload.getD s.assembled)) w)) (hp : P p.2) :
    Q (complete fmt cfg h i p s).2 := by
  have hl : P (if s.extended then h.metric .lateDone p.2 else p.2) := by
    split
    case isTrue  => exact hm _ _ hp
    case isFalse => exact hp
  simp only [complete]
  split
  case isTrue  => exact hpq _ (hm _ _ hl)
  case isFalse => exact hd _ hl

-- The rule for the callbacks' state: metrics calls keep `P`, and the delivery of the slot that the
-- fragment completes turns `P` into `Q`.
theorem gather_env (hm : ∀ m w, P w → P (h.metric m w)) (hpq : ∀ w, P w → Q w)
    (hd : ∀ s, completing fmt cfg h i p.1 ff = some s → ∀ w, P w →
      Q (h.deliver fmt i (s.delivery (s.payload.getD s.assembled)) w))
    (hp : P p.2) : Q (gather fmt cfg h i ff p).2 := by
  have hm' : ∀ m w, m ≠ .hashMismatch → P w → P (h.metric m w) := fun m w _ => hm m w
  cases hc : completing fmt cfg h i p.1 ff
  case none => exact hpq _ (gather_not_completing hm' hc hp)
  case some s =>
    have ⟨p', e, hp'⟩ := gather_completing hm' hc hp
    rw [e]
    exact complete_env hm hpq (hd s hc) hp'

-- The sweep at the head of `Observe` finds no slot past its deadline, or is not due.
def Timely (cfg : Config) (i : Instant) (b : Buffer) : Prop :=
  sweepEvery cfg ≤ Time.sub i.now b.lastEvict → ∀ e ∈ b.slots.entries, i.now ≤ e.2.deadline

instance {b : Buffer} : Decidable (b.Timely cfg i) :=
  inferInstanceAs (Decidable (_ → ∀ e ∈ _, _))

theorem sweepIfDue_of_timely (ht : Timely cfg i p.1) :
    (sweepIfDue cfg h i p).1.slots = p.1.slots ∧ (sweepIfDue cfg h i p).2 = p.2 := by
  unfold sweepIfDue
  split
  case isTrue hdue =>
    exact evictExpired_of_fresh fun key s hl => ht hdue ⟨key, s⟩ (AList.mem_entries_iff.mpr hl)
  case isFalse     => exact ⟨rfl, rfl⟩

theorem observe_env (ht : Timely cfg i p.1) (hm : ∀ m w, P w → P (h.metric m w))
    (hpq : ∀ w, P w → Q w)
    (hd : ∀ s size,
      p.1.slots.lookup (slotKey fmt ff) = some s ∨ s = newSlot cfg h i (slotKey fmt ff) ff →
      s.CompletedBy ff → ∀ w, P w → Q (h.deliver fmt i ((s.receive size ff).delivery
        ((s.receive size ff).payload.getD (s.receive size ff).assembled)) w))
    (hp : P p.2) : Q (observe fmt cfg h i p ff).2 := by
  have ⟨hs, hw⟩ := sweepIfDue_of_timely (h := h) ht
  refine gather_env hm hpq (fun s hc => ?_) (hw ▸ hp)
  have ⟨s₀, size, hmet, hby, _, e⟩ := completing_cases hc
  rw [hs] at hmet
  subst e
  exact hd s₀ size hmet hby

-- What holds of all slots, and stays true of a slot that is kept by a sweep or takes a fragment,
-- and holds of a new slot, holds of all slots after `Observe`.
section

variable {R : Bytes32 → Slot → Prop} {q : Buffer × ω}

def All (R : Bytes32 → Slot → Prop) (b : Buffer) : Prop :=
  ∀ key s, b.slots.lookup key = some s → R key s

theorem All.removeSlot {b : Buffer} (ha : b.All R) : (b.removeSlot key).All R := by
  intro k s hl
  rw [lookup_removeSlot] at hl
  split at hl
  case isTrue  => cases hl
  case isFalse => exact ha k s hl

theorem All.putSlot {b : Buffer} (ha : b.All R) (hs : R key s) : (b.putSlot key s).All R := by
  intro k s' hl
  rw [lookup_putSlot] at hl
  split at hl
  case isTrue e  => cases hl; exact e ▸ hs
  case isFalse   => exact ha k s' hl

theorem All.met {b : Buffer} (ha : b.All R)
    (hn : R (slotKey fmt ff) (newSlot cfg h i (slotKey fmt ff) ff))
    (hs : Buffer.met fmt cfg h i b ff = some s) : R (slotKey fmt ff) s := by
  rcases met_eq_some hs with hl | ⟨_, _, e⟩
  case inl => exact ha _ s hl
  case inr => exact e ▸ hn

theorem All.sweep (hk : ∀ k s s', R k s → s.Kept s' → R k s') (ha : p.1.All R)
    (ho : ∀ k, Outlives (p.1.slots.lookup k) (q.1.slots.lookup k)) : q.1.All R := by
  intro k s' hl
  have ⟨s, e, hkept⟩ := ho k s' hl
  exact hk k s s' (ha k s e) hkept

theorem All.accept (hr : ∀ size, R s.key (s.receive size ff)) (ha : p.1.All R) :
    (Buffer.accept fmt cfg h i ff p s).1.All R := by
  rcases accept_cases fmt cfg h i ff p s with ⟨e, _⟩ | ⟨e, _⟩ | ⟨size, _, _, ⟨e, _⟩ | ⟨e, _⟩⟩
  case inl         => rwa [e]
  case inr.inl     => rw [e]; exact ha.removeSlot
  case inr.inr.inl => rw [e]; exact ha.putSlot (hr size)
  case inr.inr.inr =>
    have hm : (p.1.markDone cfg i.now (s.receive size ff).key).All R := by
      intro k s' hl
      exact ha k s' (markDone_slots ▸ hl)
    rw [e, complete_fst]
    exact hm.removeSlot

theorem All.openSlot (hn : R key (newSlot cfg h i key ff)) (ha : p.1.All R) :
    (Buffer.openSlot cfg h i key ff p).1.All R := by
  have he : (evictOldest h p).1.All R := by
    unfold evictOldest
    split
    case h_1 => exact ha
    case h_2 => exact ha.removeSlot
  simp only [Buffer.openSlot]
  split
  case isTrue  => exact he.putSlot hn
  case isFalse => exact ha.putSlot hn

theorem All.gather (hr : ∀ k s size, R k s → R s.key (s.receive size ff))
    (hn : R (slotKey fmt ff) (newSlot cfg h i (slotKey fmt ff) ff)) (ha : p.1.All R) :
    (Buffer.gather fmt cfg h i ff p).1.All R := by
  cases hl : p.1.slots.lookup (slotKey fmt ff)
  case some s =>
    rw [gather_slot ff hl]
    exact ha.accept fun size => hr _ s size (ha _ s hl)
  case none =>
    by_cases ho : Opens fmt cfg p.1 ff
    case pos =>
      rw [gather_opening hl ho]
      exact (ha.openSlot hn).accept fun size => hr _ _ size hn
    case neg => rwa [gather_ignoring hl ho]

theorem All.observe (hk : ∀ k s s', R k s → s.Kept s' → R k s')
    (hr : ∀ k s size, R k s → R s.key (s.receive size ff))
    (hn : R (slotKey fmt ff) (newSlot cfg h i (slotKey fmt ff) ff)) (ha : p.1.All R) :
    (Buffer.observe fmt cfg h i p ff).1.All R :=
  (ha.sweep hk fun _ => sweepIfDue_outlives).gather hr hn

-- Every slot is stored under its own key.
def Keyed (b : Buffer) : Prop :=
  b.All fun key s => s.key = key

theorem Keyed.sweep (hkd : p.1.Keyed)
    (ho : ∀ k, Outlives (p.1.slots.lookup k) (q.1.slots.lookup k)) : q.1.Keyed := by
  refine All.sweep (fun k s s' e hk => ?_) hkd ho
  have ⟨_, _, _, e'⟩ := hk
  subst e'
  exact e

theorem Keyed.gather (hkd : p.1.Keyed) : (Buffer.gather fmt cfg h i ff p).1.Keyed :=
  All.gather (fun _ _ _ _ => Slot.receive_key) rfl hkd

end

-- A fragment leaves the slots and the memory of other objects alone.

theorem lookup_accept_of_ne (hne : k ≠ s.key) :
    (accept fmt cfg h i ff p s).1.slots.lookup k = p.1.slots.lookup k := by
  rcases accept_cases fmt cfg h i ff p s with ⟨e, _⟩ | ⟨e, _⟩ | ⟨size, _, _, ⟨e, _⟩ | ⟨e, _⟩⟩
  case inl         => rw [e]
  case inr.inl     => rw [e, lookup_removeSlot, if_neg hne]
  case inr.inr.inl => rw [e, lookup_putSlot, if_neg hne]
  case inr.inr.inr =>
    rw [e, complete_fst, Slot.receive_key, lookup_removeSlot, if_neg hne, markDone_slots]

theorem done_accept_of_ne (hne : k ≠ s.key) (hm : k ∈ (accept fmt cfg h i ff p s).1.done) :
    k ∈ p.1.done := by
  rcases accept_cases fmt cfg h i ff p s with ⟨e, _⟩ | ⟨e, _⟩ | ⟨size, _, _, ⟨e, _⟩ | ⟨e, _⟩⟩
  case inl         => rwa [e] at hm
  case inr.inl     => rwa [e] at hm
  case inr.inr.inl => rwa [e] at hm
  case inr.inr.inr =>
    rw [e, complete_fst, Slot.receive_key] at hm
    exact (mem_done_of_markDone hm).resolve_left hne

-- A fragment of another object, when there is room for its slot.
theorem gather_of_ne (hkd : p.1.Keyed) (hroom : p.1.slots.size < cfg.maxSlots)
    (hne : k ≠ slotKey fmt ff) :
    (gather fmt cfg h i ff p).1.slots.lookup k = p.1.slots.lookup k ∧
      (k ∈ (gather fmt cfg h i ff p).1.done → k ∈ p.1.done) := by
  cases hl : p.1.slots.lookup (slotKey fmt ff)
  case some s =>
    have hne : k ≠ s.key := by rw [hkd _ s hl]; exact hne
    rw [gather_slot ff hl]
    exact ⟨lookup_accept_of_ne hne, done_accept_of_ne hne⟩
  case none =>
    by_cases ho : Opens fmt cfg p.1 ff
    case neg => rw [gather_ignoring hl ho]; exact ⟨rfl, id⟩
    case pos =>
      have hdone (hm : k ∈ (openSlot cfg h i (slotKey fmt ff) ff p).1.done) : k ∈ p.1.done := by
        simp only [openSlot, if_neg (not_le.mpr hroom)] at hm
        exact hm
      rw [gather_opening hl ho]
      refine ⟨(lookup_accept_of_ne hne).trans ?_, fun hm => hdone (done_accept_of_ne hne hm)⟩
      simp only [openSlot, if_neg (not_le.mpr hroom), lookup_putSlot, if_neg hne]

end Buffer

-- The object is within the bound on its length, if there is one.
def Object.Fits (fmt : Formats) (cfg : Config) (o : Object) : Prop :=
  0 < Buffer.maxObj fmt cfg o.frameVer → (o.payload.length : Int) ≤ Buffer.maxObj fmt cfg o.frameVer

instance {fmt : Formats} {cfg : Config} {o : Object} : Decidable (o.Fits fmt cfg) :=
  inferInstanceAs (Decidable (_ → _))

-- What is promised of an object: it is within the bound, and hash verification is off or matches.
structure Object.Admissible (fmt : Formats) (cfg : Config) (o : Object) : Prop where
  fits     : 0 < Buffer.maxObj fmt cfg o.frameVer →
    (o.payload.length : Int) ≤ Buffer.maxObj fmt cfg o.frameVer
  verified : cfg.verifyHash → verified fmt o.frameVer o.txID o.payload

instance {fmt : Formats} {cfg : Config} {o : Object} : Decidable (o.Admissible fmt cfg) :=
  decidable_of_iff (o.Fits fmt cfg ∧ (cfg.verifyHash → verified fmt o.frameVer o.txID o.payload))
    ⟨fun h => ⟨h.1, h.2⟩, fun h => ⟨h.fits, h.verified⟩⟩

-- What `Observe` does with a fragment of an object after the sweep.
namespace Buffer

variable {ω : Type} {fmt : Formats} {cfg : Config} {h : Hooks ω} {i : Instant} {p : Buffer × ω}
variable {s : Slot} {o : Object} {got : Finset Nat} {j : Nat} {hashKey : HashKey} {seqNum : SeqNum}

-- A slot that has just been opened has no fragment yet.
theorem slotOf_newSlot :
    SlotOf fmt o ∅ (newSlot cfg h i (o.key fmt) (o.fragment j hashKey seqNum)) where
  key            := rfl
  txID           := rfl
  subtreeID      := rfl
  origFrameVer   := rfl
  msgType        := rfl
  origPayloadLen := rfl
  fragTotal      := rfl
  fragSize       := rfl
  held           := by
    intro k hk
    simp [newSlot, Object.fragment, hk]
  received       := rfl
  within         := Finset.empty_subset _
  contents       := by simp [newSlot, Slot.Contents]

-- A slot that has all its fragments: the object is remembered as done, and delivered unless its
-- hash does not match.
theorem complete_slotOf (hs : SlotOf fmt o (Finset.range o.total) s) :
    complete fmt cfg h i p s =
      let w := if s.extended then h.metric .lateDone p.2 else p.2
      ((p.1.markDone cfg i.now (o.key fmt)).removeSlot (o.key fmt),
        if cfg.verifyHash ∧ ¬verified fmt o.frameVer o.txID o.payload then h.metric .hashMismatch w
        else h.deliver fmt i (o.delivery s.hashKey s.seqNum) w) := by
  simp only [complete, hs.payload_eq, hs.delivery_eq, hs.key, hs.origFrameVer, hs.txID]
  split
  case isTrue  => rfl
  case isFalse => rfl

theorem complete_object (hs : SlotOf fmt o (Finset.range o.total) s) (ha : o.Admissible fmt cfg) :
    complete fmt cfg h i p s =
      ((p.1.markDone cfg i.now (o.key fmt)).removeSlot (o.key fmt),
        h.deliver fmt i (o.delivery s.hashKey s.seqNum)
          (if s.extended then h.metric .lateDone p.2 else p.2)) := by
  have hv : ¬(cfg.verifyHash ∧ ¬verified fmt o.frameVer o.txID o.payload) :=
    fun ⟨hon, hno⟩ => hno (ha.verified hon)
  rw [complete_slotOf hs]
  simp only [if_neg hv]

theorem fragment_fits (hashKey : HashKey) (seqNum : SeqNum) (hs : SlotOf fmt o got s)
    (hj : j < o.total) :
    ¬((o.fragment j hashKey seqNum).fragTotal ≠ s.fragTotal ∨
      s.fragTotal ≤ (o.fragment j hashKey seqNum).fragIndex) := by
  simp only [Object.fragment, hs.fragTotal]
  omega

theorem held_fragment (hashKey : HashKey) (seqNum : SeqNum) (hs : SlotOf fmt o got s)
    (hj : j < o.total) :
    s.held[(o.fragment j hashKey seqNum).fragIndex]? = some true ↔ j ∈ got := by
  have hh : s.held[(o.fragment j hashKey seqNum).fragIndex]? = some (decide (j ∈ got)) :=
    hs.held j hj
  simp [hh]

-- The slot has the fragment already.
theorem accept_old (hs : SlotOf fmt o got s) (hj : j < o.total) (hm : j ∈ got) :
    accept fmt cfg h i (o.fragment j hashKey seqNum) p s = p := by
  unfold accept
  rw [if_neg (fragment_fits hashKey seqNum hs hj),
    if_pos ((held_fragment hashKey seqNum hs hj).mpr hm)]

theorem accept_new (hs : SlotOf fmt o got s) (hj : j < o.total) (hm : j ∉ got) :
    accept fmt cfg h i (o.fragment j hashKey seqNum) p s =
      let s' := s.receive o.stride (o.fragment j hashKey seqNum)
      if s'.received < s'.fragTotal then (p.1.putSlot (o.key fmt) s', p.2)
      else complete fmt cfg h i p s' := by
  have hrec := hs.receive hashKey seqNum hj hm
  have hn := mt (held_fragment hashKey seqNum hs hj).mp hm
  unfold accept
  rw [if_neg (fragment_fits hashKey seqNum hs hj), if_neg hn, hs.checkFragLen hashKey seqNum hj,
    ← hrec.key]

-- The slot takes the fragment, and has to wait for others.
theorem accept_next (hs : SlotOf fmt o got s) (hj : j < o.total) (hm : j ∉ got)
    (hn : insert j got ≠ Finset.range o.total) :
    accept fmt cfg h i (o.fragment j hashKey seqNum) p s =
      (p.1.putSlot (o.key fmt) (s.receive o.stride (o.fragment j hashKey seqNum)), p.2) := by
  have hrec := hs.receive hashKey seqNum hj hm
  rw [accept_new hs hj hm]
  exact if_pos (not_not.mp fun hge => hn (hrec.got_eq_range hge))

-- The fragment is the last one.
theorem accept_full (hs : SlotOf fmt o got s) (hj : j < o.total) (hm : j ∉ got)
    (hn : insert j got = Finset.range o.total) :
    accept fmt cfg h i (o.fragment j hashKey seqNum) p s =
      complete fmt cfg h i p (s.receive o.stride (o.fragment j hashKey seqNum)) := by
  have hrec := hs.receive hashKey seqNum hj hm
  rw [accept_new hs hj hm]
  exact if_neg fun hlt => hrec.got_ne_range hlt hn

theorem accept_last (hs : SlotOf fmt o got s) (ha : o.Admissible fmt cfg) (hj : j < o.total)
    (hm : j ∉ got) (hn : insert j got = Finset.range o.total) :
    accept fmt cfg h i (o.fragment j hashKey seqNum) p s =
      ((p.1.markDone cfg i.now (o.key fmt)).removeSlot (o.key fmt),
        h.deliver fmt i (o.delivery s.hashKey s.seqNum)
          (if s.extended then h.metric .lateDone p.2 else p.2)) := by
  have hrec := hs.receive hashKey seqNum hj hm
  have ⟨_, _, e⟩ := s.receive_eq o.stride (o.fragment j hashKey seqNum)
  rw [accept_full hs hj hm hn, complete_object (hn ▸ hrec) ha, e]

-- The object is done.
theorem gather_late (ff : FragFrame) (hl : p.1.slots.lookup (slotKey fmt ff) = none)
    (hd : slotKey fmt ff ∈ p.1.done) :
    gather fmt cfg h i ff p = (p.1, h.metric .lateFragment p.2) := by
  simp only [gather, hl, if_pos hd]

-- A fragment of an object that has no slot and is not done.
theorem gather_absent (hj : j < o.total) (hl : p.1.slots.lookup (o.key fmt) = none)
    (hd : o.key fmt ∉ p.1.done) :
    gather fmt cfg h i (o.fragment j hashKey seqNum) p =
      if oversize fmt cfg (o.fragment j hashKey seqNum) then (p.1, h.metric .oversize p.2)
      else
        accept fmt cfg h i (o.fragment j hashKey seqNum)
          (openSlot cfg h i (o.key fmt) (o.fragment j hashKey seqNum) p)
          (newSlot cfg h i (o.key fmt) (o.fragment j hashKey seqNum)) := by
  have htot : ¬((o.fragment j hashKey seqNum).fragTotal = 0 ∨
      (o.fragment j hashKey seqNum).fragTotal ≤ (o.fragment j hashKey seqNum).fragIndex) := by
    simp only [Object.fragment]
    omega
  have hlen : ¬((o.fragment j hashKey seqNum).origPayloadLen = 0 ∨
      ((o.fragment j hashKey seqNum).origPayloadLen + 1) % 2 ^ 32 <
        (o.fragment j hashKey seqNum).fragTotal) := by
    have hp := o.payload_pos
    have hlt := o.length_lt
    have ht := o.total_le_length
    simp only [Object.fragment, Nat.mod_eq_of_lt hlt]
    omega
  unfold gather
  dsimp only
  rw [Object.slotKey_fragment, hl, if_neg hd, if_neg htot, if_neg hlen]

-- The first fragment of an object opens a slot.
theorem gather_first (hf : o.Fits fmt cfg) (hj : j < o.total)
    (hl : p.1.slots.lookup (o.key fmt) = none) (hd : o.key fmt ∉ p.1.done) :
    gather fmt cfg h i (o.fragment j hashKey seqNum) p =
      accept fmt cfg h i (o.fragment j hashKey seqNum)
        (openSlot cfg h i (o.key fmt) (o.fragment j hashKey seqNum) p)
        (newSlot cfg h i (o.key fmt) (o.fragment j hashKey seqNum)) := by
  rw [gather_absent hj hl hd]
  exact if_neg fun ⟨hpos, hlt⟩ => absurd (hf hpos) (not_le.mpr hlt)

-- An object beyond the bound never gets a slot.
theorem gather_oversize (hf : ¬o.Fits fmt cfg) (hj : j < o.total)
    (hl : p.1.slots.lookup (o.key fmt) = none) (hd : o.key fmt ∉ p.1.done) :
    gather fmt cfg h i (o.fragment j hashKey seqNum) p = (p.1, h.metric .oversize p.2) := by
  have ⟨hpos, hgt⟩ := Classical.not_imp.mp hf
  rw [gather_absent hj hl hd]
  exact if_pos ⟨hpos, not_le.mp hgt⟩

end Buffer
-- What `Observe` does with any fragment to the slots, after the sweep.
namespace Buffer

variable {ω : Type} {fmt : Formats} {cfg : Config} {h : Hooks ω} {i : Instant} {ff : FragFrame}
variable {p : Buffer × ω} {k key : Bytes32} {s s' : Slot}

-- What a fragment does to the slots: the one it meets takes it, refuses it, or is gone; no other
-- slot changes.
theorem lookup_accept (hl : (accept fmt cfg h i ff p s).1.slots.lookup k = some s') :
    p.1.slots.lookup k = some s' ∧ (k = s.key → ¬s.Takes ff ∧
        (ff.fragTotal ≠ s.fragTotal ∨ s.fragTotal ≤ ff.fragIndex ∨
          s.held[ff.fragIndex]? = some true)) ∨
      k = s.key ∧ s.Takes ff ∧ ¬s.CompletedBy ff ∧
        ∃ size, s.checkFragLen ff = some size ∧ s' = s.receive size ff := by
  by_cases hk : k = s.key
  case neg => exact .inl ⟨(lookup_accept_of_ne hk).symm.trans hl, fun e => absurd e hk⟩
  case pos =>
    rcases accept_cases fmt cfg h i ff p s with
      ⟨e, hn⟩ | ⟨e, _⟩ | ⟨size, ht, hsize, ⟨e, hw⟩ | ⟨e, _⟩⟩
    case inl     => exact .inl ⟨e ▸ hl, fun _ => hn⟩
    case inr.inl => rw [e, lookup_removeSlot, if_pos hk] at hl; cases hl
    case inr.inr.inl =>
      rw [e, lookup_putSlot, if_pos hk] at hl
      cases hl
      exact .inr ⟨hk, ht, hw, size, hsize, rfl⟩
    case inr.inr.inr =>
      rw [e, complete_fst, Slot.receive_key, lookup_removeSlot, if_pos hk] at hl
      cases hl

theorem lookup_openSlot (hne : k ≠ key)
    (hl : (openSlot cfg h i key ff p).1.slots.lookup k = some s') :
    p.1.slots.lookup k = some s' := by
  simp only [openSlot] at hl
  split at hl
  case isFalse => rwa [lookup_putSlot, if_neg hne] at hl
  case isTrue =>
    rw [lookup_putSlot, if_neg hne] at hl
    simp only [evictOldest] at hl
    split at hl
    case h_1 => exact hl
    case h_2 =>
      simp only [abandon, lookup_removeSlot] at hl
      split at hl
      case isTrue  => cases hl
      case isFalse => exact hl

-- A slot that is there after a fragment was so before, and has not taken it, or it is the one that
-- has.
theorem lookup_gather (hkd : p.1.Keyed)
    (hl : (gather fmt cfg h i ff p).1.slots.lookup k = some s') :
    p.1.slots.lookup k = some s' ∧
        (k = slotKey fmt ff → ∀ s, met fmt cfg h i p.1 ff = some s → ¬s.Takes ff) ∨
      k = slotKey fmt ff ∧ ∃ s size, met fmt cfg h i p.1 ff = some s ∧ s.Takes ff ∧
        ¬s.CompletedBy ff ∧ s.checkFragLen ff = some size ∧ s' = s.receive size ff := by
  cases hs : p.1.slots.lookup (slotKey fmt ff)
  case some s =>
    have hmet : met fmt cfg h i p.1 ff = some s := by simp [met, hs]
    rw [gather_slot ff hs] at hl
    rw [← hkd _ s hs]
    rcases lookup_accept hl with ⟨hl, hn⟩ | ⟨e, ht, hw, size, hsize, e'⟩
    case inl =>
      refine .inl ⟨hl, fun e s₁ hs₁ => ?_⟩
      cases hmet.symm.trans hs₁
      exact (hn e).1
    case inr => exact .inr ⟨e, s, size, hmet, ht, hw, hsize, e'⟩
  case none =>
    by_cases ho : Opens fmt cfg p.1 ff
    case neg =>
      have hmet : met fmt cfg h i p.1 ff = none := by simp [met, hs, ho]
      refine .inl ⟨?_, fun _ s hs => nomatch hmet.symm.trans hs⟩
      rwa [gather_ignoring hs ho] at hl
    case pos =>
      have hmet : met fmt cfg h i p.1 ff = some (newSlot cfg h i (slotKey fmt ff) ff) := by
        simp [met, hs, ho]
      rw [gather_opening hs ho] at hl
      rcases lookup_accept hl with ⟨hl, hn⟩ | ⟨e, ht, hw, size, hsize, e'⟩
      case inr => exact .inr ⟨e, _, size, hmet, ht, hw, hsize, e'⟩
      case inl =>
        by_cases e : k = slotKey fmt ff
        case neg => exact .inl ⟨lookup_openSlot e hl, fun e' => absurd e' e⟩
        case pos =>
          have ⟨_, hi⟩ := not_or.mp ho.2.1
          rcases (hn e).2 with hn | hn | hn
          case inl     => exact absurd rfl hn
          case inr.inl => exact absurd hn hi
          case inr.inr => simp [newSlot, List.getElem?_replicate] at hn

end Buffer
end Reassembly
