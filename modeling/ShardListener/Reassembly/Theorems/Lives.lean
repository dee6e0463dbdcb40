import ShardListener.Reassembly.Theorems.Chronicle

namespace Reassembly

-- Every call of the abandoned hook is followed by one with the reason, and there is no reason
-- without.
inductive Paired : List Event → Prop
  | nil : Paired []
  | abandoned (reason : AbandonReason) (calls : List Event) (hp : Paired calls) :
      Paired (.metric .abandoned :: .metric (.abandonedReason reason) :: calls)
  | other (e : Event) (calls : List Event) (ha : e ≠ .metric .abandoned)
    (hr : ∀ reason, e ≠ .metric (.abandonedReason reason))
      (hp : Paired calls) : Paired (e :: calls)

variable {ω : Type} {fmt : Formats} {cfg : Config} {h : Hooks ω} {i : Instant} {ff : FragFrame}
variable {b b' : Buffer} {key k : Bytes32} {s s' s₀ : Slot} {calls more : List Event} {done : Bool}

theorem Paired.append (hp : Paired calls) (hm : Paired more) : Paired (calls ++ more) := by
  induction hp
  case nil                        => exact hm
  case abandoned reason calls _ hi => exact .abandoned reason _ hi
  case other e calls ha hr _ hi    => exact .other e _ ha hr hi

-- What the hooks are told of one slot.
structure Told (calls : List Event) : Prop where
  extended   : calls.count (.metric .extended) ≤ 1
  incomplete : (Event.asked calls).length ≤ 1
  lateDone   : calls.count (.metric .lateDone) ≤ 1
  after      : .metric .lateDone ∈ calls →
    ∃ earlier later, calls = earlier ++ .metric .lateDone :: later ∧ .metric .extended ∈ earlier

theorem Event.asked_append : asked (calls ++ more) = asked calls ++ asked more :=
  List.filterMap_append

namespace Told

theorem nil : Told [] where
  extended   := Nat.zero_le _
  incomplete := Nat.zero_le _
  lateDone   := Nat.zero_le _
  after      := nofun

-- Calls that are not about a late completion.
theorem append (ht : Told calls) (hl : more.count (.metric .lateDone) = 0)
    (he : (calls ++ more).count (.metric .extended) ≤ 1)
    (ha : (Event.asked (calls ++ more)).length ≤ 1) : Told (calls ++ more) where
  extended   := he
  incomplete := ha
  lateDone   := by rw [List.count_append, hl]; exact ht.lateDone
  after      := by
    intro hm
    have hm := (List.mem_append.mp hm).resolve_right (List.count_eq_zero.mp hl)
    have ⟨earlier, later, e, hext⟩ := ht.after hm
    exact ⟨earlier, later ++ more, by rw [e, List.append_assoc, List.cons_append], hext⟩

-- Calls that are about neither, nor of the incomplete hook.
theorem append_other (ht : Told calls) (hl : more.count (.metric .lateDone) = 0)
    (he : more.count (.metric .extended) = 0) (ha : Event.asked more = []) :
    Told (calls ++ more) := by
  refine ht.append hl ?_ ?_
  case refine_1 => rw [List.count_append, he]; exact ht.extended
  case refine_2 => rw [Event.asked_append, ha, List.append_nil]; exact ht.incomplete

-- A late completion is the last that is told.
theorem append_lateDone {e : Event} (ht : Told calls) (hl : calls.count (.metric .lateDone) = 0)
    (hx : .metric .extended ∈ calls) (he : e = .metric .hashMismatch ∨ ∃ d, e = .complete d) :
    Told (calls ++ [.metric .lateDone, e]) := by
  have hquiet : e ≠ .metric .extended ∧ e ≠ .metric .lateDone ∧ Event.asked [e] = [] := by
    rcases he with rfl | ⟨d, rfl⟩
    case inl => exact ⟨nofun, nofun, rfl⟩
    case inr => exact ⟨nofun, nofun, rfl⟩
  have ⟨h₁, h₂, h₃⟩ := hquiet
  refine ⟨?_, ?_, ?_, fun _ => ⟨calls, [e], rfl, hx⟩⟩
  case refine_1 => simpa [List.count_append, List.count_cons, h₁] using ht.extended
  case refine_2 =>
    have e' : Event.asked [.metric .lateDone, e] = [] := h₃
    rw [Event.asked_append, e', List.append_nil]
    exact ht.incomplete
  case refine_3 => simp [List.count_append, hl, h₂]

end Told

namespace Slot

-- The slot with the fragments that it had at some time before.
structure Earlier (s₀ s : Slot) : Prop where
  hashKey   : s₀.hashKey = s.hashKey
  fragTotal : s₀.fragTotal = s.fragTotal
  held      : ∀ j : Nat, s₀.held[j]? = some true → s.held[j]? = some true ∧
    s₀.fragSeq[j]? = s.fragSeq[j]?

theorem Earlier.refl : s.Earlier s :=
  ⟨rfl, rfl, fun _ hj => ⟨hj, rfl⟩⟩

theorem Earlier.heldOver : s.Earlier (s.heldOver cfg i) :=
  ⟨rfl, rfl, fun _ hj => ⟨hj, rfl⟩⟩

theorem Earlier.trans {s₁ s₂ : Slot} (h₁ : s₀.Earlier s₁) (h₂ : s₁.Earlier s₂) : s₀.Earlier s₂ where
  hashKey   := h₁.hashKey.trans h₂.hashKey
  fragTotal := h₁.fragTotal.trans h₂.fragTotal
  held j hj := by
    have ⟨hj₁, e₁⟩ := h₁.held j hj
    have ⟨hj₂, e₂⟩ := h₂.held j hj₁
    exact ⟨hj₂, e₁.trans e₂⟩

theorem Earlier.receive {size : Nat} (ht : s.Takes ff) : s.Earlier (s.receive size ff) := by
  have ⟨_, _, e⟩ := s.receive_eq size ff
  rw [e]
  refine ⟨rfl, rfl, fun j hj => ?_⟩
  have hne : ff.fragIndex ≠ j := fun e => ht.2.2.1 (e ▸ hj)
  simp only [List.getElem?_set, if_neg hne]
  exact ⟨hj, trivial⟩

-- The calls of the incomplete hook for the slot: none, or one with the SeqNums that were missing
-- then.
def Asked (s : Slot) (calls : List Event) : Prop :=
  s.requested = false ∧ Event.asked calls = [] ∨ s.requested = true ∧
    ∃ s₀ : Slot, s₀.Earlier s ∧ Event.asked calls = [Buffer.incomplete s₀ s₀.missingSeqNums]

theorem Asked.length_le (ha : s.Asked calls) : (Event.asked calls).length ≤ 1 := by
  rcases ha with ⟨_, e⟩ | ⟨_, _, _, e⟩ <;> simp [e]

theorem count_requests {m : Metric} : (s.requests cfg i).count (.metric m) = 0 := by
  simp only [requests]
  split <;> simp

theorem asked_requests :
    Event.asked (s.requests cfg i) =
      if s.missingSeqNums ≠ [] ∧ ¬s.requested ∧ i.now < s.born + cfg.maxAge then
        [Buffer.incomplete s s.missingSeqNums]
      else [] := by
  simp only [requests]
  split <;> rfl

theorem asked_extension : Event.asked s.extension = [] := by
  simp only [extension]
  split <;> rfl

theorem count_extension : s.extended.toNat + s.extension.count (.metric .extended) = 1 := by
  cases he : s.extended <;> simp [extension, he]

theorem count_extension_of_ne {m : Metric} (hm : .extended ≠ m) :
    s.extension.count (.metric m) = 0 := by
  cases he : s.extended <;> simp [extension, he, hm]

-- A slot that has asked does not ask again.
theorem Asked.requests_length_le (ha : s.Asked calls) :
    (Event.asked (calls ++ s.requests cfg i)).length ≤ 1 := by
  rw [Event.asked_append, asked_requests]
  rcases ha with ⟨_, e⟩ | ⟨hr, _, _, e⟩
  case inl => rw [e]; split <;> simp
  case inr => simp [e, hr]

-- A slot that has asked before, or that can ask now.
theorem Asked.exists_request (ha : s.Asked calls) (hm : s.missingSeqNums ≠ [])
    (hr : s.requested ∨ i.now < s.born + cfg.maxAge) :
    ∃ s₀ : Slot, s₀.Earlier s ∧
      Event.asked (calls ++ s.requests cfg i) = [Buffer.incomplete s₀ s₀.missingSeqNums] := by
  rw [Event.asked_append, asked_requests]
  rcases ha with ⟨hreq, e⟩ | ⟨hreq, s₀, hs₀, e⟩
  case inl =>
    have hlim : i.now < s.born + cfg.maxAge := hr.resolve_left (by simp [hreq])
    exact ⟨s, .refl, by simp [e, hreq, hlim, hm]⟩
  case inr => exact ⟨s₀, hs₀, by simp [e, hreq]⟩

theorem Asked.heldOver (ha : s.Asked calls) (hlim : i.now < s.born + cfg.maxAge)
    (hm : s.missingSeqNums ≠ []) : (s.heldOver cfg i).Asked (calls ++ s.requests cfg i) := by
  have ⟨s₀, hs₀, e⟩ := ha.exists_request hm (.inr hlim)
  exact .inr ⟨rfl, s₀, hs₀.trans .heldOver, e⟩

end Slot

-- What was told of the slot that is or was under a key.
structure Life (slot : Option Slot) (calls : List Event) : Prop where
  told : Told calls
  live : ∀ s, slot = some s → calls.count (.metric .extended) = s.extended.toNat ∧
    calls.count (.metric .lateDone) = 0 ∧ s.Asked calls

namespace Life

theorem gone {slot : Option Slot} (hl : Life slot calls) : Life none calls :=
  ⟨hl.told, nofun⟩

theorem newSlot {h : Hooks (ω × List Event)} : Life (some (Buffer.newSlot cfg h i key ff)) [] where
  told := .nil
  live := by
    intro s e
    cases e
    exact ⟨rfl, rfl, .inl ⟨rfl, rfl⟩⟩

theorem turn (hl : Life (b.slots.lookup key) calls) (ht : Turned cfg i b key b' more) :
    Life (b'.slots.lookup key) (calls ++ more) := by
  cases ht
  case idle => rwa [List.append_nil]
  case abandoned s reason hs hd hr =>
    have ⟨hext, _, hask⟩ := hl.live s hs
    rw [Buffer.lookup_removeSlot, if_pos rfl]
    refine ⟨hl.told.append ?_ ?_ ?_, nofun⟩
    case refine_1 => simp [List.count_append, Slot.count_requests]
    case refine_2 => simpa [List.count_append, Slot.count_requests] using hl.told.extended
    case refine_3 =>
      have e : Event.asked [.metric .abandoned, .metric (.abandonedReason reason)] = [] := rfl
      rw [← List.append_assoc, Event.asked_append, e, List.append_nil]
      exact hask.requests_length_le
  case held s hs hd ha hm =>
    have ⟨hext, hlate, hask⟩ := hl.live s hs
    have hask' : (s.heldOver cfg i).Asked (calls ++ (s.requests cfg i ++ s.extension)) := by
      have hnew := hask.heldOver ha hm
      simpa only [Slot.Asked, ← List.append_assoc, Event.asked_append, Slot.asked_extension,
        List.append_nil] using hnew
    have hcount : (calls ++ (s.requests cfg i ++ s.extension)).count (.metric .extended) = 1 := by
      rw [List.count_append, List.count_append, Slot.count_requests, Nat.zero_add, hext,
        Slot.count_extension]
    have hzero : (s.requests cfg i ++ s.extension).count (.metric .lateDone) = 0 := by
      rw [List.count_append, Slot.count_requests, Slot.count_extension_of_ne (m := .lateDone) nofun]
    rw [Buffer.lookup_putSlot, if_pos rfl]
    refine ⟨hl.told.append hzero hcount.le hask'.length_le, fun s' e => ?_⟩
    cases e
    refine ⟨hcount, ?_, hask'⟩
    rw [List.count_append, hlate, hzero]

theorem idle {slot : Option Slot} (hl : Life slot calls) (hi : Chronicle.Idle more) :
    Life slot (calls ++ more) := by
  have hext : more.count (.metric .extended) = 0 := hi.count nofun nofun
  have hlate : more.count (.metric .lateDone) = 0 := hi.count nofun nofun
  refine ⟨hl.told.append_other hlate hext hi.asked, fun s hs => ?_⟩
  have ⟨h₁, h₂, h₃⟩ := hl.live s hs
  refine ⟨by rw [List.count_append, h₁, hext, Nat.add_zero],
    by rw [List.count_append, h₂, hlate], ?_⟩
  simpa only [Slot.Asked, Event.asked_append, hi.asked, List.append_nil] using h₃

theorem accept (hl : Life (some s) calls) (ha : Accepted b s b' more done)
    (hs : b.slots.lookup s.key = some s) : Life (b'.slots.lookup s.key) (calls ++ more) := by
  have ⟨hext, hlate, hask⟩ := hl.live s rfl
  cases ha
  case refused => rwa [hs, List.append_nil]
  case dropped =>
    rw [Buffer.lookup_removeSlot, if_pos rfl]
    exact ⟨hl.told.append_other rfl rfl rfl, nofun⟩
  case stored size ff ht =>
    have ⟨_, _, e⟩ := s.receive_eq size ff
    have hext' : (s.receive size ff).extended = s.extended := by rw [e]
    have hreq : (s.receive size ff).requested = s.requested := by rw [e]
    rw [Buffer.lookup_putSlot, if_pos rfl, List.append_nil]
    refine ⟨hl.told, fun s' es => ?_⟩
    cases es
    refine ⟨hext'.symm ▸ hext, hlate, ?_⟩
    rcases hask with ⟨hr, e⟩ | ⟨hr, s₀, hs₀, e⟩
    case inl => exact .inl ⟨hreq.trans hr, e⟩
    case inr => exact .inr ⟨hreq.trans hr, s₀, hs₀.trans (.receive ht), e⟩
  case completed outcome ho hslots =>
    have hnone : b'.slots.lookup s.key = none := by rw [hslots]; exact AList.lookup_erase ..
    rw [hnone]
    refine ⟨?_, nofun⟩
    simp only [Slot.lateness]
    cases hx : s.extended
    case true =>
      have hmem : .metric .extended ∈ calls := List.count_pos_iff.mp (by rw [hext, hx]; decide)
      exact hl.told.append_lateDone hlate hmem ho
    case false =>
      rcases ho with rfl | ⟨d, rfl⟩
      case inl => exact hl.told.append_other rfl rfl rfl
      case inr => exact hl.told.append_other (by simp) (by simp) rfl

end Life

open Buffer

namespace Turned

theorem outlives (ht : Turned cfg i b key b' calls) :
    Outlives (b.slots.lookup k) (b'.slots.lookup k) := by
  cases ht
  case idle      => exact .refl
  case abandoned => exact Buffer.removeSlot_outlives
  case held hl _ _ _ => exact Buffer.putSlot_outlives hl ⟨_, _, _, rfl⟩

theorem insertOrder (ht : Turned cfg i b key b' calls) : b'.insertOrder = b.insertOrder := by
  cases ht <;> rfl

theorem lookup_of_ne (ht : Turned cfg i b key b' calls) (hne : k ≠ key) :
    b'.slots.lookup k = b.slots.lookup k := by
  cases ht
  case idle      => rfl
  case abandoned => rw [Buffer.lookup_removeSlot, if_neg hne]
  case held      => rw [Buffer.lookup_putSlot, if_neg hne]

-- A slot that is not late has no turn.
theorem eq_of_idle (ht : Turned cfg i b key b' calls)
    (hd : ∀ s, b.slots.lookup key = some s → i.now ≤ s.deadline) : b' = b ∧ calls = [] := by
  cases ht
  case idle                      => exact ⟨rfl, rfl⟩
  case abandoned s _ hl hlate _  => exact absurd hlate (not_lt.mpr (hd s hl))
  case held s hl hlate _ _       => exact absurd hlate (not_lt.mpr (hd s hl))

theorem paired (ht : Turned cfg i b key b' calls) : Paired calls := by
  have hreq {s : Slot} : Paired (s.requests cfg i) := by
    simp only [Slot.requests]
    split
    case isTrue  => exact .other _ _ (by simp) (by simp) .nil
    case isFalse => exact .nil
  cases ht
  case idle                    => exact .nil
  case abandoned s reason _ _ _ => exact hreq.append (.abandoned reason _ .nil)
  case held s _ _ _ _ =>
    refine hreq.append ?_
    simp only [Slot.extension]
    split
    case isTrue  => exact .nil
    case isFalse => exact .other _ _ (by simp) (by simp) .nil

-- A slot that goes is abandoned.
theorem account (ht : Turned cfg i b key b' calls) :
    b'.slots.size + calls.count (.metric .abandoned) = b.slots.size ∧
      calls.count (.metric .started) = 0 ∧ calls.count (.metric .badFragment) = 0 := by
  cases ht
  case idle => exact ⟨rfl, rfl, rfl⟩
  case abandoned s reason hl _ _ =>
    simpa [List.count_append, Slot.count_requests] using size_removeSlot hl
  case held s hl _ _ _ =>
    have hzero (m : Metric) (hm : .extended ≠ m) :
        (s.requests cfg i ++ s.extension).count (.metric m) = 0 := by
      rw [List.count_append, Slot.count_requests, Slot.count_extension_of_ne hm]
    rw [hzero .abandoned nofun]
    exact ⟨by rw [size_putSlot hl, Nat.add_zero], hzero .started nofun, hzero .badFragment nofun⟩

end Turned

namespace Accepted

theorem lookup_of_ne (ha : Accepted b s b' calls done) (hne : k ≠ s.key) :
    b'.slots.lookup k = b.slots.lookup k := by
  cases ha
  case refused => rfl
  case dropped => rw [Buffer.lookup_removeSlot, if_neg hne]
  case stored  => rw [Buffer.lookup_putSlot, if_neg hne]
  case completed outcome _ hs => rw [hs, AList.lookup_erase_ne hne]

theorem paired (ha : Accepted b s b' calls done) : Paired calls := by
  cases ha
  case refused => exact .nil
  case dropped => exact .other _ _ (by simp) (by simp) .nil
  case stored  => exact .nil
  case completed outcome ho _ =>
    refine Paired.append ?_ ?_
    case refine_1 =>
      simp only [Slot.lateness]
      split
      case isTrue  => exact .other _ _ (by simp) (by simp) .nil
      case isFalse => exact .nil
    case refine_2 =>
      rcases ho with rfl | ⟨d, rfl⟩
      case inl => exact .other _ _ (by simp) (by simp) .nil
      case inr => exact .other _ _ (by simp) (by simp) .nil

-- A slot that goes is dropped or completed.
theorem account (ha : Accepted b s b' calls done) (hl : b.slots.lookup s.key = some s) :
    b'.slots.size + done.toNat + calls.count (.metric .badFragment) = b.slots.size ∧
      calls.count (.metric .started) = 0 ∧ calls.count (.metric .abandoned) = 0 := by
  cases ha
  case refused => exact ⟨rfl, rfl, rfl⟩
  case dropped => exact ⟨size_removeSlot hl, rfl, rfl⟩
  case stored  => exact ⟨by rw [size_putSlot hl]; rfl, rfl, rfl⟩
  case completed outcome ho hs =>
    have hzero (m : Metric) (hl : .lateDone ≠ m) (hh : .hashMismatch ≠ m) :
        (s.lateness ++ [outcome]).count (.metric m) = 0 := by
      rcases ho with rfl | ⟨d, rfl⟩ <;> cases he : s.extended <;> simp [Slot.lateness, he, hl, hh]
    rw [hzero .badFragment (by simp) (by simp), hs]
    exact ⟨size_removeSlot hl, hzero .started (by simp) (by simp),
      hzero .abandoned (by simp) (by simp)⟩

end Accepted

end Reassembly
