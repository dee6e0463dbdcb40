import ShardListener.Reassembly.Chronicle
import ShardListener.Reassembly.Theorems.Order

namespace Reassembly

variable {ω : Type} {fmt : Formats} {cfg : Config} {h : Hooks ω} {i : Instant} {ff : FragFrame}
variable {b : Buffer} {key k : Bytes32} {s : Slot} {p : Buffer × (ω × List Event)}
variable {calls : List Event} {pending : ω → HashKey → List SeqNum → Bool}

namespace Slot

-- The request of a slot at its expiry.
def requests (cfg : Config) (i : Instant) (s : Slot) : List Event :=
  if s.missingSeqNums ≠ [] ∧ ¬s.requested ∧ i.now < s.born + cfg.maxAge then
    [.incomplete (Buffer.incomplete s s.missingSeqNums)]
  else []

-- The call for the first time that a slot is held for repair.
def extension (s : Slot) : List Event :=
  if s.extended then [] else [.metric .extended]

-- The call for the completion of a slot that was held for repair.
def lateness (s : Slot) : List Event :=
  if s.extended then [.metric .lateDone] else []

-- The slot when it is held for repair.
def heldOver (cfg : Config) (i : Instant) (s : Slot) : Slot :=
  { s with
    deadline := min (i.now + cfg.ttl) (s.born + cfg.maxAge), requested := true, extended := true }

end Slot

-- What the turn of a sweep does to the slot under a key, and the calls that it makes.
inductive Turned (cfg : Config) (i : Instant) (b : Buffer) (key : Bytes32) :
    Buffer → List Event → Prop
  | idle (hd : ∀ s, b.slots.lookup key = some s → i.now ≤ s.deadline) : Turned cfg i b key b []
  | abandoned (s : Slot) (reason : AbandonReason) (hl : b.slots.lookup key = some s)
      (hd : s.deadline < i.now) (hr : reason ≠ .capacity) :
      Turned cfg i b key (b.removeSlot key)
        (s.requests cfg i ++ [.metric .abandoned, .metric (.abandonedReason reason)])
  | held (s : Slot) (hl : b.slots.lookup key = some s) (hd : s.deadline < i.now)
      (ha : i.now < s.born + cfg.maxAge) (hm : s.missingSeqNums ≠ []) :
      Turned cfg i b key (b.putSlot key (s.heldOver cfg i))
        (s.requests cfg i ++ s.extension)

-- What a fragment does to the slot `s` that it meets, and the calls that it makes.
inductive Accepted (b : Buffer) (s : Slot) : Buffer → List Event → Bool → Prop
  | refused : Accepted b s b [] false
  | dropped : Accepted b s (b.removeSlot s.key) [.metric .badFragment] false
  | stored (size : Nat) (ff : FragFrame) (ht : s.Takes ff) :
      Accepted b s (b.putSlot s.key (s.receive size ff)) [] false
  | completed (b' : Buffer) (outcome : Event) (hs : b'.slots = b.slots.erase s.key)
      (ho : outcome = .metric .hashMismatch ∨ ∃ d, outcome = .complete d) :
      Accepted b s b' (s.lateness ++ [outcome]) true

theorem Hooks.chronicled_deliver {d : Delivery} {w : ω × List Event} :
    h.chronicled.deliver fmt i d w = (h.deliver fmt i d w.1, w.2 ++ [.complete d]) := by
  cases d
  case beef f => cases hb : h.onCompleteBEEFFrame <;> simp [deliver, chronicled, hb]
  all_goals rfl

namespace Buffer

theorem request_chronicled {w : ω × List Event} (hm : s.missingSeqNums ≠ []) :
    (request h.chronicled i (s.born + cfg.maxAge) s w).2.2 = w.2 ++ s.requests cfg i := by
  simp only [request, Slot.requests, ne_eq, hm, not_false_eq_true, true_and]
  split
  case isTrue  => rfl
  case isFalse => rw [List.append_nil]

theorem hold_request {w w' : ω × List Event} (ha : i.now < s.born + cfg.maxAge) :
    (hold cfg h.chronicled i (s.born + cfg.maxAge)
      (request h.chronicled i (s.born + cfg.maxAge) s w).1 w').1 = s.heldOver cfg i := by
  simp only [request, hold, Slot.heldOver]
  split
  case isTrue => rfl
  case isFalse hr =>
    have hreq : s.requested = true := by simpa [ha] using hr
    rw [← hreq]

theorem hold_chronicled {limit : Time} {w w' : ω × List Event} :
    (hold cfg h.chronicled i limit (request h.chronicled i limit s w).1 w').2.2 =
      w'.2 ++ s.extension := by
  have e : (request h.chronicled i limit s w).1.extended = s.extended := by
    simp only [request]
    split <;> rfl
  simp only [hold, e, Slot.extension]
  split
  case isTrue  => rw [List.append_nil]
  case isFalse => rfl

theorem abandon_chronicled {reason : AbandonReason} :
    abandon h.chronicled p key reason =
      (p.1.removeSlot key, h.metric (.abandonedReason reason) (h.metric .abandoned p.2.1),
        p.2.2 ++ [.metric .abandoned, .metric (.abandonedReason reason)]) := by
  simp [abandon, Hooks.chronicled]

theorem holdForRepair_turned (hl : p.1.slots.lookup key = some s) (hd : s.deadline < i.now) :
    let p' := holdForRepair cfg h.chronicled (fun w => pending w.1) i p key s
    ∃ calls, p'.2.2 = p.2.2 ++ calls ∧ Turned cfg i p.1 key p'.1 calls := by
  simp only [holdForRepair]
  split
  case isTrue hm =>
    have e : s.requests cfg i = [] := by simp [Slot.requests, hm]
    have ht : Turned cfg i p.1 key _ _ := .abandoned s .expired hl hd (by simp)
    rw [e, List.nil_append] at ht
    rw [abandon_chronicled]
    exact ⟨_, rfl, ht⟩
  case isFalse hm =>
    have hlog : (request h.chronicled i (s.born + cfg.maxAge) s p.2).2.2 =
      p.2.2 ++ s.requests cfg i := request_chronicled hm
    have hgone (reason : AbandonReason) (hr : reason ≠ .capacity) :
        let p' :=
          abandon h.chronicled (p.1, (request h.chronicled i (s.born + cfg.maxAge) s p.2).2) key
          reason
        ∃ calls, p'.2.2 = p.2.2 ++ calls ∧ Turned cfg i p.1 key p'.1 calls := by
      rw [abandon_chronicled, hlog, List.append_assoc]
      exact ⟨_, rfl, .abandoned s reason hl hd hr⟩
    split
    case isFalse => exact hgone .expired (by simp)
    case isTrue =>
      split
      case isTrue => exact hgone .repairTimeout (by simp)
      case isFalse ha =>
        have ha := not_le.mp ha
        rw [hold_request ha, hold_chronicled, hlog, List.append_assoc]
        exact ⟨_, rfl, .held s hl hd ha hm⟩

theorem expire_turned (cfg : Config) (h : Hooks ω) (pending : ω → HashKey → List SeqNum → Bool)
    (i : Instant) (p : Buffer × (ω × List Event)) (key : Bytes32) :
    let p' := expire cfg (h.asking pending).chronicled i p key
    ∃ calls, p'.2.2 = p.2.2 ++ calls ∧ Turned cfg i p.1 key p'.1 calls := by
  simp only [expire]
  split
  case h_1 hl => exact ⟨[], by simp, .idle fun s hs => nomatch hl.symm.trans hs⟩
  case h_2 s hl =>
    split
    case isTrue hd =>
      refine ⟨[], by simp, .idle fun s' hs' => ?_⟩
      cases hl.symm.trans hs'
      exact hd
    case isFalse hd => exact holdForRepair_turned (h := h.asking pending) hl (not_le.mp hd)

theorem complete_accepted (fmt : Formats) (cfg : Config) (h : Hooks ω) (i : Instant)
    (p : Buffer × (ω × List Event)) (s : Slot) :
    let p' := complete fmt cfg h.chronicled i p s
    p'.1.slots = p.1.slots.erase s.key ∧ ∃ outcome,
      p'.2.2 = p.2.2 ++ (s.lateness ++ [outcome]) ∧
        (outcome = .metric .hashMismatch ∨ ∃ d, outcome = .complete d) := by
  have hslots : ((p.1.markDone cfg i.now s.key).removeSlot s.key).slots =
      p.1.slots.erase s.key := by
    rw [removeSlot, markDone_slots]
  have hlate : (if s.extended then h.chronicled.metric .lateDone p.2 else p.2).2 =
      p.2.2 ++ s.lateness := by
    simp only [Slot.lateness]
    split
    case isTrue  => rfl
    case isFalse => rw [List.append_nil]
  simp only [complete]
  split
  case isTrue =>
    refine ⟨hslots, .metric .hashMismatch, ?_, .inl rfl⟩
    rw [← List.append_assoc, ← hlate]
    rfl
  case isFalse =>
    refine ⟨hslots, .complete (s.delivery (s.payload.getD s.assembled)), ?_, .inr ⟨_, rfl⟩⟩
    rw [Hooks.chronicled_deliver, ← List.append_assoc, ← hlate]

theorem accept_accepted (fmt : Formats) (cfg : Config) (h : Hooks ω) (i : Instant) (ff : FragFrame)
    (p : Buffer × (ω × List Event)) (s : Slot) :
    let p' := accept fmt cfg h.chronicled i ff p s
    ∃ calls, p'.2.2 = p.2.2 ++ calls ∧ Accepted p.1 s p'.1 calls (decide (s.CompletedBy ff)) := by
  rcases accept_cases fmt cfg h.chronicled i ff p s with
    ⟨e, hn, _⟩ | ⟨e, hn⟩ | ⟨size, ht, _, ⟨e, hn⟩ | ⟨e, hby⟩⟩
  case inl =>
    have hn : ¬s.CompletedBy ff := fun hby => hn hby.takes
    rw [e, decide_eq_false hn]
    exact ⟨[], by simp, .refused⟩
  case inr.inl =>
    have hn : ¬s.CompletedBy ff := fun hby => hn hby.takes
    rw [e, decide_eq_false hn]
    exact ⟨_, rfl, .dropped⟩
  case inr.inr.inl =>
    rw [e, decide_eq_false hn]
    exact ⟨[], by simp, .stored size ff ht⟩
  case inr.inr.inr =>
    have ⟨hs, outcome, hlog, ho⟩ := complete_accepted fmt cfg h i p (s.receive size ff)
    have ⟨_, _, er⟩ := s.receive_eq size ff
    have hlate : (s.receive size ff).lateness = s.lateness := by rw [er]; rfl
    rw [Slot.receive_key] at hs
    rw [hlate] at hlog
    rw [e, decide_eq_true hby]
    exact ⟨_, hlog, .completed _ outcome hs ho⟩

-- The table has room for a new slot, or one makes room for it.
theorem openSlot_chronicled (cfg : Config) (h : Hooks ω) (i : Instant) (key : Bytes32)
    (ff : FragFrame) (p : Buffer × (ω × List Event)) :
    let p' := openSlot cfg h.chronicled i key ff p
    roomy cfg p.1 = p.1 ∧ p'.2.2 = p.2.2 ++ [.metric .started] ∨
      ∃ k, p.1.oldest = some k ∧ roomy cfg p.1 = p.1.evict k ∧ p'.2.2 =
        p.2.2 ++ [.metric .abandoned, .metric (.abandonedReason .capacity), .metric .started] := by
  simp only [openSlot, roomy]
  split
  case isFalse => exact .inl ⟨rfl, rfl⟩
  case isTrue =>
    cases ho : p.1.oldest
    case none =>
      have e : evictOldest h.chronicled p = p := by
        simp only [oldest] at ho
        simp only [evictOldest, ho]
      exact .inl ⟨rfl, by rw [e]; rfl⟩
    case some k =>
      have e : (evictOldest h.chronicled p).2 = (abandon h.chronicled p k .capacity).2 := by
        simp only [oldest] at ho
        simp only [evictOldest, ho]
      refine .inr ⟨k, rfl, rfl, ?_⟩
      rw [e, abandon_chronicled]
      simp [Hooks.chronicled]

theorem completing_isSome (hm : met fmt cfg h i b ff = some s) :
    (completing fmt cfg h i b ff).isSome = decide (s.CompletedBy ff) := by
  simp only [completing, hm, Option.bind_some]
  split
  case isTrue hby =>
    have hlen := hby.2.2.2.1
    simp [hby, hlen]
  case isFalse hby => simp [hby]

end Buffer

namespace Chronicle

variable {x x' : Chronicle ω} {ask : Query ω} {keys : List Bytes32}

-- The step from `x` to `x'` has made `calls`, for the slot `key`.
structure Extends (x x' : Chronicle ω) (key : Bytes32) (calls : List Event) : Prop where
  log   : x'.state.2.2 = x.state.2.2 ++ calls
  lives : ∀ k, x'.lives k = if k = key then x.lives k ++ calls else x.lives k

theorem note_extends (hp : p.2.2 = x.state.2.2 ++ calls) : x.Extends (x.note key p) key calls where
  log     := hp
  lives k := by
    simp only [note, hp, List.drop_left, Function.update_apply]
    split
    case isTrue e  => rw [e]
    case isFalse   => rfl

theorem turn_turned (cfg : Config) (h : Hooks ω) (ask : Query ω) (i : Instant) (x : Chronicle ω)
    (key : Bytes32) :
    ∃ calls, Turned cfg i x.state.1 key (x.turn cfg h ask i key).state.1 calls ∧
      x.Extends (x.turn cfg h ask i key) key calls := by
  have ⟨calls, hlog, ht⟩ := Buffer.expire_turned cfg h (ask key) i x.state key
  exact ⟨calls, ht, note_extends hlog⟩

-- The calls for a fragment that meets no slot.
def Idle (calls : List Event) : Prop :=
  ∀ e ∈ calls, e = .metric .lateFragment ∨ e = .metric .oversize

theorem Idle.count {m : Metric} (hi : Idle calls) (hl : .lateFragment ≠ m) (ho : .oversize ≠ m) :
    calls.count (.metric m) = 0 := by
  refine List.count_eq_zero.mpr fun hm => ?_
  rcases hi _ hm with e | e
  case inl => cases e; exact hl rfl
  case inr => cases e; exact ho rfl

theorem Idle.asked (hi : Idle calls) : Event.asked calls = [] := by
  refine List.filterMap_eq_nil_iff.mpr fun e he => ?_
  rcases hi e he with rfl | rfl
  case inl => rfl
  case inr => rfl

open Buffer

theorem opened_eq
    (hn : ¬(x.state.1.slots.lookup (slotKey fmt ff) = none ∧ Opens fmt cfg x.state.1 ff)) :
    x.opened fmt cfg h i ff = x :=
  if_neg hn

theorem opened_cases (fmt : Formats) (cfg : Config) (h : Hooks ω) (i : Instant) (ff : FragFrame)
    (x : Chronicle ω) :
    let x₁ := x.opened fmt cfg h i ff
    x₁ = x ∨ x.state.1.slots.lookup (slotKey fmt ff) = none ∧ x₁.completes = x.completes ∧
      (∀ k, x₁.lives k = if k = slotKey fmt ff then [] else x.lives k) ∧
        x₁.state = openSlot cfg h.chronicled i (slotKey fmt ff) ff x.state := by
  simp only [opened]
  split
  case isFalse => exact .inl rfl
  case isTrue ho =>
    refine .inr ⟨ho.1, rfl, fun k => ?_, rfl⟩
    simp only [Function.update_apply]

theorem opened_completes : (x.opened fmt cfg h i ff).completes = x.completes := by
  simp only [opened]
  split <;> rfl

theorem gather_state :
    (x.gather fmt cfg h i ff).state = Buffer.gather fmt cfg h.chronicled i ff x.state :=
  rfl

theorem gather_extends
    (hp : (Buffer.gather fmt cfg h.chronicled i ff x.state).2.2 =
      (x.opened fmt cfg h i ff).state.2.2 ++ calls) :
    (x.opened fmt cfg h i ff).Extends (x.gather fmt cfg h i ff) (slotKey fmt ff) calls :=
  have he : (x.opened fmt cfg h i ff).Extends _ _ calls := note_extends hp
  ⟨he.log, he.lives⟩

-- A fragment that meets no slot.
theorem gather_unmet (hm : met fmt cfg h.chronicled i x.state.1 ff = none) :
    let x' := x.gather fmt cfg h i ff
    x.opened fmt cfg h i ff = x ∧ x'.state.1 = x.state.1 ∧ x'.completes = x.completes ∧
      ∃ calls, Idle calls ∧ x.Extends x' (slotKey fmt ff) calls := by
  obtain ⟨hl, ho⟩ := met_eq_none hm
  have e₁ : x.opened fmt cfg h i ff = x := opened_eq fun h => ho h.2
  have hc : (x.gather fmt cfg h i ff).completes = x.completes := by simp [gather, completing, hm]
  have hext (calls : List Event) :
      x.state.2.2 ++ calls = (x.opened fmt cfg h i ff).state.2.2 ++ calls := by
    rw [e₁]
  rcases gather_ignoring_cases (h := h.chronicled) (i := i) hl ho with e | ⟨m, hm, e⟩
  case inl =>
    have he : (x.opened fmt cfg h i ff).Extends _ _ [] :=
      gather_extends (by rw [e, ← hext, List.append_nil])
    rw [e₁] at he
    exact ⟨e₁, by rw [gather_state, e], hc, [], fun _ he => absurd he List.not_mem_nil, he⟩
  case inr =>
    have he : (x.opened fmt cfg h i ff).Extends _ _ [.metric m] :=
      gather_extends (by rw [e, ← hext]; rfl)
    rw [e₁] at he
    refine ⟨e₁, by rw [gather_state, e], hc, [.metric m], fun e he => ?_, he⟩
    rw [List.mem_singleton.mp he]
    exact hm.imp (congrArg _) (congrArg _)

-- A fragment that meets a slot, which was there or is opened for it.
theorem gather_met (hkd : x.state.1.Keyed) (hm : met fmt cfg h.chronicled i x.state.1 ff = some s) :
    let x₁ := x.opened fmt cfg h i ff
    let x' := x.gather fmt cfg h i ff
    x₁.state.1.slots.lookup (slotKey fmt ff) = some s ∧ s.key = slotKey fmt ff ∧
      x'.completes = x.completes + (decide (s.CompletedBy ff)).toNat ∧
      ∃ calls, Accepted x₁.state.1 s x'.state.1 calls (decide (s.CompletedBy ff)) ∧
        x₁.Extends x' (slotKey fmt ff) calls := by
  have hc : (x.gather fmt cfg h i ff).completes = x.completes +
      (decide (s.CompletedBy ff)).toNat := by
    simp only [gather, completing_isSome hm]
  have hacc (hg : Buffer.gather fmt cfg h.chronicled i ff x.state =
      accept fmt cfg h.chronicled i ff (x.opened fmt cfg h i ff).state s) :
      ∃ calls, Accepted (x.opened fmt cfg h i ff).state.1 s (x.gather fmt cfg h i ff).state.1 calls
          (decide (s.CompletedBy ff)) ∧
        (x.opened fmt cfg h i ff).Extends (x.gather fmt cfg h i ff) (slotKey fmt ff) calls := by
    obtain ⟨calls, hlog, ha⟩ := accept_accepted fmt cfg h i ff (x.opened fmt cfg h i ff).state s
    rw [← hg] at hlog ha
    exact ⟨calls, ha, gather_extends hlog⟩
  rcases met_eq_some hm with hl | ⟨hl, ho, e⟩
  case inl =>
    have e₁ : x.opened fmt cfg h i ff = x := opened_eq fun h => absurd (hl.symm.trans h.1) (by simp)
    refine ⟨by rw [e₁]; exact hl, hkd _ s hl, hc, hacc ?_⟩
    rw [e₁]
    exact gather_slot ff hl
  case inr =>
    have e₁ : (x.opened fmt cfg h i ff).state =
        openSlot cfg h.chronicled i (slotKey fmt ff) ff x.state := by
      simp only [opened, hl, ho, and_self, if_true]
    subst e
    refine ⟨?_, rfl, hc, hacc ?_⟩
    case refine_1 =>
      rw [e₁, openSlot_fst]
      exact AList.lookup_insert _
    case refine_2 =>
      rw [e₁]
      exact gather_opening hl ho

end Chronicle

end Reassembly
