import ShardListener.Reassembly.Theorems.Slot
import ShardListener.Reassembly.Theorems.Sweep

namespace Reassembly

namespace Slot.Kept

variable {s s' : Slot}

theorem missingSeqNums (hk : s.Kept s') : s'.missingSeqNums = s.missingSeqNums := by
  have ⟨_, _, _, e⟩ := hk
  subst e
  rfl

theorem incomplete (hk : s.Kept s') :
    Buffer.incomplete s' s'.missingSeqNums = Buffer.incomplete s s.missingSeqNums := by
  have ⟨_, _, _, e⟩ := hk
  subst e
  rfl

theorem hashKey (hk : s.Kept s') : s'.hashKey = s.hashKey := by
  have ⟨_, _, _, e⟩ := hk
  subst e
  rfl

theorem born (hk : s.Kept s') : s'.born = s.born := by
  have ⟨_, _, _, e⟩ := hk
  subst e
  rfl

end Slot.Kept

-- What the repair side grants the slot `s`. As long as one of its missing fragments is pending,
-- other requests leave it so. Where there is room for its flow, the request of the slot makes its
-- missing fragments pending; where there is none, there is none later in the sweep.
structure Hooks.Grants {ω : Type} (h : Hooks ω) (pending : ω → HashKey → List SeqNum → Bool)
    (s : Slot) (Room : ω → Prop) : Prop where
  installed : h.repairPending = some pending
  waits     : h.Spares fun w => pending w s.hashKey s.missingSeqNums = true
  refuses   : h.Spares fun w => ¬Room w
  asks      : s.missingSeqNums ≠ [] → ∀ i w, Room w →
    pending (h.onIncomplete i (Buffer.incomplete s s.missingSeqNums) w) s.hashKey
      s.missingSeqNums = true

namespace Buffer

variable {ω : Type} {cfg : Config} {h : Hooks ω} {i : Instant} {p : Buffer × ω}
variable {pending : ω → HashKey → List SeqNum → Bool} {k key : Bytes32} {s s' : Slot}
variable {Room : ω → Prop} {w : ω}

-- The slot can name a missing fragment, and has not reached its limit.
structure Repairable (cfg : Config) (i : Instant) (s : Slot) : Prop where
  names : s.missingSeqNums ≠ []
  young : i.now < s.born + cfg.maxAge

-- The slot is there. If it is past its deadline and has asked for its missing fragments, one of
-- them is pending.
def Stands (pending : ω → HashKey → List SeqNum → Bool) (i : Instant) (k : Bytes32) (s : Slot)
    (p : Buffer × ω) : Prop :=
  ∃ s', p.1.slots.lookup k = some s' ∧ s.Kept s' ∧
    (s'.deadline < i.now → s.deadline < i.now ∧ (s'.requested = false → s.requested = false) ∧
      (s'.requested = true → pending p.2 s.hashKey s.missingSeqNums = true))

-- At its turn, the slot ends up with a missing fragment pending.
theorem pending_request (hg : h.Grants pending s Room) (hk : s.Kept s') (hr : Repairable cfg i s)
    (hroom : s'.requested = false → Room w)
    (hp : s'.requested = true → pending w s.hashKey s.missingSeqNums = true) :
    let r := request h i (s'.born + cfg.maxAge) s' w
    r.1.requested = true ∧ pending r.2 s.hashKey s.missingSeqNums = true := by
  unfold Buffer.request
  rw [hk.born, hk.incomplete]
  cases hreq : s'.requested
  case false =>
    rw [if_pos ⟨by simp, hr.young⟩]
    exact ⟨rfl, hg.asks hr.names i w (hroom hreq)⟩
  case true =>
    rw [if_neg (by simp)]
    exact ⟨hreq, hp hreq⟩

-- The slot's own turn: it is held.
theorem Stands.hold (hg : h.Grants pending s Room) (hr : Repairable cfg i s) (hk : s.Kept s')
    (hd : s.deadline < i.now) (hroom : s'.requested = false → Room p.2)
    (hp : s'.requested = true → pending p.2 s.hashKey s.missingSeqNums = true) :
    Stands pending i k s (holdForRepair cfg h pending i p k s') := by
  obtain ⟨hreq, hpend⟩ := pending_request hg hk hr hroom hp
  have hnames : s'.missingSeqNums ≠ [] := hk.missingSeqNums ▸ hr.names
  have hyoung : ¬s'.born + cfg.maxAge ≤ i.now := by
    rw [hk.born]
    exact not_le.mpr hr.young
  simp only [holdForRepair, if_neg hnames, if_neg hyoung]
  rw [hk.hashKey, hk.missingSeqNums, if_pos hpend]
  refine ⟨_, by rw [lookup_putSlot, if_pos rfl], hk.trans (request_kept.trans hold_kept), ?_⟩
  refine fun _ => ⟨hd, fun hn => ?_, fun _ => ?_⟩
  case refine_1 =>
    simp only [Buffer.hold, hreq] at hn
    cases hn
  case refine_2 =>
    simp only [Buffer.hold]
    split
    case isTrue  => exact hpend
    case isFalse => exact hg.waits.metric _ _ (by simp) hpend

-- One turn of the sweep leaves the slot standing.
theorem Stands.expire (hg : h.Grants pending s Room)
    (hr : s.deadline < i.now → Repairable cfg i s)
    (hroom : s.deadline < i.now → s.requested = false → Room p.2) (hs : Stands pending i k s p) :
    Stands pending i k s (expire cfg h i p key) := by
  have ⟨s', hl, hk, hc⟩ := hs
  by_cases e : k = key
  case neg =>
    refine ⟨s', (expire_turn.lookup e).trans hl, hk, fun hd => ?_⟩
    obtain ⟨hd', hreq, hp⟩ := hc hd
    exact ⟨hd', hreq, fun hr => hg.waits.turns.expire (hp hr)⟩
  case pos =>
    subst e
    unfold Buffer.expire
    simp only [hl, hg.installed]
    split
    case isTrue hle  => exact ⟨s', hl, hk, fun hd => absurd hd (not_lt.mpr hle)⟩
    case isFalse hgt =>
      obtain ⟨hd, hreq, hp⟩ := hc (not_le.mp hgt)
      exact .hold hg (hr hd) hk hd (fun hn => hroom hd (hreq hn)) hp

-- If there is room after the sweep, there was room at every turn of it.
theorem Stands.foldl_expire {keys : List Bytes32} (hg : h.Grants pending s Room)
    (hr : s.deadline < i.now → Repairable cfg i s)
    (hroom : s.deadline < i.now → s.requested = false →
      Room (keys.foldl (Buffer.expire cfg h i) p).2)
    (hs : Stands pending i k s p) :
    Stands pending i k s (keys.foldl (Buffer.expire cfg h i) p) := by
  induction keys generalizing p
  case nil => exact hs
  case cons key ks hi =>
    refine hi hroom (hs.expire hg hr fun hd hreq => ?_)
    by_contra hno
    exact hg.refuses.foldl_expire (hg.refuses.turns.expire hno) (hroom hd hreq)

-- The sweep keeps a slot that is not past its deadline, or that has a missing fragment pending, or
-- that asks for the first time and is not refused.
theorem evictExpired_keeps (hg : h.Grants pending s Room) (hl : p.1.slots.lookup k = some s)
    (hr : s.deadline < i.now → Repairable cfg i s)
    (hroom : s.deadline < i.now → s.requested = false → Room (evictExpired cfg h i p).2)
    (hp : s.deadline < i.now → s.requested = true →
      pending p.2 s.hashKey s.missingSeqNums = true) :
    ∃ s', (evictExpired cfg h i p).1.slots.lookup k = some s' ∧ s.Kept s' := by
  have hs : Stands pending i k s (p.1.sweepDone i.now, p.2) :=
    ⟨s, by rw [sweepDone_slots, hl], .refl, fun hd => ⟨hd, id, hp hd⟩⟩
  have ⟨s', hl', hk, _⟩ := Stands.foldl_expire hg hr hroom hs
  exact ⟨s', hl', hk⟩

end Buffer
end Reassembly
