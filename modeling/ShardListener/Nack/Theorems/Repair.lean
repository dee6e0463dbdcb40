import ShardListener.Nack.Theorems.Observe

namespace Nack
namespace FlowState

variable {cfg : Config} {i : Instant} {fs g : FlowState} {a : Arrival} {e : GapEntry} {seq : SeqNum}
variable {recorded : Bool}

theorem verdictOf_stale (h₀ : fs.lastSeqNum ≠ 0) (hle : a.seqNum ≤ fs.lastSeqNum)
    (hp : fs.pending.lookup a.seqNum = none) (hz : ¬fs.InResetZone cfg a) :
    fs.verdictOf cfg i a = some .stale := by
  have hf : ¬(a.seqNum ≤ fs.lastSeqNum ∧ (fs.pending.lookup a.seqNum).isSome) := by simp [hp]
  rw [verdictOf, if_neg hf, verdict, if_neg h₀, if_pos hle]
  exact congrArg some (if_neg hz)

theorem verdictOf_restart (hp : fs.pending.lookup a.seqNum = none) (hz : fs.InResetZone cfg a) :
    fs.verdictOf cfg i a = some .restart := by
  have hlt : a.seqNum < fs.lastSeqNum := Nat.lt_of_le_of_lt hz.2.1 hz.2.2
  have hf : ¬(a.seqNum ≤ fs.lastSeqNum ∧ (fs.pending.lookup a.seqNum).isSome) := by simp [hp]
  rw [verdictOf, if_neg hf, verdict, if_neg (Nat.ne_zero_of_lt hlt), if_pos hlt.le]
  exact congrArg some (if_pos hz)

-- Outside the reset zone the stream only moves forward.
theorem lastSeqNum_le_observe (h : ¬fs.InResetZone cfg a) :
    fs.lastSeqNum ≤ (fs.observe cfg i recorded a).flow.lastSeqNum := by
  have hg := verdictOf_guard cfg i fs a
  rw [(observe_observed ..).lastSeqNum]
  generalize fs.verdictOf cfg i a = v at hg
  cases v
  case none => exact le_rfl
  case some v =>
    cases v
    case first         => exact hg ▸ Nat.zero_le _
    case stale         => exact le_rfl
    case restart       => exact absurd hg.2.2 h
    case contiguous    => exact (Nat.le_succ _).trans_eq hg.2.symm
    case emitterChange => exact (Nat.lt_of_succ_lt hg.2.1).le
    case gap           => exact (Nat.lt_of_succ_lt hg.2.1).le

theorem seqNum_le_observe : a.seqNum ≤ (fs.observe cfg i recorded a).flow.lastSeqNum := by
  have hg := verdictOf_guard cfg i fs a
  rw [(observe_observed ..).lastSeqNum]
  generalize fs.verdictOf cfg i a = v at hg
  cases v
  case none => exact hg.1
  case some v =>
    cases v
    case stale => exact hg.2.1
    all_goals exact le_rfl

theorem observe_lastSeqNum_of_zone (hz : fs.InResetZone cfg a)
    (hp : fs.pending.lookup a.seqNum = none) :
    (fs.observe cfg i recorded a).flow.lastSeqNum = a.seqNum := by
  rw [(observe_observed ..).lastSeqNum, verdictOf_restart hp hz]
  rfl

-- A frame that does not advance the stream takes its own entry out of `pending` and no other.
theorem observe_lookup_of_le (h : ¬fs.InResetZone cfg a) (hle : a.seqNum ≤ fs.lastSeqNum)
    (hne : seq ≠ a.seqNum) :
    (fs.observe cfg i recorded a).flow.pending.lookup seq = fs.pending.lookup seq := by
  have hg := verdictOf_guard cfg i fs a
  have he : (fs.pending.erase a.seqNum).lookup seq = fs.pending.lookup seq := by
    rw [AList.lookup_erase_eq_ite, if_neg hne]
  rw [(observe_observed ..).pending]
  generalize fs.verdictOf cfg i a = v at hg
  cases v
  case none => exact he
  case some v =>
    cases v
    case first         => exact he
    case stale         => exact he
    case restart       => exact absurd hg.2.2 h
    case contiguous    => exact absurd (hg.2 ▸ hle) (Nat.not_succ_le_self _)
    case emitterChange => exact absurd hle (Nat.lt_of_succ_lt hg.2.1).not_ge
    case gap           => exact absurd hle (Nat.lt_of_succ_lt hg.2.1).not_ge

-- What a frame registers lies strictly between `lastSeqNum` and the frame.
theorem observe_registers (h : ((fs.observe cfg i recorded a).flow.pending.lookup seq).isSome)
    (hn : fs.pending.lookup seq = none) : fs.lastSeqNum < seq ∧ seq < a.seqNum := by
  have hg := verdictOf_guard cfg i fs a
  have he : (fs.pending.erase a.seqNum).lookup seq = none := by
    rw [AList.lookup_erase_eq_ite, hn, ite_self]
  rw [(observe_observed ..).pending] at h
  generalize fs.verdictOf cfg i a = v at hg h
  cases v
  case none => simp [pendingAfter, he] at h
  case some v =>
    cases v
    case restart => simp [pendingAfter] at h
    case gap     => simpa [pendingAfter, he] using h
    case emitterChange =>
      have ht := fs.tail_le_missing cfg (Time.sub i.now fs.lastSeen) a.seqNum
      have hs := hg.2.1
      simp only [pendingAfter, Option.isSome_ite, missing] at h ht
      dsimp only [SeqNum] at *
      omega
    all_goals simp [pendingAfter, he] at h

theorem observe_lookup_self :
    (fs.observe cfg i recorded a).flow.pending.lookup a.seqNum = none := by
  rw [(observe_observed ..).pending]
  generalize fs.verdictOf cfg i a = v
  cases v
  case none   => simp [pendingAfter]
  case some v => cases v <;> simp [pendingAfter]

theorem cancelGap_agrees :
    Agrees (fs.cancelGap recorded e).flow { fs with pending := fs.pending.erase e.seqNum } := by
  simp only [cancelGap]
  cases h : fs.autoFill recorded e.seqNum
  case some r => exact (autoFill_some h).1
  case none =>
    have he := AList.erase_of_lookup_none (autoFill_none_iff.mp h)
    exact ⟨he.symm, rfl, rfl, rfl, rfl, rfl⟩

-- A frame whose entry is closed beforehand is stale where it would have been a fill; otherwise the
-- verdict on it is the same.
theorem verdictOf_erased (hg : Agrees g { fs with pending := fs.pending.erase a.seqNum })
    (hz : ¬fs.InResetZone cfg a) (hs : a.seqNum ≠ 0) :
    g.verdictOf cfg i a = some ((fs.verdictOf cfg i a).getD .stale) := by
  have hp : g.pending.lookup a.seqNum = none := by rw [hg.pending, AList.lookup_erase]
  have hv := hg.verdict cfg (Time.sub i.now g.lastSeen) a.seqNum a.source.isSome
  simp only [hg.lastSeen] at hv
  by_cases hf : a.seqNum ≤ fs.lastSeqNum ∧ (fs.pending.lookup a.seqNum).isSome
  case neg =>
    simp only [verdictOf, hp, if_neg hf, Option.getD_some, hg.lastSeen, hv]
    simp
    rfl
  case pos =>
    have h₀ : g.lastSeqNum ≠ 0 := by
      rw [hg.lastSeqNum]
      exact fun h => hs (Nat.eq_zero_of_le_zero (hf.1.trans_eq h))
    have hz : ¬g.InResetZone cfg a := by simpa [InResetZone, hg.lastSeqNum] using hz
    rw [verdictOf_stale h₀ (hf.1.trans_eq hg.lastSeqNum.symm) hp hz, verdictOf, if_pos hf]
    rfl

theorem observe_erased (i : Instant) (r r' : Bool)
    (hg : Agrees g { fs with pending := fs.pending.erase a.seqNum })
    (hz : ¬fs.InResetZone cfg a) (hs : a.seqNum ≠ 0) :
    (g.observe cfg i r a).flow.lastSeqNum = (fs.observe cfg i r' a).flow.lastSeqNum ∧
      ∀ seq, (g.observe cfg i r a).flow.pending.lookup seq =
        (fs.observe cfg i r' a).flow.pending.lookup seq := by
  have ht : g.tail cfg (Time.sub i.now g.lastSeen) a.seqNum =
      fs.tail cfg (Time.sub i.now fs.lastSeen) a.seqNum := by
    simp only [tail, expected, missing, hg.ewmaIPG, hg.contiguous, hg.lastSeqNum, hg.lastSeen]
  have hn : ∀ m, (g.touch i.now a).newGap cfg i a m = (fs.touch i.now a).newGap cfg i a m := by
    intro m
    simp only [newGap, touch, hg.owner]
  have hp : ∀ seq, (g.pending.erase a.seqNum).lookup seq =
      (fs.pending.erase a.seqNum).lookup seq := by
    intro seq
    rw [hg.pending]
    simp only [AList.lookup_erase_eq_ite]
    split <;> rfl
  simp only [(observe_observed ..).lastSeqNum, (observe_observed ..).pending,
    verdictOf_erased hg hz hs]
  generalize fs.verdictOf cfg i a = v
  cases v
  case none   => exact ⟨hg.lastSeqNum, hp⟩
  case some v => cases v <;> simp [pendingAfter, lastAfter, hp, ht, hn, hg.lastSeqNum]

-- An ACK for a gap and the frame that fills it can be processed in either order.
theorem observe_cancelGap_comm (i : Instant) (r₁ r₂ r₃ r₄ : Bool) (he : e.seqNum = a.seqNum)
    (hz : ¬fs.InResetZone cfg a) (hs : a.seqNum ≠ 0) :
    let ackFirst   := ((fs.cancelGap r₁ e).flow.observe cfg i r₂ a).flow
    let frameFirst := ((fs.observe cfg i r₃ a).flow.cancelGap r₄ e).flow
    ackFirst.lastSeqNum = frameFirst.lastSeqNum ∧
      ∀ seq, ackFirst.pending.lookup seq = frameFirst.pending.lookup seq := by
  have hc : Agrees (fs.cancelGap r₁ e).flow _ := cancelGap_agrees
  have hf : Agrees ((fs.observe cfg i r₃ a).flow.cancelGap r₄ e).flow _ := cancelGap_agrees
  rw [he] at hc hf
  have ⟨hl, hp⟩ := observe_erased i r₂ r₃ hc hz hs
  refine ⟨hl.trans hf.lastSeqNum.symm, fun seq => (hp seq).trans ?_⟩
  rw [hf.pending, AList.erase_of_lookup_none observe_lookup_self]

end FlowState

namespace Tracker

variable {cfg : Config} {t : Tracker} {hk : HashKey}

-- The newest SeqNum of a flow.
def last (t : Tracker) (hk : HashKey) : SeqNum :=
  (t.flows.lookup hk).elim 0 (·.lastSeqNum)

-- The entry points of a stream whose emitter does not restart: its live frames, and the ACKs of
-- NACKs for it.
def OnStream (hk : HashKey) : Op → Prop
  | .observe _ a          => a.hashKey = hk ∧ a.seqNum ≠ 0 ∧ a.source.isSome
  | .complete _ e .cancel => e.hashKey = hk
  | _                     => False

instance : DecidablePred (OnStream hk)
  | .observe ..                 => inferInstanceAs (Decidable (_ ∧ _))
  | .complete _ _ .cancel       => inferInstanceAs (Decidable (_ = _))
  | .complete _ _ (.abandon _)  => .isFalse id
  | .complete _ _ (.advance ..) => .isFalse id
  | .complete _ _ (.throttle _) => .isFalse id
  | .complete _ _ .probeMiss    => .isFalse id
  | .complete _ _ .lost         => .isFalse id
  | .request ..                 => .isFalse id
  | .fill ..                    => .isFalse id
  | .sweep ..                   => .isFalse id

-- A live frame with a SeqNum up to the reset threshold, after the stream has passed the threshold.
def InResetZone (cfg : Config) (t : Tracker) : Op → Prop
  | .observe _ a =>
    a.source.isSome ∧ a.seqNum ≤ cfg.resetThreshold ∧ cfg.resetThreshold < t.last a.hashKey
  | _            => False

instance : DecidablePred (t.InResetZone cfg)
  | .observe ..  => inferInstanceAs (Decidable (_ ∧ _))
  | .request ..  => .isFalse id
  | .fill ..     => .isFalse id
  | .sweep ..    => .isFalse id
  | .complete .. => .isFalse id

-- Two trackers agree on the position and on the gaps of a flow.
def SameFlow (hk : HashKey) (t t' : Tracker) : Prop :=
  t.last hk = t'.last hk ∧ ∀ seq, t.pending hk [seq] = t'.pending hk [seq]

variable {fs : FlowState} {i : Instant} {a : Arrival} {e : GapEntry}

-- The tracker sees the flow as `fs`.
def Views (t : Tracker) (hk : HashKey) (fs : FlowState) : Prop :=
  t.last hk = fs.lastSeqNum ∧ ∀ seq, t.pending hk [seq] = (fs.pending.lookup seq).isSome

theorem views_of_lookup (h : t.flows.lookup hk = some fs) : t.Views hk fs := by
  simp [Views, last, pending, h]

theorem views_of_flowFor (h : t.flowFor cfg a = some fs) : t.Views a.hashKey fs := by
  simp only [flowFor] at h
  cases hl : t.flows.lookup a.hashKey
  case some fs' =>
    rw [hl] at h
    cases h
    exact views_of_lookup hl
  case none =>
    rw [hl] at h
    split at h
    case isTrue  => cases h
    case isFalse => cases h; simp [Views, last, pending, hl, FlowState.new]

theorem views_observeFrom (i : Instant) (hz : a.seqNum ≠ 0) (h : t.flowFor cfg a = some fs) :
    (t.observeFrom cfg i a).Views a.hashKey (fs.observe cfg i t.recorder.isSome a).flow :=
  views_of_lookup <| by rw [lookup_observeFrom cfg i t _ hz, if_pos rfl, h]; rfl

theorem lookup_cancelGap : (t.cancelGap e).flows.lookup e.hashKey =
    (t.flows.lookup e.hashKey).map fun fs => (fs.cancelGap t.recorder.isSome e).flow := by
  rw [cancelGap, lookup_onFlow, if_pos rfl]

theorem cancelGap_of_untracked (h : t.flows.lookup e.hashKey = none) : t.cancelGap e = t := by
  simp [cancelGap, onFlow, h]

-- An ACK leaves the position of the flow alone and adds no gap.
theorem cancelGap_inert : (t.cancelGap e).last e.hashKey = t.last e.hashKey ∧
    ∀ seq, (t.cancelGap e).pending e.hashKey [seq] → t.pending e.hashKey [seq] := by
  cases h : t.flows.lookup e.hashKey
  case none => simp [cancelGap_of_untracked h]
  case some fs =>
    have hl := lookup_cancelGap.trans (congrArg _ h)
    have ⟨hs, hp⟩ := views_of_lookup h
    have ⟨hs', hp'⟩ := views_of_lookup hl
    have ha : (fs.cancelGap t.recorder.isSome e).flow.Agrees _ := FlowState.cancelGap_agrees
    refine ⟨hs'.trans (ha.lastSeqNum.trans hs.symm), fun seq => ?_⟩
    rw [hp', hp, ha.pending, AList.lookup_erase_eq_ite]
    split
    case isTrue  => exact fun h => nomatch h
    case isFalse => exact id

theorem flowFor_cancelGap (he : e.hashKey = a.hashKey) : (t.cancelGap e).flowFor cfg a =
    (t.flowFor cfg a).map fun fs => (fs.cancelGap t.recorder.isSome e).flow := by
  cases h : t.flows.lookup e.hashKey
  case none =>
    rw [cancelGap_of_untracked h, flowFor, ← he, h]
    split <;> rfl
  case some fs =>
    rw [flowFor, flowFor, ← he, lookup_cancelGap, h]
    rfl

-- A tracker without other flows has room for the stream.
theorem exists_flowFor (cfg : Config) (t : Tracker)
    (h : t.flows.lookup a.hashKey = none → t.flows.size = 0) : ∃ fs, t.flowFor cfg a = some fs := by
  rw [flowFor]
  cases hl : t.flows.lookup a.hashKey
  case some fs => exact ⟨fs, rfl⟩
  case none =>
    have hf : ¬t.full cfg := by
      rintro ⟨hp, hs⟩
      rw [h hl] at hs
      exact absurd hp (not_lt.mpr hs)
    exact ⟨_, by rw [if_neg hf]; rfl⟩

theorem sameFlow_of_views {t' : Tracker} {f f' : FlowState} (h : t.Views hk f) (h' : t'.Views hk f')
    (hl : f.lastSeqNum = f'.lastSeqNum) (hp : ∀ seq, f.pending.lookup seq = f'.pending.lookup seq) :
    SameFlow hk t t' :=
  ⟨h.1.trans (hl.trans h'.1.symm), fun seq => by rw [h.2, h'.2, hp]⟩

-- The flow after an ACK and the frame it announces, in the two orders.

theorem views_ack_frame (he : e.hashKey = a.hashKey) (hz : a.seqNum ≠ 0)
    (hf : t.flowFor cfg a = some fs) :
    ((t.cancelGap e).observeFrom cfg i a).Views a.hashKey
      ((fs.cancelGap t.recorder.isSome e).flow.observe cfg i
        (t.cancelGap e).recorder.isSome a).flow :=
  views_observeFrom i hz ((flowFor_cancelGap he).trans (congrArg _ hf))

theorem views_frame_ack (he : e.hashKey = a.hashKey) (hz : a.seqNum ≠ 0)
    (hf : t.flowFor cfg a = some fs) :
    ((t.observeFrom cfg i a).cancelGap e).Views a.hashKey
      ((fs.observe cfg i t.recorder.isSome a).flow.cancelGap
        (t.observeFrom cfg i a).recorder.isSome e).flow := by
  have ho : (t.observeFrom cfg i a).flows.lookup e.hashKey = _ :=
    (lookup_observeFrom cfg i t _ hz).trans ((if_pos he).trans (congrArg _ hf))
  exact he ▸ views_of_lookup (lookup_cancelGap.trans (congrArg _ ho))

theorem sameFlow_ack_frame (he : e.hashKey = a.hashKey) (hs : e.seqNum = a.seqNum)
    (hz : a.seqNum ≠ 0) (hf : t.flowFor cfg a = some fs) (hr : ¬fs.InResetZone cfg a) :
    SameFlow a.hashKey ((t.cancelGap e).observeFrom cfg i a)
      ((t.observeFrom cfg i a).cancelGap e) :=
  have hc := fun r₁ r₂ r₃ r₄ => FlowState.observe_cancelGap_comm i r₁ r₂ r₃ r₄ hs hr hz
  sameFlow_of_views (views_ack_frame he hz hf) (views_frame_ack he hz hf) (hc ..).1 (hc ..).2

-- In the reset zone the two orders differ for a frame that is pending: after the ACK it is taken
-- for a restart.
theorem not_sameFlow_of_zone (he : e.hashKey = a.hashKey) (hs : e.seqNum = a.seqNum)
    (hz : a.seqNum ≠ 0) (hf : t.flowFor cfg a = some fs) (hr : fs.InResetZone cfg a)
    (hp : (fs.pending.lookup a.seqNum).isSome) :
    ¬SameFlow a.hashKey ((t.cancelGap e).observeFrom cfg i a)
      ((t.observeFrom cfg i a).cancelGap e) := by
  intro ⟨hl, _⟩
  have hlt : a.seqNum < fs.lastSeqNum := Nat.lt_of_le_of_lt hr.2.1 hr.2.2
  have hc : (fs.cancelGap t.recorder.isSome e).flow.Agrees _ := FlowState.cancelGap_agrees
  have hc' : ((fs.observe cfg i t.recorder.isSome a).flow.cancelGap
    (t.observeFrom cfg i a).recorder.isSome e).flow.Agrees _ := FlowState.cancelGap_agrees
  have hr' : (fs.cancelGap t.recorder.isSome e).flow.InResetZone cfg a := by
    rwa [FlowState.InResetZone, hc.lastSeqNum]
  have hn : (fs.cancelGap t.recorder.isSome e).flow.pending.lookup a.seqNum = none := by
    rw [hc.pending, hs, AList.lookup_erase]
  have hv : fs.verdictOf cfg i a = none := if_pos ⟨hlt.le, hp⟩
  rw [(views_ack_frame he hz hf).1, FlowState.observe_lastSeqNum_of_zone hr' hn,
    (views_frame_ack he hz hf).1, hc'.lastSeqNum, (FlowState.observe_observed ..).lastSeqNum, hv]
      at hl
  exact absurd hl hlt.ne

end Tracker

-- The tracker together with the SeqNums observed so far.
structure Reception where
  tracker : Tracker := .new
  seen    : List SeqNum := []

namespace Reception

open Tracker (OnStream SameFlow)

variable (cfg : Config) (hk : HashKey)

def step (r : Reception) (op : Op) : Reception where
  tracker := r.tracker.step cfg op
  seen :=
    match op with
    | .observe _ a => a.seqNum :: r.seen
    | _            => r.seen

-- What a repaired stream may rely on in one step. The position never moves back; a frame behind it
-- closes no gap but its own; a SeqNum that was observed is not asked for again; and an ACK for the
-- frame's gap can come before or after the frame.
structure Inert (r : Reception) (op : Op) : Prop where
  forward  : r.tracker.last hk ≤ (r.step cfg op).tracker.last hk
  spares   : ∀ i a, op = .observe i a → a.seqNum ≤ r.tracker.last hk → ∀ seq ≠ a.seqNum,
    r.tracker.pending hk [seq] → (r.step cfg op).tracker.pending hk [seq]
  unasked  : ∀ seq ∈ (r.step cfg op).seen,
    (r.step cfg op).tracker.pending hk [seq] → r.tracker.pending hk [seq]
  commutes : ∀ i a, op = .observe i a → ∀ e : GapEntry, e.hashKey = hk → e.seqNum = a.seqNum →
    SameFlow hk ((r.tracker.cancelGap e).observeFrom cfg i a)
      ((r.tracker.observeFrom cfg i a).cancelGap e)

-- No observed SeqNum is ahead of the stream, and the flow cap leaves room for the stream.
structure Ordered (r : Reception) : Prop where
  behind  : ∀ seq ∈ r.seen, seq ≤ r.tracker.last hk
  tracked : r.tracker.flows.lookup hk = none → r.tracker.flows.size = 0

theorem inert_observe {r : Reception} {i : Instant} {a : Arrival} (hj : r.Ordered a.hashKey)
    (hs : a.seqNum ≠ 0) (hz : ¬r.tracker.InResetZone cfg (.observe i a)) :
    r.Inert cfg a.hashKey (.observe i a) := by
  obtain ⟨fs, hf⟩ := r.tracker.exists_flowFor cfg hj.tracked
  obtain ⟨hl, hp⟩ := Tracker.views_of_flowFor hf
  obtain ⟨hl', hp'⟩ := Tracker.views_observeFrom i hs hf
  have hz : ¬fs.InResetZone cfg a := by rwa [FlowState.InResetZone, ← hl]
  constructor
  case forward => exact hl.trans_le ((FlowState.lastSeqNum_le_observe hz).trans_eq hl'.symm)
  case spares =>
    intro i' a' heq hle seq hne hs
    cases heq
    rw [step, Tracker.step, hp', FlowState.observe_lookup_of_le hz (hle.trans_eq hl) hne, ← hp]
    exact hs
  case unasked =>
    intro seq hm hs
    rw [step, Tracker.step, hp'] at hs
    rw [hp]
    by_contra hn
    obtain ⟨hlo, hhi⟩ := FlowState.observe_registers hs (Option.not_isSome_iff_eq_none.mp hn)
    cases List.mem_cons.mp hm
    case inl h => exact absurd h hhi.ne
    case inr h => exact absurd (hj.behind seq h) (hl ▸ hlo).not_ge
  case commutes =>
    intro i' a' heq e he hse
    cases heq
    exact Tracker.sameFlow_ack_frame he hse hs hf hz

-- In the reset zone a frame that is not pending moves the stream back, and a frame that is pending
-- does so once its ACK has come first.
theorem not_inert_of_zone {r : Reception} {i : Instant} {a : Arrival} (hj : r.Ordered a.hashKey)
    (hs : a.seqNum ≠ 0) (hz : r.tracker.InResetZone cfg (.observe i a)) :
    ¬r.Inert cfg a.hashKey (.observe i a) := by
  intro hi
  have ⟨fs, hf⟩ := r.tracker.exists_flowFor cfg hj.tracked
  have ⟨hl, hp⟩ := Tracker.views_of_flowFor hf
  have ⟨hl', hp'⟩ := Tracker.views_observeFrom i hs hf
  have hz : fs.InResetZone cfg a := by rwa [FlowState.InResetZone, ← hl]
  have hlt : a.seqNum < fs.lastSeqNum := Nat.lt_of_le_of_lt hz.2.1 hz.2.2
  cases he : fs.pending.lookup a.seqNum
  case none =>
    have hb := hi.forward
    rw [hl, step, Tracker.step, hl', FlowState.observe_lastSeqNum_of_zone hz he] at hb
    exact absurd hb hlt.not_ge
  case some e =>
    have hc := hi.commutes i a rfl { e with hashKey := a.hashKey, seqNum := a.seqNum } rfl rfl
    exact Tracker.not_sameFlow_of_zone rfl rfl hs hf hz (he ▸ rfl) hc

theorem inert_cancel {r : Reception} {i : Instant} {e : GapEntry} :
    r.Inert cfg e.hashKey (.complete i e .cancel) := by
  have ⟨hl, hp⟩ := Tracker.cancelGap_inert (t := r.tracker) (e := e)
  constructor
  case forward  => exact hl.ge
  case spares   => exact fun _ _ h => nomatch h
  case unasked  => exact fun seq _ => hp seq
  case commutes => exact fun _ _ h => nomatch h

theorem inert_iff {r : Reception} {op : Op} (hj : r.Ordered hk) (hd : OnStream hk op) :
    r.Inert cfg hk op ↔ ¬r.tracker.InResetZone cfg op := by
  cases op
  case observe i a =>
    obtain ⟨rfl, hs, -⟩ := hd
    exact ⟨fun hi hz => not_inert_of_zone cfg hj hs hz hi, inert_observe cfg hj hs⟩
  case complete i e c =>
    cases c
    case cancel =>
      cases hd
      exact ⟨fun _ => id, fun _ => inert_cancel cfg⟩
    all_goals exact hd.elim
  all_goals exact hd.elim

theorem ordered_step {r : Reception} {op : Op} (hj : r.Ordered hk) (hd : OnStream hk op)
    (hi : r.Inert cfg hk op) : (r.step cfg op).Ordered hk := by
  have hb : ∀ seq ∈ r.seen, seq ≤ (r.step cfg op).tracker.last hk :=
    fun seq hm => (hj.behind seq hm).trans hi.forward
  cases op
  case observe i a =>
    obtain ⟨rfl, hs, -⟩ := hd
    have ⟨fs, hf⟩ := r.tracker.exists_flowFor cfg hj.tracked
    constructor
    case behind =>
      intro seq hm
      cases List.mem_cons.mp hm
      case inr h => exact hb seq h
      case inl h =>
        rw [h, step, Tracker.step, (Tracker.views_observeFrom i hs hf).1]
        exact FlowState.seqNum_le_observe
    case tracked =>
      intro hn
      simp [step, Tracker.step, Tracker.lookup_observeFrom cfg i _ _ hs, hf] at hn
  case complete i e c =>
    cases c
    case cancel =>
      cases hd
      refine ⟨hb, fun hn => ?_⟩
      have hn : (r.tracker.cancelGap e).flows.lookup e.hashKey = none := hn
      rw [Tracker.lookup_cancelGap, Option.map_eq_none_iff] at hn
      simp only [step, Tracker.step, Tracker.complete, Tracker.cancelGap_of_untracked hn]
      exact hj.tracked hn
    all_goals exact hd.elim
  all_goals exact hd.elim

-- Along the runs of a stream, repair copies are inert exactly if no live frame of the reset zone
-- arrives after the stream has left the zone.
theorem inert_iff_outside_reset_zone (ops : List Op) (hd : ∀ op ∈ ops, OnStream hk op) :
    Run.Along (step cfg) (fun r op => r.Inert cfg hk op) {} ops ↔
      Run.Along (step cfg) (fun r op => ¬r.tracker.InResetZone cfg op) {} ops :=
  Run.along_iff_along (J := fun r => r.Ordered hk) (fun _ _ hj hd => inert_iff cfg hk hj hd)
    (fun _ _ hj hd hi => ordered_step cfg hk hj hd hi) ⟨by simp, fun _ => rfl⟩ hd

def liveFrame (ms : Int) (seq : SeqNum) : Op :=
  .observe { now := Time.ms ms, jitter := fun _ => 0 }
    { owner := 0, groupIdx := 0xFFFE, subtreeID := .zero, hashKey := 7,
      seqNum := seq, source := some 1 }

-- The ACK for SeqNum 2, with the copy that the sweep has dispatched.
def ackTwo : Op :=
  .complete { now := Time.ms 104, jitter := fun _ => 0 }
    { hashKey := 7, seqNum := 2, groupIdx := 0xFFFE, subtreeID := .zero, source := some 1
      nextAttempt := Time.ms 503, deadline := Time.ms 600003, owner := 0 } .cancel

-- SeqNum 2 is lost, its ACK comes first, and the repaired frame is stale.
theorem inert_below_threshold :
    Run.Along (step .default) (fun r op => r.Inert .default 7 op) {}
      [liveFrame 1 1, liveFrame 3 3, ackTwo, liveFrame 105 2, liveFrame 106 4] :=
  (inert_iff_outside_reset_zone .default 7 _ (by decide)).mpr (by decide)

-- SeqNums 2 and 4 of a block flow are lost among the first 102, and a sweep sends the NACKs.
def lossy : List Op :=
  liveFrame 1 1 :: liveFrame 3 3 :: (List.range' 5 98).map (fun n : Nat => liveFrame n n) ++
    [.sweep (Time.ms 103) (fun _ _ => true)]

-- The ACK comes first: the repaired frame is taken for a proxy restart, which drops the gap 4, and
-- the next frame asks for SeqNum 102, which was received.
theorem ackFirst_not_inert :
    let r := Run.exec (step .default) {} (lossy ++ [ackTwo])
    let r' := r.step .default (liveFrame 105 2)
    Run.Along (step .default) (fun r op => r.tracker.Enabled op) {} (lossy ++ [ackTwo]) ∧
      r.tracker.last 7 = 102 ∧ r.tracker.pending 7 [4] = true ∧ 102 ∈ r.seen ∧
      r'.tracker.last 7 = 2 ∧ r'.tracker.pending 7 [4] = false ∧
      (r'.step .default (liveFrame 106 103)).tracker.pending 7 [102] = true ∧
      ¬r.Inert .default 7 (liveFrame 105 2) := by
  refine ⟨?_, ?_, ?_, ?_, ?_, ?_, ?_, fun hi => absurd hi.forward ?_⟩
  all_goals decide +kernel

end Reception
end Nack
