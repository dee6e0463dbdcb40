import ShardListener.Nack.Send
import ShardListener.Reassembly.Theorems.Gather
import ShardListener.Worker.Theorems.Lossless

-- The recorder calls that say that the pipeline has rejected something: a decode error, no
-- reassembly buffer, a disabled plane, a failed payload verification.
def Worker.Metric.isRejection : Worker.Metric → Bool
  | .dropped .decodeError        => true
  | .dropped .fragDecodeError    => true
  | .dropped .bundleDecodeError  => true
  | .dropped .noReassemblyBuffer => true
  | .dropped .beefDisabled       => true
  | .dropped .payloadNotOneTx    => true
  | .invalidPayload              => true
  | .reassembly .hashMismatch    => true
  | _                            => false

namespace Worker

variable {wire : Wire} {cfg : Settings} {env : Env} {w w₁ w₂ : Worker}

-- No rejection is counted between the two states.
def Accepts (w w' : Worker) : Prop :=
  ∃ ms, w'.metrics = w.metrics ++ ms ∧ ∀ m ∈ ms, m.isRejection = false

def Rejects (w w' : Worker) : Prop :=
  ∃ ms, w'.metrics = w.metrics ++ ms ∧ ∃ m ∈ ms, m.isRejection = true

theorem Accepts.refl : Accepts w w :=
  ⟨[], by simp, by simp⟩

theorem Accepts.trans (h₁ : Accepts w w₁) (h₂ : Accepts w₁ w₂) : Accepts w w₂ := by
  have ⟨ms₁, e₁, a₁⟩ := h₁
  have ⟨ms₂, e₂, a₂⟩ := h₂
  refine ⟨ms₁ ++ ms₂, by rw [e₂, e₁, List.append_assoc], fun m hm => ?_⟩
  exact (List.mem_append.mp hm).elim (a₁ m) (a₂ m)

theorem Accepts.rejects (h₁ : Accepts w w₁) (h₂ : Rejects w₁ w₂) : Rejects w w₂ := by
  have ⟨ms₁, e₁, _⟩ := h₁
  have ⟨ms₂, e₂, m, hm, hr⟩ := h₂
  exact ⟨ms₁ ++ ms₂, by rw [e₂, e₁, List.append_assoc], m, List.mem_append_right _ hm, hr⟩

theorem Rejects.accepts (h₁ : Rejects w w₁) (h₂ : Accepts w₁ w₂) : Rejects w w₂ := by
  have ⟨ms₁, e₁, m, hm, hr⟩ := h₁
  have ⟨ms₂, e₂, _⟩ := h₂
  exact ⟨ms₁ ++ ms₂, by rw [e₂, e₁, List.append_assoc], m, List.mem_append_left _ hm, hr⟩

theorem Accepts.not_rejects (h : Accepts w w₁) : ¬Rejects w w₁ := by
  intro ⟨ms', e', m, hm, hr⟩
  have ⟨ms, e, ha⟩ := h
  have hms : ms' = ms := List.append_cancel_left (e'.symm.trans e)
  rw [ha m (hms ▸ hm)] at hr
  cases hr

theorem accepts_count {m : Metric} (h : m.isRejection = false) : Accepts w (w.count m) :=
  ⟨[m], rfl, by simpa using h⟩

theorem rejects_count {m : Metric} (h : m.isRejection = true) : Rejects w (w.count m) :=
  ⟨[m], rfl, m, List.mem_singleton.mpr rfl, h⟩

theorem accepts_completed (c : Class) :
    Accepts w ((w.count .reassemblyCompleted).count (.received c)) :=
  (accepts_count rfl).trans (accepts_count rfl)

theorem accepts_of_metrics (h : w₁.metrics = w.metrics) : Accepts w w₁ :=
  ⟨[], by simpa using h, by simp⟩

theorem Quiet.accepts (h : Quiet w w₁) : Accepts w w₁ :=
  accepts_of_metrics h.2

theorem accepts_claim {key : Bytes32} : Accepts w (w.claim cfg env key).2 := by
  unfold claim
  split
  case isTrue =>
    split
    case h_1 => exact .refl
    case h_2 => exact accepts_count rfl
    case h_3 => exact accepts_count rfl
  case isFalse => exact .refl

theorem accepts_suppress {key : Dedup.Key} : Accepts w (w.suppress env key).2 := by
  unfold suppress
  split
  case h_1 => exact .refl
  case h_2 =>
    split
    case isTrue => exact .refl
    case isFalse =>
      dsimp only
      split
      case isTrue  => exact ⟨[.deduped], rfl, by simp [Metric.isRejection]⟩
      case isFalse => exact ⟨[], by simp, by simp⟩

theorem filter_not_rejection {filt : Filter} {g : GroupIdx} {f : Frame} {reason : DropReason}
    (h : filt.deny g f = some reason) : (Metric.dropped reason).isRejection = false := by
  unfold Filter.deny at h
  split at h
  case isTrue => cases h; rfl
  case isFalse =>
    split at h
    case isTrue => cases h; rfl
    case isFalse =>
      split at h
      case isTrue =>
        split at h
        case isTrue  => cases h
        case isFalse => cases h; rfl
      case isFalse => cases h

theorem election_not_rejection {f : BEEFFrame} {reason : DropReason}
    (h : beefElection wire cfg f = some reason) : (Metric.dropped reason).isRejection = false := by
  unfold beefElection at h
  split at h
  case isTrue => cases h; rfl
  case isFalse =>
    split at h
    case isTrue =>
      split at h
      case h_1 => cases h; rfl
      case h_2 =>
        split at h
        case isTrue  => cases h
        case isFalse => cases h; rfl
    case isFalse => cases h

theorem gate_not_rejection {f : BlockFrame} {reason : DropReason}
    (h : blockGate wire cfg f = some reason) : (Metric.dropped reason).isRejection = false := by
  unfold blockGate at h
  split at h
  case isTrue => cases h
  case isFalse =>
    split at h
    case isTrue =>
      split at h
      case isTrue  => cases h; rfl
      case isFalse => cases h
    case isFalse =>
      split at h
      case isTrue  => cases h; rfl
      case isFalse => cases h

theorem metrics_emitBlockHeader {f : BlockFrame} :
    (w.emitBlockHeader wire cfg f).metrics = w.metrics := by
  rw [emitBlockHeader_eq]

theorem accepts_sendBlock {raw : Bytes} {f : BlockFrame} :
    Accepts w (w.sendBlock wire cfg env raw f) := by
  refine accepts_of_metrics ?_
  simp only [sendBlock, observeFrom]
  split
  case isTrue  => rfl
  case isFalse => exact metrics_emitBlockHeader

theorem accepts_deliverTx {raw : Bytes} {f : Frame} : Accepts w (w.deliverTx cfg env raw f) := by
  have hd (g : GroupIdx) : Accepts w (w.dedupFrame cfg env f g).2 := by
    unfold dedupFrame
    split
    case isTrue =>
      dsimp only
      split
      case isTrue  => exact accepts_claim
      case isFalse => exact accepts_claim.trans accepts_suppress
    case isFalse => exact .refl
  simp only [deliverTx]
  split
  case h_1 reason hr => exact accepts_count (filter_not_rejection hr)
  case h_2 =>
    refine (hd (cfg.engine.groupIndex f.txID)).trans (accepts_of_metrics ?_)
    split
    case isTrue  => split <;> [exact quiet_forward.2; rfl]
    case isFalse => split <;> [exact quiet_forward.2; rfl]

theorem accepts_deliverBundle {b : Bundle} {raw : Option Bytes} {track : Bool} :
    Accepts w (w.deliverBundle wire cfg env b raw track) := by
  have hc : Accepts w (if b.seqNum = 0 then (true, w) else w.claim cfg env (bundleID b)).2 := by
    split
    case isTrue  => exact .refl
    case isFalse => exact accepts_claim
  simp only [deliverBundle]
  split
  case h_1 reason hr => exact accepts_count (filter_not_rejection hr)
  case h_2 =>
    generalize (if b.seqNum = 0 then (true, w) else w.claim cfg env (bundleID b)) = c at hc ⊢
    split
    case isTrue => exact hc.trans quiet_observeFrom.accepts
    case isFalse =>
      split
      case isTrue  => exact hc.trans (accepts_suppress.trans quiet_observeFrom.accepts)
      case isFalse =>
        exact hc.trans (accepts_suppress.trans (quiet_observeFrom.trans quiet_sendBundle).accepts)

theorem accepts_deliverBundles {bs : List Bundle} :
    Accepts w (bs.foldl (fun w b => w.deliverBundle wire cfg env b none false) w) := by
  induction bs generalizing w
  case nil          => exact .refl
  case cons b bs hi => exact accepts_deliverBundle.trans hi

-- Why a BEEF object is rejected.
def BeefFaulty (wire : Wire) (cfg : Settings) (f : BEEFFrame) : Prop :=
  cfg.beefEngine = none ∨ (cfg.beefVerifyContent ∧ wire.sha256d f.payload ≠ f.contentID)

instance {f : BEEFFrame} : Decidable (BeefFaulty wire cfg f) :=
  inferInstanceAs (Decidable (_ ∨ _))

theorem rejects_deliverBeef {raw : Bytes} {f : BEEFFrame} (hf : BeefFaulty wire cfg f) :
    Rejects w (w.deliverBeef wire cfg env raw f) := by
  unfold deliverBeef
  split
  case h_1 => exact rejects_count rfl
  case h_2 engine he =>
    have hc := hf.resolve_left (by simp [he])
    dsimp only
    rw [if_pos hc]
    exact (accepts_count rfl).rejects (rejects_count rfl)

theorem accepts_deliverBeef {raw : Bytes} {f : BEEFFrame} (hf : ¬BeefFaulty wire cfg f) :
    Accepts w (w.deliverBeef wire cfg env raw f) := by
  have ⟨he, hc⟩ := not_or.mp hf
  have hr : Accepts w (w.count (.received .brc148)) := accepts_count rfl
  unfold deliverBeef
  split
  case h_1 hn => exact absurd hn he
  case h_2 =>
    dsimp only
    rw [if_neg hc]
    split
    case h_1 reason hel => exact hr.trans (accepts_count (election_not_rejection hel))
    case h_2 =>
      split
      case isTrue => exact hr.trans (accepts_claim.trans (accepts_of_metrics rfl))
      case isFalse =>
        split
        case isTrue =>
          exact hr.trans (accepts_claim.trans (accepts_suppress.trans (accepts_of_metrics rfl)))
        case isFalse =>
          exact hr.trans (accepts_claim.trans (accepts_suppress.trans (accepts_of_metrics rfl)))

open Reassembly

-- Why the callback of a completed object rejects it. The other classes have no such checks.
def DeliveryFaulty (wire : Wire) (cfg : Settings) : Delivery → Prop
  | .beef f =>
    (wire.encodeBEEF f (Slot.whole wire.toFormats f.payload)).isSome ∧ BeefFaulty wire cfg f
  | _ => False

theorem rejects_deliver {d : Delivery} {i : Instant} {tracked : Bool}
    (hf : DeliveryFaulty wire cfg d) :
    Rejects w ((hooks wire cfg env tracked).deliver wire.toFormats i d w) := by
  cases d
  case beef f =>
    have ⟨raw, he⟩ := Option.isSome_iff_exists.mp hf.1
    simp only [Hooks.deliver, hooks, deliverReassembledBeefFrame, he]
    exact (accepts_count rfl).rejects (rejects_deliverBeef hf.2)
  all_goals exact hf.elim

theorem accepts_deliver {d : Delivery} {i : Instant} {tracked : Bool}
    (hf : ¬DeliveryFaulty wire cfg d) :
    Accepts w ((hooks wire cfg env tracked).deliver wire.toFormats i d w) := by
  cases d
  case tx f =>
    simp only [Hooks.deliver, hooks, deliverReassembled]
    split
    case h_1 reason hr => exact (accepts_count rfl).trans (accepts_count (filter_not_rejection hr))
    case h_2 =>
      refine (accepts_completed .brc130).trans ?_
      split
      case isTrue => exact accepts_claim.trans (accepts_of_metrics rfl)
      case isFalse =>
        split
        case h_1 => exact accepts_claim
        case h_2 => exact accepts_claim.trans (quiet_forward.accepts.trans (accepts_of_metrics rfl))
  case block f =>
    simp only [Hooks.deliver, hooks, deliverReassembledBlock]
    split
    case h_1 => exact accepts_count rfl
    case h_2 =>
      refine (accepts_completed .brc131Reassembled).trans ?_
      split
      case h_1 reason hr => exact accepts_count (gate_not_rejection hr)
      case h_2           => exact accepts_sendBlock
  case subtreeData f =>
    simp only [Hooks.deliver, hooks, deliverReassembledSubtreeData]
    split
    case h_1 => exact accepts_count rfl
    case h_2 => exact (accepts_completed _).trans (accepts_of_metrics rfl)
  case beef f =>
    simp only [Hooks.deliver, hooks, deliverReassembledBeefFrame]
    split
    case h_1 => exact accepts_count rfl
    case h_2 raw he =>
      refine (accepts_count rfl).trans (accepts_deliverBeef fun hb => hf ⟨?_, hb⟩)
      rw [he]
      rfl

-- Why an object is rejected when its last fragment comes.
def SlotFaulty (wire : Wire) (cfg : Settings) (s : Slot) : Prop :=
  let payload := s.payload.getD s.assembled
  (cfg.reassembly.verifyHash ∧ ¬verified wire.toFormats s.origFrameVer s.txID payload) ∨
    DeliveryFaulty wire cfg (s.delivery payload)

variable {tracked : Bool} {i : Instant} {p : Buffer × Worker} {s : Slot} {ff : FragFrame}

theorem complete_late : Accepts p.2
    (if s.extended then (hooks wire cfg env tracked).metric .lateDone p.2 else p.2) := by
  split
  case isTrue  => exact accepts_count rfl
  case isFalse => exact .refl

theorem rejects_complete (hf : SlotFaulty wire cfg s) :
    Rejects p.2
      (Buffer.complete wire.toFormats cfg.reassembly (hooks wire cfg env tracked) i p s).2 := by
  simp only [Buffer.complete]
  split
  case isTrue    => exact complete_late.rejects (rejects_count rfl)
  case isFalse h => exact complete_late.rejects (rejects_deliver (hf.resolve_left h))

theorem accepts_complete (hf : ¬SlotFaulty wire cfg s) :
    Accepts p.2
      (Buffer.complete wire.toFormats cfg.reassembly (hooks wire cfg env tracked) i p s).2 := by
  have ⟨hv, hd⟩ := not_or.mp hf
  simp only [Buffer.complete]
  rw [if_neg hv]
  exact complete_late.trans (accepts_deliver hd)

theorem accepts_metric (m : Reassembly.Metric) (hm : m ≠ .hashMismatch) (h : Accepts w w₁) :
    Accepts w ((hooks wire cfg env tracked).metric m w₁) := by
  refine h.trans (accepts_count ?_)
  cases m
  case hashMismatch => exact absurd rfl hm
  all_goals rfl

theorem spares_accepts : (hooks wire cfg env tracked).Spares (Accepts w) where
  metric m _ hm h      := accepts_metric m hm h
  onIncomplete _ _ _ h := h.trans (accepts_of_metrics rfl)

-- The verdict on what has been processed: it is rejected just when `φ` holds.
def Judged (φ : Prop) (w w' : Worker) : Prop :=
  (φ → Rejects w w') ∧ (¬φ → Accepts w w')

theorem Judged.rejects_iff {φ : Prop} (h : Judged φ w w₁) : Rejects w w₁ ↔ φ := by
  refine ⟨fun hr => ?_, h.1⟩
  by_contra hn
  exact (h.2 hn).not_rejects hr

theorem judged_of_rejects {φ : Prop} (hφ : φ) (h : Rejects w w₁) : Judged φ w w₁ :=
  ⟨fun _ => h, fun hn => absurd hφ hn⟩

theorem judged_of_accepts {φ : Prop} (hφ : ¬φ) (h : Accepts w w₁) : Judged φ w w₁ :=
  ⟨fun hp => absurd hp hφ, fun _ => h⟩

theorem judged_observe {b : Buffer} :
    Judged
      (∃ s ∈ Buffer.completing wire.toFormats cfg.reassembly (hooks wire cfg env tracked) i
        (Buffer.sweepIfDue cfg.reassembly (hooks wire cfg env tracked) i (b, w)).1 ff,
        SlotFaulty wire cfg s)
      w
        (Buffer.observe wire.toFormats cfg.reassembly (hooks wire cfg env tracked)
        i (b, w) ff).2 := by
  have hm (m : Reassembly.Metric) (w₁ : Worker) (hne : m ≠ .hashMismatch) (ha : Accepts w w₁) :
      Accepts w ((hooks wire cfg env tracked).metric m w₁) := accepts_metric m hne ha
  have hsw : Accepts w
      (Buffer.sweepIfDue cfg.reassembly (hooks wire cfg env tracked) i (b, w)).2 :=
    spares_accepts.sweepIfDue (p := (b, w)) .refl
  unfold Buffer.observe
  cases hc : Buffer.completing wire.toFormats cfg.reassembly (hooks wire cfg env tracked) i
    (Buffer.sweepIfDue cfg.reassembly (hooks wire cfg env tracked) i (b, w)).1 ff
  case none => exact judged_of_accepts (by simp) (Buffer.gather_not_completing hm hc hsw)
  case some s =>
    have ⟨p', e, hp'⟩ := Buffer.gather_completing hm hc hsw
    rw [e]
    by_cases hf : SlotFaulty wire cfg s
    case pos => exact judged_of_rejects ⟨s, rfl, hf⟩ (hp'.rejects (rejects_complete hf))
    case neg =>
      refine judged_of_accepts (fun ⟨s', hs, hf'⟩ => ?_) (hp'.trans (accepts_complete hf))
      cases hs
      exact hf hf'

variable {raw : Bytes}

theorem judged_processBlockFrame :
    Judged (wire.decodeBlock raw = none) w (w.processBlockFrame wire cfg env raw).2 := by
  unfold processBlockFrame
  split
  case h_1 hd => exact judged_of_rejects hd (rejects_count rfl)
  case h_2 f hd =>
    refine judged_of_accepts (by simp [hd]) ?_
    dsimp only
    split
    case h_1 reason hr => exact (accepts_count rfl).trans (accepts_count (gate_not_rejection hr))
    case h_2           => exact (accepts_count rfl).trans accepts_sendBlock

theorem judged_processSubtreeDataFrame :
    Judged (wire.decodeSubtreeData raw = none) w (w.processSubtreeDataFrame wire cfg env raw) := by
  unfold processSubtreeDataFrame
  split
  case h_1 hd => exact judged_of_rejects hd (rejects_count rfl)
  case h_2 f hd =>
    exact judged_of_accepts (by simp [hd]) ((accepts_count rfl).trans (accepts_of_metrics rfl))

theorem judged_processAnchorFrame :
    Judged (wire.decodeAnchor raw = none) w (w.processAnchorFrame wire cfg env raw) := by
  unfold processAnchorFrame
  split
  case h_1 hd => exact judged_of_rejects hd (rejects_count rfl)
  case h_2 f hd =>
    refine judged_of_accepts (by simp [hd]) ?_
    have hc : Accepts w ((w.count (.received .brc134)).claim cfg env f.txID).2 :=
      (accepts_count rfl).trans accepts_claim
    refine hc.trans (accepts_of_metrics ?_)
    dsimp only [observeFrom]
    split
    case isTrue  => rfl
    case isFalse => rfl

theorem judged_processBundle :
    Judged (wire.decodeBundle raw = none) w (w.processBundle wire cfg env raw) := by
  unfold processBundle
  split
  case h_1 hd => exact judged_of_rejects hd (rejects_count rfl)
  case h_2 b hd =>
    refine judged_of_accepts (by simp [hd]) ?_
    have hr : Accepts w (w.count (.received .brc142)) := accepts_count rfl
    dsimp only
    split
    case isTrue =>
      have hb : Accepts w ({ w.count (.received .brc142) with
          rebucketed := w.rebucketed ++ [b] }.count .bundleRebucketed) :=
        hr.trans ⟨[.bundleRebucketed], rfl, by simp [Metric.isRejection]⟩
      split
      case isTrue => exact hb.trans (accepts_deliverBundles.trans (accepts_of_metrics rfl))
      case isFalse =>
        have hu := hb.trans (accepts_count (m := .rebucketUnguarded) rfl)
        exact hu.trans (accepts_deliverBundles.trans (accepts_of_metrics rfl))
    case isFalse => exact hr.trans accepts_deliverBundle

-- Why a datagram of the BEEF plane is rejected.
def BeefFrameFaulty (wire : Wire) (cfg : Settings) (raw : Bytes) : Prop :=
  match wire.decodeBEEF raw with
  | none   => True
  | some f => BeefFaulty wire cfg f

theorem judged_processBeefFrame :
    Judged (BeefFrameFaulty wire cfg raw) w (w.processBeefFrame wire cfg env raw) := by
  cases hd : wire.decodeBEEF raw
  all_goals simp only [processBeefFrame, BeefFrameFaulty, hd]
  case none => exact judged_of_rejects trivial (rejects_count rfl)
  case some => exact ⟨rejects_deliverBeef, accepts_deliverBeef⟩

-- The payload of a stamped transaction frame is not the transaction that the frame names.
def Unverified (wire : Wire) (cfg : Settings) (f : Frame) : Prop :=
  (cfg.verifyPayloadHash ∧ f.version = FrameVer.v2) ∧ wire.payloadTxID f.payload ≠ some f.txID

instance {f : Frame} : Decidable (Unverified wire cfg f) :=
  inferInstanceAs (Decidable ((_ ∧ _) ∧ _))

theorem verifyFrame_of_unverified {f : Frame} (h : Unverified wire cfg f) :
    ∃ m, m.isRejection = true ∧ ∀ w, verifyFrame wire cfg w f = some (w.count m) := by
  simp only [verifyFrame, if_pos h.1]
  cases hid : wire.payloadTxID f.payload
  case none => exact ⟨.dropped .payloadNotOneTx, rfl, fun _ => rfl⟩
  case some id =>
    have hne : id ≠ f.txID := fun e => h.2 (hid.trans (congrArg some e))
    exact ⟨.invalidPayload, rfl, fun w => if_pos hne⟩

theorem verifyFrame_of_verified {f : Frame} (h : ¬Unverified wire cfg f) :
    w.verifyFrame wire cfg f = none := by
  unfold verifyFrame
  split
  case isFalse => rfl
  case isTrue hon =>
    have hid : wire.payloadTxID f.payload = some f.txID := not_not.mp fun hne => h ⟨hon, hne⟩
    simp [hid]

-- Why a transaction datagram is rejected.
def TxFrameFaulty (wire : Wire) (cfg : Settings) (raw : Bytes) : Prop :=
  match wire.decode raw with
  | none   => True
  | some f => Unverified wire cfg f

theorem judged_processTxFrame :
    Judged (TxFrameFaulty wire cfg raw) w (w.processTxFrame wire cfg env raw) := by
  cases hd : wire.decode raw
  all_goals simp only [processTxFrame, TxFrameFaulty, hd]
  case none => exact judged_of_rejects trivial (rejects_count rfl)
  case some f =>
    by_cases hf : Unverified wire cfg f
    case pos =>
      have ⟨m, hm, e⟩ := verifyFrame_of_unverified hf
      rw [e]
      exact judged_of_rejects hf ((accepts_count rfl).rejects (rejects_count hm))
    case neg =>
      rw [verifyFrame_of_verified hf]
      exact judged_of_accepts hf ((accepts_count rfl).trans accepts_deliverTx)

end Worker

-- The HashKey and the SeqNum of a datagram, by the decoder that `processFrame` has for it.
def Wire.stamp (wire : Wire) (raw : Bytes) : Option (HashKey × SeqNum) :=
  if wire.isBlockFrame raw then (wire.decodeBlock raw).map fun f => (f.hashKey, f.seqNum)
  else if wire.isSubtreeDataFrame raw then
    (wire.decodeSubtreeData raw).map fun f => (f.hashKey, f.seqNum)
  else if wire.isAnchorFrame raw then (wire.decodeAnchor raw).map fun f => (f.hashKey, f.seqNum)
  else if wire.isFragment raw then (wire.decodeFragment raw).map fun ff => (ff.hashKey, ff.seqNum)
  else if wire.isBundle raw then (wire.decodeBundle raw).map fun b => (b.hashKey, b.seqNum)
  else if wire.isBEEFFrame raw then (wire.decodeBEEF raw).map fun f => (f.hashKey, f.seqNum)
  else (wire.decode raw).map fun f => (f.hashKey, f.seqNum)

namespace Node

open Worker Reassembly

variable (wire : Wire) (cfg : Settings) (env : Env) (n : Node) (raw : Bytes)

-- The object that a fragment completes, in the buffer as the sweep of the same call leaves it.
def completes (ff : FragFrame) : Option Slot :=
  n.buffer.bind fun b =>
    let h := hooks wire cfg env n.worker.tracker.isSome
    Buffer.completing wire.toFormats cfg.reassembly h env.instant
      (Buffer.sweepIfDue cfg.reassembly h env.instant (b, n.worker)).1 ff

def FragmentFaulty : Prop :=
  n.buffer = none ∨
    match wire.decodeFragment raw with
    | none    => True
    | some ff => ∃ s ∈ n.completes wire cfg env ff, SlotFaulty wire cfg s

-- Why a datagram is rejected, in the order of the dispatcher.
def Faulty : Prop :=
  if wire.isBlockFrame raw then wire.decodeBlock raw = none
  else if wire.isSubtreeDataFrame raw then wire.decodeSubtreeData raw = none
  else if wire.isAnchorFrame raw then wire.decodeAnchor raw = none
  else if wire.isFragment raw then n.FragmentFaulty wire cfg env raw
  else if wire.isBundle raw then wire.decodeBundle raw = none
  else if wire.isBEEFFrame raw then BeefFrameFaulty wire cfg raw
  else TxFrameFaulty wire cfg raw

-- Block control frames are the ones whose rejection the caller is told.
def BlockRejected : Prop :=
  wire.isBlockFrame raw ∧ ∀ f ∈ wire.decodeBlock raw, blockGate wire cfg f ≠ none

variable {wire cfg env n raw}

theorem judged_processFragment :
    Judged (n.FragmentFaulty wire cfg env raw) n.worker
      (n.processFragment wire cfg env raw).worker := by
  cases hb : n.buffer
  case none =>
    simp only [processFragment, hb]
    exact judged_of_rejects (.inl hb) (rejects_count rfl)
  case some b =>
    cases hd : wire.decodeFragment raw
    all_goals simp only [processFragment, FragmentFaulty, hb, hd]
    case none => exact judged_of_rejects (.inr trivial) (rejects_count rfl)
    case some ff =>
      have hj : Judged (∃ s ∈ n.completes wire cfg env ff, SlotFaulty wire cfg s) n.worker
          (Buffer.observe wire.toFormats cfg.reassembly (hooks wire cfg env n.worker.tracker.isSome)
            env.instant (b, n.worker) ff).2 := by
        simp only [completes, hb, Option.bind_some]
        exact judged_observe
      -- The gap tracking after the buffer's work makes no call on the recorder.
      refine ⟨fun hf => (hj.1 (hf.resolve_left (by simp))).accepts (accepts_of_metrics rfl),
        fun hf => ?_⟩
      exact (hj.2 (not_or.mp hf).2).trans (accepts_of_metrics rfl)

theorem judged_processFrame :
    Judged (n.Faulty wire cfg env raw) n.worker (n.processFrame wire cfg env raw).2.worker := by
  simp only [Faulty, processFrame, Wire.dispatch]
  cases wire.kind raw
  case block       => exact judged_processBlockFrame
  case subtreeData => exact judged_processSubtreeDataFrame
  case anchor      => exact judged_processAnchorFrame
  case fragment    => exact judged_processFragment
  case bundle      => exact judged_processBundle
  case beef        => exact judged_processBeefFrame
  case tx          => exact judged_processTxFrame

theorem processFrame_accepted :
    (n.processFrame wire cfg env raw).1 = true ↔ ¬BlockRejected wire cfg raw := by
  rw [BlockRejected, processFrame, Wire.dispatch, ← Wire.kind_eq_block]
  cases wire.kind raw
  case block =>
    cases hd : wire.decodeBlock raw
    case none => simp [Wire.Kind.pick, processBlockFrame, hd]
    case some f =>
      cases hg : blockGate wire cfg f
      case none        => simp [Wire.Kind.pick, processBlockFrame, hd, hg]
      case some reason => simp [Wire.Kind.pick, processBlockFrame, hd, hg]
  all_goals exact iff_of_true rfl (by simp)

-- The NACK socket of a gap, at any turn of the loop that drains it: `raw` is the next datagram.
section

variable (wire : Wire) (cfg : Settings) (env : Env) (n : Node)
variable (e : Nack.GapEntry) (numEndpoints : Nat) (deadline now : Time) (unicastACK : Bool)
variable (raw : Bytes) (ds : List (Time × Bytes))

def drain : Nack.Completion × Node :=
  Nack.drain (some fun raw n => n.reinject wire cfg env raw) e numEndpoints deadline unicastACK n
    ((now, raw) :: ds)

-- A gap that is cancelled by a data frame has been repaired: the frame is the one that is missing,
-- and it has not been rejected.
def NoFalseRepair : Prop :=
  Nack.isRetransmit raw →
    (n.drain wire cfg env e numEndpoints deadline now unicastACK raw ds).1 = .cancel →
      wire.stamp raw = some (e.hashKey, e.seqNum) ∧
        ¬Rejects n.worker
          (n.drain wire cfg env e numEndpoints deadline now unicastACK raw ds).2.worker

end

variable {e : Nack.GapEntry} {numEndpoints : Nat} {deadline now : Time} {unicastACK : Bool}
variable {ds : List (Time × Bytes)}

theorem drain_retransmit (ht : now ≤ deadline) (hr : Nack.isRetransmit raw) :
    n.drain wire cfg env e numEndpoints deadline now unicastACK raw ds =
      let r := n.reinject wire cfg env raw
      (if r.1 then .cancel else .abandon .rejected, r.2) := by
  simp only [drain, Nack.drain, if_neg (not_lt.mpr ht), hr, decide_true]

theorem drain_cancels_iff (ht : now ≤ deadline) (hr : Nack.isRetransmit raw) :
    (n.drain wire cfg env e numEndpoints deadline now unicastACK raw ds).1 = .cancel ↔
      ¬BlockRejected wire cfg raw := by
  have ha : (n.reinject wire cfg env raw).1 = true ↔ ¬BlockRejected wire cfg raw :=
    processFrame_accepted
  rw [drain_retransmit ht hr, ← ha]
  dsimp only
  split
  case isTrue h  => simp [h]
  case isFalse h => simp [h]

theorem drain_rejects_iff (ht : now ≤ deadline) (hr : Nack.isRetransmit raw) :
    Rejects n.worker (n.drain wire cfg env e numEndpoints deadline now unicastACK raw ds).2.worker ↔
      n.Faulty wire cfg { env with source := none } raw := by
  rw [drain_retransmit ht hr]
  exact judged_processFrame.rejects_iff

theorem noFalseRepair_iff_not_faulty (ht : now ≤ deadline) :
    n.NoFalseRepair wire cfg env e numEndpoints deadline now unicastACK raw ds ↔
      ¬Nack.isRetransmit raw ∨ BlockRejected wire cfg raw ∨
        (wire.stamp raw = some (e.hashKey, e.seqNum) ∧
          ¬n.Faulty wire cfg { env with source := none } raw) := by
  unfold NoFalseRepair
  by_cases hr : Nack.isRetransmit raw
  case neg => exact iff_of_true (fun h => absurd h hr) (.inl hr)
  case pos =>
    rw [drain_cancels_iff ht hr, drain_rejects_iff ht hr]
    by_cases hb : BlockRejected wire cfg raw
    case pos => exact iff_of_true (fun _ h => absurd hb h) (.inr (.inl hb))
    case neg => simp only [hr, hb, not_true_eq_false, not_false_eq_true, true_implies, false_or]

-- 64 bytes with the magic of the protocol, and nothing else in them.
def magicOnly : Bytes :=
  [0xE3, 0xE1, 0xF3, 0xE8] ++ List.replicate 60 0

-- A gap of the flow 7 at SeqNum 2.
def missingTwo : Nack.GapEntry where
  hashKey     := 7
  seqNum      := 2
  groupIdx    := 0
  subtreeID   := .zero
  source      := none
  nextAttempt := 0
  deadline    := Time.ms 10000
  owner       := 0

-- A node without a reassembly buffer, and with a new tracker.
def bare : Node where
  buffer := none
  worker := { tracker := some {} }

-- A wire on which every datagram is an unfragmented transaction of the flow 7, at SeqNum 2.
def stampedWire : Wire :=
  { Wire.blank with decode := fun _ => some ⟨FrameVer.v2, .zero, 7, 2, .zero, [1]⟩ }

theorem noFalseRepair_stamped :
    bare.NoFalseRepair stampedWire Settings.blank Env.blank missingTwo 1 300 100
      false magicOnly [] := by
  refine (noFalseRepair_iff_not_faulty (by decide)).mpr (.inr (.inr ⟨rfl, ?_⟩))
  intro h
  exact absurd h.1.1 (by decide)

-- No decoder knows the bytes: `processFrame` counts a decode error and returns true.
theorem magicOnly_falseRepair :
    ¬bare.NoFalseRepair Wire.blank Settings.blank Env.blank missingTwo 1 300 100
      false magicOnly [] := by
  intro h
  have ⟨hs, _⟩ := h (by decide) (by decide)
  cases hs

end Node
