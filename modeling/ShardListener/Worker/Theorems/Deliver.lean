import ShardListener.Reassembly.Theorems.Slot
import ShardListener.Worker.Process

namespace Wire

-- The classes of datagrams.
inductive Kind
  | block | subtreeData | anchor | fragment | bundle | beef | tx
deriving DecidableEq

def Kind.pick {α : Sort*} (block subtreeData anchor fragment bundle beef tx : α) : Kind → α
  | .block       => block
  | .subtreeData => subtreeData
  | .anchor      => anchor
  | .fragment    => fragment
  | .bundle      => bundle
  | .beef        => beef
  | .tx          => tx

variable {wire : Wire} {raw : Bytes}

-- The class of a datagram is the first one whose test it passes.
def kind (wire : Wire) (raw : Bytes) : Kind :=
  if wire.isBlockFrame raw then .block
  else if wire.isSubtreeDataFrame raw then .subtreeData
  else if wire.isAnchorFrame raw then .anchor
  else if wire.isFragment raw then .fragment
  else if wire.isBundle raw then .bundle
  else if wire.isBEEFFrame raw then .beef
  else .tx

-- What is defined by the tests is defined by the class.
theorem dispatch {α : Sort*} {block subtreeData anchor fragment bundle beef tx : α} :
    (if wire.isBlockFrame raw then block
      else if wire.isSubtreeDataFrame raw then subtreeData
      else if wire.isAnchorFrame raw then anchor
      else if wire.isFragment raw then fragment
      else if wire.isBundle raw then bundle
      else if wire.isBEEFFrame raw then beef
      else tx) = (wire.kind raw).pick block subtreeData anchor fragment bundle beef tx := by
  simp only [kind, apply_ite (Kind.pick block subtreeData anchor fragment bundle beef tx)]
  rfl

theorem kind_eq_block : wire.kind raw = .block ↔ wire.isBlockFrame raw := by
  simp only [kind]
  split
  case isTrue h => exact iff_of_true rfl h
  case isFalse h =>
    refine iff_of_false ?_ h
    repeat' split
    all_goals exact nofun

end Wire

-- The object is of the BEEF plane.
def Reassembly.Delivery.isBeef : Reassembly.Delivery → Bool
  | .beef _ => true
  | _       => false

namespace Worker

variable {wire : Wire} {cfg : Settings} {env : Env} {w : Worker}

-- Which of the worker's parts the steps of a delivery touch.

@[simp]
theorem tracker_count {m : Metric} : (w.count m).tracker = w.tracker :=
  rfl

@[simp]
theorem tracker_drop {r : DropReason} : (w.drop r).tracker = w.tracker :=
  rfl

@[simp]
theorem tracker_emit {e : Egress} : (w.emit e).tracker = w.tracker :=
  rfl

@[simp]
theorem tracker_claim {key : Bytes32} : (w.claim cfg env key).2.tracker = w.tracker := by
  unfold claim
  split
  case isTrue  => split <;> rfl
  case isFalse => rfl

@[simp]
theorem tracker_suppress {key : Dedup.Key} : (w.suppress env key).2.tracker = w.tracker := by
  unfold suppress
  split
  case h_1 => rfl
  case h_2 =>
    split
    case isTrue => rfl
    case isFalse => dsimp only; split <;> rfl

@[simp]
theorem tracker_forward {raw : Bytes} {f : Frame} {g : GroupIdx} :
    (w.forward cfg raw f g).tracker = w.tracker := by
  simp only [forward]
  split <;> rfl

theorem foldl_header {lanes : List HeaderLane} {buf : Bytes} :
    lanes.foldl (fun w lane => w.emit (.header lane buf)) w =
      { w with egress := w.egress ++ lanes.map (.header · buf) } := by
  induction lanes generalizing w
  case nil => simp
  case cons lane ls hi =>
    rw [List.foldl_cons, hi]
    simp [emit]

theorem emitBlockHeader_eq {f : BlockFrame} :
    w.emitBlockHeader wire cfg f =
      { w with
        headerSeqNum := (w.emitBlockHeader wire cfg f).headerSeqNum
        egress       := (w.emitBlockHeader wire cfg f).egress } := by
  unfold emitBlockHeader
  split
  case isTrue => rfl
  case isFalse =>
    split
    case isTrue => rfl
    case isFalse =>
      dsimp only
      split
      case h_1 => rfl
      case h_2 => rw [foldl_header]

@[simp]
theorem tracker_emitBlockHeader {f : BlockFrame} :
    (w.emitBlockHeader wire cfg f).tracker = w.tracker := by
  rw [emitBlockHeader_eq]

-- The dedup stages when they are not configured.

theorem claim_of_no_store {key : Bytes32} (ht : cfg.txDedup = false) :
    w.claim cfg env key = (true, w) := by
  simp [claim, ht]

theorem suppress_of_no_set {key : Dedup.Key} (hs : w.dedupSet = none) :
    w.suppress env key = (false, w) := by
  simp [suppress, hs]

variable {w₁ w₂ : Worker}

-- Neither the dedup set nor the recorder is called.
def Quiet (w₁ w₂ : Worker) : Prop :=
  w₂.dedupSet = w₁.dedupSet ∧ w₂.metrics = w₁.metrics

theorem Quiet.refl : Quiet w w :=
  ⟨rfl, rfl⟩

theorem Quiet.trans (h₁ : Quiet w w₁) (h₂ : Quiet w₁ w₂) : Quiet w w₂ :=
  ⟨h₂.1.trans h₁.1, h₂.2.trans h₁.2⟩

theorem Quiet.ite {c : Prop} [Decidable c] (h : Quiet w w₁) : Quiet w (if c then w else w₁) := by
  split
  case isTrue  => exact .refl
  case isFalse => exact h

theorem quiet_forward {raw : Bytes} {f : Frame} {g : GroupIdx} :
    Quiet w (w.forward cfg raw f g) := by
  simp only [forward]
  split <;> exact .refl

theorem quiet_observeFrom {track : Bool} {g : GroupIdx} {subtreeID : Bytes32} {hashKey : HashKey}
    {seqNum : SeqNum} :
    Quiet w (if track then w.observeFrom cfg env g subtreeID hashKey seqNum else w) := by
  split <;> exact .refl

theorem quiet_sendMember {b : Bundle} {mf : Frame} : Quiet w (sendMember wire cfg b w mf) := by
  simp only [sendMember]
  split
  case h_1 => exact .refl
  case h_2 => split <;> split <;> exact .refl

theorem quiet_sendMembers {b : Bundle} {mfs : List Frame} :
    Quiet w (mfs.foldl (sendMember wire cfg b) w) := by
  induction mfs generalizing w
  case nil            => exact .refl
  case cons mf mfs hi => exact quiet_sendMember.trans hi

-- What `sendBundle` does with the bundle as a whole.
def passBundle (w : Worker) (wire : Wire) (cfg : Settings) (b : Bundle) (raw : Option Bytes) :
    Worker :=
  if cfg.bundleAware then
    match raw.or (wire.encodeBundle b) with
    | none     => w
    | some raw => w.emit (.sendBundle raw b)
  else w

theorem quiet_passBundle {b : Bundle} {raw : Option Bytes} :
    Quiet w (w.passBundle wire cfg b raw) := by
  simp only [passBundle]
  split
  case isTrue  => split <;> exact .refl
  case isFalse => exact .refl

theorem quiet_sendBundle {b : Bundle} {raw : Option Bytes} :
    Quiet w (w.sendBundle wire cfg b raw) := by
  simp only [sendBundle]
  split
  case isTrue  => exact quiet_passBundle.trans quiet_sendMembers
  case isFalse => exact quiet_passBundle

-- The tracker is left alone, or observes an arrival in `A`.
def Tracks (cfg : Settings) (env : Env) (A : Nack.Arrival → Prop) (w w' : Worker) : Prop :=
  w'.tracker = w.tracker ∨
    ∃ a, A a ∧ w'.tracker = w.tracker.map (·.observeFrom cfg.nack env.instant a)

-- How a delivery reports a frame: a BEEF frame under no worker and no subtree, every other one
-- under the id of the worker.
structure Reports (cfg : Settings) (env : Env) (beef : Bool) (hashKey : HashKey) (seqNum : SeqNum)
    (a : Nack.Arrival) : Prop where
  hashKey   : a.hashKey = hashKey
  seqNum    : a.seqNum = seqNum
  source    : a.source = env.source
  owner     : a.owner = if beef then Nack.ownerUnknown else cfg.id
  subtreeID : beef = true → a.subtreeID = .zero

-- The tracker is left alone, or observes the frame once.
def Observes (cfg : Settings) (env : Env) (hashKey : HashKey) (seqNum : SeqNum) (w w' : Worker) :
    Prop :=
  w'.tracker = w.tracker ∨
    ∃ a : Nack.Arrival, a.hashKey = hashKey ∧ a.seqNum = seqNum ∧ a.source = env.source ∧
      w'.tracker = w.tracker.map (·.observeFrom cfg.nack env.instant a)

variable {hashKey : HashKey} {seqNum : SeqNum} {beef : Bool}

theorem Tracks.observes (h : Tracks cfg env (Reports cfg env beef hashKey seqNum) w w₁) :
    Observes cfg env hashKey seqNum w w₁ := by
  rcases h with e | ⟨a, ha, e⟩
  case inl => exact .inl e
  case inr => exact .inr ⟨a, ha.hashKey, ha.seqNum, ha.source, e⟩

theorem tracks_observeFrom {groupIdx : GroupIdx} {subtreeID : Bytes32}
    (h : w₁.tracker = w.tracker) :
    Tracks cfg env (Reports cfg env false hashKey seqNum) w
      (w₁.observeFrom cfg env groupIdx subtreeID hashKey seqNum) := by
  refine .inr ⟨arrival cfg env groupIdx subtreeID hashKey seqNum, ⟨rfl, rfl, rfl, rfl, nofun⟩, ?_⟩
  rw [← h]
  rfl

theorem tracks_observeBeef {groupIdx : GroupIdx} {f : BEEFFrame} (h : w₁.tracker = w.tracker) :
    Tracks cfg env (Reports cfg env true f.hashKey f.seqNum) w
      (w₁.observeBeef cfg env groupIdx f) := by
  let a := arrival cfg env groupIdx .zero f.hashKey f.seqNum
  refine .inr ⟨{ a with owner := Nack.ownerUnknown }, ⟨rfl, rfl, rfl, rfl, fun _ => rfl⟩, ?_⟩
  rw [← h]
  rfl

theorem tracks_sendBlock {raw : Bytes} {f : BlockFrame} (h : w₁.tracker = w.tracker) :
    Tracks cfg env (Reports cfg env false f.hashKey f.seqNum) w
      (w₁.sendBlock wire cfg env raw f) := by
  refine tracks_observeFrom ?_
  split
  case isTrue  => exact h
  case isFalse => rw [tracker_emitBlockHeader]; exact h

theorem tracks_deliverBeef {raw : Bytes} {f : BEEFFrame} (h : w₁.tracker = w.tracker) :
    Tracks cfg env (Reports cfg env true f.hashKey f.seqNum) w
      (w₁.deliverBeef wire cfg env raw f) := by
  unfold deliverBeef
  split
  case h_1 => exact .inl h
  case h_2 =>
    dsimp only
    split
    case isTrue => exact .inl h
    case isFalse =>
      split
      case h_1 => exact .inl h
      case h_2 =>
        split
        case isTrue => exact tracks_observeBeef (by simpa using h)
        case isFalse =>
          split
          case isTrue  => exact tracks_observeBeef (by simpa using h)
          case isFalse => exact tracks_observeBeef (by simpa using h)

theorem tracks_deliverReassembled {f : Frame} :
    Tracks cfg env (Reports cfg env false f.hashKey f.seqNum) w
      (w.deliverReassembled wire cfg env f) := by
  simp only [deliverReassembled]
  split
  case h_1 => exact .inl rfl
  case h_2 =>
    split
    case isTrue => exact tracks_observeFrom (by simp)
    case isFalse =>
      split
      case h_1 => exact .inl (by simp)
      case h_2 => exact tracks_observeFrom (by simp)

theorem tracks_deliverReassembledBlock {f : BlockFrame} :
    Tracks cfg env (Reports cfg env false f.hashKey f.seqNum) w
      (w.deliverReassembledBlock wire cfg env f) := by
  simp only [deliverReassembledBlock]
  split
  case h_1 => exact .inl rfl
  case h_2 =>
    split
    case h_1 => exact .inl rfl
    case h_2 => exact tracks_sendBlock rfl

theorem tracks_deliverReassembledSubtreeData {f : SubtreeDataFrame} :
    Tracks cfg env (Reports cfg env false f.hashKey f.seqNum) w
      (w.deliverReassembledSubtreeData wire cfg env f) := by
  simp only [deliverReassembledSubtreeData]
  split
  case h_1 => exact .inl rfl
  case h_2 => exact tracks_observeFrom rfl

theorem tracks_deliverReassembledBeefFrame {buf : Bytes} {f : BEEFFrame} :
    Tracks cfg env (Reports cfg env true f.hashKey f.seqNum) w
      (w.deliverReassembledBeefFrame wire cfg env buf f) := by
  unfold deliverReassembledBeefFrame
  split
  case h_1 => exact .inl rfl
  case h_2 => exact tracks_deliverBeef rfl

open Reassembly in
-- A completed object reaches the tracker under the HashKey and the SeqNum of its frame, or not at
-- all.
theorem tracks_deliver {tracked : Bool} {fmt : Formats} {i : Instant} (d : Delivery) :
    Tracks cfg env (Reports cfg env d.isBeef d.hashKey d.seqNum) w
      ((hooks wire cfg env tracked).deliver fmt i d w) := by
  cases d
  case tx          => exact tracks_deliverReassembled
  case block       => exact tracks_deliverReassembledBlock
  case subtreeData => exact tracks_deliverReassembledSubtreeData
  case beef        => exact tracks_deliverReassembledBeefFrame

theorem observes_deliver {tracked : Bool} {fmt : Formats} {i : Instant} (d : Reassembly.Delivery) :
    Observes cfg env d.hashKey d.seqNum w ((hooks wire cfg env tracked).deliver fmt i d w) :=
  (tracks_deliver d).observes

end Worker
