import ShardListener.Reassembly.Theorems.InTime
import ShardListener.Worker.Theorems.Reinject

-- A whole frame of one of the classes that can also come in fragments.
inductive Whole
  | tx (f : Frame)
  | block (f : BlockFrame)
  | subtreeData (f : SubtreeDataFrame)
  | anchor (f : Frame)
  | beef (f : BEEFFrame)

-- The whole frame in a datagram, by the decoder that `processFrame` has for it.
def Wire.whole (wire : Wire) (raw : Bytes) : Option Whole :=
  if wire.isBlockFrame raw then (wire.decodeBlock raw).map .block
  else if wire.isSubtreeDataFrame raw then (wire.decodeSubtreeData raw).map .subtreeData
  else if wire.isAnchorFrame raw then (wire.decodeAnchor raw).map .anchor
  else if wire.isFragment raw then none
  else if wire.isBundle raw then none
  else if wire.isBEEFFrame raw then (wire.decodeBEEF raw).map .beef
  else (wire.decode raw).map .tx

-- What is assumed of the library: its encoders do not fail, and the topics that a BEEF frame can be
-- delivered for do not depend on the HashKey and the SeqNum of the frame.
structure Wire.Encodes (wire : Wire) : Prop where
  tx          : ∀ f, (wire.encode f).isSome
  block       : ∀ f, (wire.encodeBlock f).isSome
  subtreeData : ∀ f, (wire.encodeSubtreeData f).isSome
  beef        : ∀ f, (wire.encodeBEEF f (Reassembly.Slot.whole wire.toFormats f.payload)).isSome
  topics      : ∀ f hashKey seqNum,
    wire.beefDeliverableTopicIDs { f with hashKey := hashKey, seqNum := seqNum } =
      wire.beefDeliverableTopicIDs f

-- The call without the wire bytes, and without the HashKey and the SeqNum of its frame.
def Worker.Egress.unstamped : Worker.Egress → Worker.Egress
  | .send _ f            => .send [] { f with hashKey := 0, seqNum := 0 }
  | .sendBlock _ f       => .sendBlock [] { f with hashKey := 0, seqNum := 0 }
  | .sendSubtreeData _ f => .sendSubtreeData [] { f with hashKey := 0, seqNum := 0 }
  | .sendBeef _ f        => .sendBeef [] { f with hashKey := 0, seqNum := 0 }
  | .mcast _ f g         => .mcast [] { f with hashKey := 0, seqNum := 0 } g
  | .sendBundle raw b    => .sendBundle raw b
  | .header lane raw     => .header lane raw

namespace Whole

open Worker Reassembly

variable (wire : Wire) (cfg : Settings)

def version : Whole → UInt8
  | tx f | anchor f => f.version
  | block _         => FrameVer.v4
  | subtreeData _   => FrameVer.v5
  | beef _          => FrameVer.v9

-- The version byte is the one of the class.
def Versioned : Whole → Prop
  | tx f     => f.version = FrameVer.v2
  | anchor f => f.version = FrameVer.v6
  | _        => True

-- The object is the frame, cut for BRC-130: its version, the identity fields and byte 7 of its
-- header are carried over.
def CutAs (o : Object) : Whole → Prop
  | tx f          =>
    o.frameVer = FrameVer.v2 ∧ o.txID = f.txID ∧ o.subtreeID = f.subtreeID ∧ o.payload = f.payload
  | block f       =>
    o.frameVer = FrameVer.v4 ∧ o.txID = f.contentID ∧ o.msgType = f.msgType ∧ o.payload = f.payload
  | subtreeData f =>
    o.frameVer = FrameVer.v5 ∧ o.txID = f.subtreeID ∧ o.msgType = f.msgType ∧ o.payload = f.payload
  | anchor f      =>
    o.frameVer = FrameVer.v6 ∧ o.txID = f.txID ∧ o.subtreeID = f.subtreeID ∧ o.payload = f.payload
  | beef f        =>
    o.frameVer = FrameVer.v9 ∧ o.txID = f.contentID ∧ o.subtreeID = f.topicID ∧
      o.msgType = f.deliverCount ∧ o.payload = f.payload

-- What the filter, the block gate, and the plane of BEEF objects with its elections do not let
-- through.
def Denied : Whole → Prop
  | tx f          => cfg.filt.deny (cfg.engine.groupIndex f.txID) f ≠ none
  | block f       => blockGate wire cfg f ≠ none
  | subtreeData _ => False
  | anchor _      => False
  | beef f        => BeefFaulty wire cfg f ∨ beefElection wire cfg f ≠ none

-- What the whole-frame path drops.
def Dropped : Whole → Prop
  | tx f => Unverified wire cfg f ∨ Denied wire cfg (tx f)
  | F    => Denied wire cfg F

instance : DecidablePred (Denied wire cfg)
  | tx _          => inferInstanceAs (Decidable (_ ≠ _))
  | block _       => inferInstanceAs (Decidable (_ ≠ _))
  | subtreeData _ => .isFalse id
  | anchor _      => .isFalse id
  | beef _        => inferInstanceAs (Decidable (_ ∨ _))

instance : DecidablePred (Dropped wire cfg)
  | tx _          => inferInstanceAs (Decidable (_ ∨ _))
  | block f       => inferInstanceAs (Decidable (Denied wire cfg (block f)))
  | subtreeData f => inferInstanceAs (Decidable (Denied wire cfg (subtreeData f)))
  | anchor f      => inferInstanceAs (Decidable (Denied wire cfg (anchor f)))
  | beef f        => inferInstanceAs (Decidable (Denied wire cfg (beef f)))

-- The calls that announce the header of a block, when `seq` headers have been announced before.
def headerCalls (seq : SeqNum) (f : BlockFrame) : List Egress :=
  if f.msgType ≠ wire.blockMsgAnnounce then []
  else if f.payload.length < blockHeaderSize then []
  else match wire.encodeBlockHeader f.contentID cfg.headerHashKey (seq + 1)
      (f.payload.take blockHeaderSize) with
    | none     => []
    | some buf => cfg.headerLanes.map (.header · buf)

-- The calls on the egress for a frame that is let through.
def calls (seq : SeqNum) (raw : Bytes) : Whole → List Egress
  | tx f          =>
    .send raw f :: if cfg.mcastEgr then [.mcast raw f (cfg.engine.groupIndex f.txID)] else []
  | block f       => .sendBlock raw f :: headerCalls wire cfg seq f
  | subtreeData f => [.sendSubtreeData raw f]
  | anchor f      => [.send raw f]
  | beef f        => [.sendBeef raw f]

-- The frame that reassembly makes of the fragments, with the stamp of the first one to arrive. An
-- anchor transaction comes out as an ordinary one.
def reassembled (hashKey : HashKey) (seqNum : SeqNum) : Whole → Whole
  | tx f          => tx { f with hashKey := hashKey, seqNum := seqNum }
  | block f       => block { f with hashKey := hashKey, seqNum := seqNum }
  | subtreeData f => subtreeData { f with hashKey := hashKey, seqNum := seqNum }
  | anchor f      => tx { f with version := FrameVer.v2, hashKey := hashKey, seqNum := seqNum }
  | beef f        => beef { f with hashKey := hashKey, seqNum := seqNum }

end Whole

def Reassembly.Delivery.whole : Reassembly.Delivery → Whole
  | tx f          => .tx f
  | block f       => .block f
  | subtreeData f => .subtreeData f
  | beef f        => .beef f

namespace Worker

open Whole

variable {wire : Wire} {cfg : Settings} {env : Env} {w : Worker} {raw : Bytes}

theorem egress_forward (wire : Wire) {f : Frame} :
    (w.forward cfg raw f (cfg.engine.groupIndex f.txID)).egress =
      w.egress ++ (tx f).calls wire cfg w.headerSeqNum raw := by
  simp only [forward, calls]
  split
  case isTrue  => simp [emit]
  case isFalse => rfl

theorem egress_emitBlockHeader {f : BlockFrame} :
    (w.emitBlockHeader wire cfg f).egress = w.egress ++ headerCalls wire cfg w.headerSeqNum f := by
  unfold emitBlockHeader headerCalls
  split
  case isTrue => simp
  case isFalse =>
    split
    case isTrue => simp
    case isFalse =>
      dsimp only
      cases wire.encodeBlockHeader f.contentID cfg.headerHashKey (w.headerSeqNum + 1)
        (f.payload.take blockHeaderSize)
      case none => simp
      case some => exact congrArg Worker.egress foldl_header

theorem egress_sendBlock {f : BlockFrame} :
    (w.sendBlock wire cfg env raw f).egress =
      w.egress ++ (block f).calls wire cfg w.headerSeqNum raw := by
  simp only [sendBlock, observeFrom, calls]
  split
  case isTrue hno =>
    have hc : headerCalls wire cfg w.headerSeqNum f = [] := by
      unfold headerCalls
      repeat' split
      case h_2 => simp [hno]
      all_goals rfl
    rw [hc]
    rfl
  case isFalse =>
    rw [egress_emitBlockHeader]
    simp [emit]

-- The egress under the settings without dedup.
section

variable (ht : cfg.txDedup = false) (hs : w.dedupSet = none)
include ht hs

theorem egress_deliverTx {f : Frame} (hv : f.version = FrameVer.v2) :
    (w.deliverTx cfg env raw f).egress =
      w.egress ++ if Denied wire cfg (tx f) then []
        else (tx f).calls wire cfg w.headerSeqNum raw := by
  cases hd : cfg.filt.deny (cfg.engine.groupIndex f.txID) f
  case some reason => simp [deliverTx, Denied, hd, drop, count]
  case none =>
    have hn : ¬Denied wire cfg (tx f) := not_not.mpr hd
    simp only [deliverTx, hd, dedupFrame, claim_of_no_store ht, suppress_of_no_set hs, if_pos hv,
      if_neg hn]
    exact egress_forward wire

theorem egress_deliverBeef {f : BEEFFrame} :
    (w.deliverBeef wire cfg env raw f).egress =
      w.egress ++ if Denied wire cfg (beef f) then []
        else (beef f).calls wire cfg w.headerSeqNum raw := by
  by_cases hf : BeefFaulty wire cfg f
  case pos =>
    have hd : Denied wire cfg (beef f) := .inl hf
    rw [if_pos hd, List.append_nil]
    unfold deliverBeef
    split
    case h_1 => rfl
    case h_2 he => exact if_pos (hf.resolve_left (by simp [he])) ▸ rfl
  case neg =>
    have ⟨he, hc⟩ := not_or.mp hf
    have ⟨engine, he⟩ := Option.ne_none_iff_exists'.mp he
    cases hel : beefElection wire cfg f
    case some reason =>
      have hd : Denied wire cfg (beef f) := .inr (by simp [hel])
      simp [deliverBeef, he, hc, hel, hd, drop, count]
    case none =>
      have hn : ¬Denied wire cfg (beef f) := not_or.mpr ⟨hf, by simp [hel]⟩
      have hs' : (w.count (.received .brc148)).dedupSet = none := hs
      simp only [deliverBeef, he, if_neg hc, hel, claim_of_no_store ht, suppress_of_no_set hs',
        if_neg hn]
      rfl

theorem egress_processTxFrame {f : Frame} (hd : wire.decode raw = some f)
    (hv : f.version = FrameVer.v2) :
    (w.processTxFrame wire cfg env raw).egress =
      w.egress ++ if Dropped wire cfg (tx f) then []
        else (tx f).calls wire cfg w.headerSeqNum raw := by
  by_cases hf : Unverified wire cfg f
  case pos =>
    have ⟨m, _, e⟩ := verifyFrame_of_unverified hf
    have hdrop : Dropped wire cfg (tx f) := .inl hf
    simp [processTxFrame, hd, e, hdrop, count]
  case neg =>
    have hdrop : Dropped wire cfg (tx f) ↔ Denied wire cfg (tx f) := or_iff_right hf
    have hs' (c : Class) : (w.count (.received c)).dedupSet = none := hs
    simp only [processTxFrame, hd, verifyFrame_of_verified hf, hdrop]
    exact egress_deliverTx ht (hs' _) hv

end

theorem egress_processBlockFrame {f : BlockFrame} (hd : wire.decodeBlock raw = some f) :
    (w.processBlockFrame wire cfg env raw).2.egress =
      w.egress ++
        if Dropped wire cfg (block f) then [] else (block f).calls wire cfg w.headerSeqNum raw := by
  cases hg : blockGate wire cfg f
  case some reason => simp [processBlockFrame, hd, hg, Dropped, Denied, drop, count]
  case none =>
    simp only [processBlockFrame, hd, hg, Dropped, Denied, ne_eq, not_true_eq_false, if_false]
    exact egress_sendBlock

-- The whole-frame path.
theorem egress_processFrame {n : Node} {F : Whole} (ht : cfg.txDedup = false)
    (hs : n.worker.dedupSet = none) (hw : wire.whole raw = some F) (hv : F.Versioned) :
    (n.processFrame wire cfg env raw).2.worker.egress =
      n.worker.egress ++
        if F.Dropped wire cfg then [] else F.calls wire cfg n.worker.headerSeqNum raw := by
  simp only [Wire.whole, Wire.dispatch] at hw
  simp only [Node.processFrame, Wire.dispatch]
  generalize wire.kind raw = kind at hw ⊢
  cases kind
  case fragment => cases hw
  case bundle   => cases hw
  case block =>
    obtain ⟨f, hd, e⟩ := Option.map_eq_some_iff.mp hw
    subst e
    exact egress_processBlockFrame hd
  case subtreeData =>
    obtain ⟨f, hd, e⟩ := Option.map_eq_some_iff.mp hw
    subst e
    simp only [Wire.Kind.pick, Node.handle, processSubtreeDataFrame, hd, Dropped, Denied]
    rfl
  case anchor =>
    obtain ⟨f, hd, e⟩ := Option.map_eq_some_iff.mp hw
    subst e
    simp only [Wire.Kind.pick, Node.handle, processAnchorFrame, hd,
      claim_of_no_store ht, Dropped, Denied]
    rfl
  case beef =>
    obtain ⟨f, hd, e⟩ := Option.map_eq_some_iff.mp hw
    subst e
    simp only [Wire.Kind.pick, Node.handle, processBeefFrame, hd]
    exact egress_deliverBeef ht hs
  case tx =>
    obtain ⟨f, hd, e⟩ := Option.map_eq_some_iff.mp hw
    subst e
    exact egress_processTxFrame ht hs hd hv

-- The fragment path.

open Reassembly

variable {tracked : Bool} {i : Instant} {w₁ : Worker} {o : Object} {F : Whole}
variable {hashKey : HashKey} {seqNum : SeqNum}

-- No call on the sinks is made.
def Silent (w w' : Worker) : Prop :=
  w'.egress = w.egress ∧ w'.headerSeqNum = w.headerSeqNum ∧ w'.dedupSet = w.dedupSet

theorem spares_silent : (hooks wire cfg env tracked).Spares (Silent w) where
  metric _ _ _ h       := h
  onIncomplete _ _ _ h := h

-- What is delivered goes the way of a whole frame from the filter, the gate or the plane on.
theorem egress_deliver (env : Env) (tracked : Bool) (i : Instant) (d : Delivery) (hw : wire.Encodes)
    (ht : cfg.txDedup = false) (hs : w.dedupSet = none) :
    ∃ raw, ((hooks wire cfg env tracked).deliver wire.toFormats i d w).egress =
      w.egress ++
        if Denied wire cfg d.whole then [] else d.whole.calls wire cfg w.headerSeqNum raw := by
  cases d
  case tx f =>
    obtain ⟨raw, he⟩ := Option.isSome_iff_exists.mp (hw.tx f)
    refine ⟨raw, ?_⟩
    cases hd : cfg.filt.deny (cfg.engine.groupIndex f.txID) f
    case some reason =>
      simp [Hooks.deliver, hooks, deliverReassembled, Delivery.whole, Denied, hd, drop, count]
    case none =>
      have hn : ¬Denied wire cfg (Delivery.tx f).whole := not_not.mpr hd
      rw [if_neg hn]
      simp only [Hooks.deliver, hooks, deliverReassembled, hd, claim_of_no_store ht, he]
      exact egress_forward wire
  case block f =>
    obtain ⟨raw, he⟩ := Option.isSome_iff_exists.mp (hw.block f)
    refine ⟨raw, ?_⟩
    cases hg : blockGate wire cfg f
    case some reason =>
      simp [Hooks.deliver, hooks, deliverReassembledBlock, Delivery.whole, Denied,
        he, hg, drop, count]
    case none =>
      have hn : ¬Denied wire cfg (Delivery.block f).whole := not_not.mpr hg
      rw [if_neg hn]
      simp only [Hooks.deliver, hooks, deliverReassembledBlock, he, hg]
      exact egress_sendBlock
  case subtreeData f =>
    obtain ⟨raw, he⟩ := Option.isSome_iff_exists.mp (hw.subtreeData f)
    refine ⟨raw, ?_⟩
    simp only [Hooks.deliver, hooks, deliverReassembledSubtreeData, Delivery.whole, he, Denied]
    rfl
  case beef f =>
    obtain ⟨raw, he⟩ := Option.isSome_iff_exists.mp (hw.beef f)
    have hs' : (w.count .reassemblyCompleted).dedupSet = none := hs
    refine ⟨raw, ?_⟩
    simp only [Hooks.deliver, hooks, deliverReassembledBeefFrame, Delivery.whole, he]
    exact egress_deliverBeef ht hs'

-- The frame that is made of the fragments.
theorem whole_delivery (hc : F.CutAs o) (hv : F.Versioned) :
    (o.delivery hashKey seqNum).whole = F.reassembled hashKey seqNum := by
  cases F
  case tx f =>
    obtain ⟨ver, id, sub, pay⟩ := hc
    have hv : f.version = FrameVer.v2 := hv
    simp only [Object.delivery, ver, id, sub, pay, reassembled, ← hv]
    simp [hv, Delivery.whole, FrameVer.v2, FrameVer.v4, FrameVer.v5, FrameVer.v9]
  case block f =>
    obtain ⟨ver, id, msg, pay⟩ := hc
    simp [Object.delivery, ver, id, msg, pay, reassembled, Delivery.whole]
  case subtreeData f =>
    obtain ⟨ver, id, msg, pay⟩ := hc
    simp [Object.delivery, ver, id, msg, pay, reassembled, Delivery.whole, FrameVer.v4, FrameVer.v5]
  case anchor f =>
    obtain ⟨ver, id, sub, pay⟩ := hc
    simp [Object.delivery, ver, id, sub, pay, reassembled, Delivery.whole, FrameVer.v4, FrameVer.v5,
      FrameVer.v6, FrameVer.v9]
  case beef f =>
    obtain ⟨ver, id, topic, msg, pay⟩ := hc
    simp [Object.delivery, ver, id, topic, msg, pay, reassembled, Delivery.whole, FrameVer.v4,
      FrameVer.v5, FrameVer.v9]

theorem egress_finish (env : Env) (tracked : Bool) (i : Instant) (hashKey : HashKey)
    (seqNum : SeqNum) (hw : wire.Encodes) (ht : cfg.txDedup = false) (hs : w.dedupSet = none)
    (hc : F.CutAs o) (hv : F.Versioned) :
    ∃ raw, (o.finish wire.toFormats cfg.reassembly (hooks wire cfg env tracked) i hashKey seqNum
        w).egress =
      w.egress ++
        if (cfg.reassembly.verifyHash → verified wire.toFormats o.frameVer o.txID o.payload) ∧
          ¬Denied wire cfg (F.reassembled hashKey seqNum)
        then (F.reassembled hashKey seqNum).calls wire cfg w.headerSeqNum raw else [] := by
  by_cases hh : cfg.reassembly.verifyHash → verified wire.toFormats o.frameVer o.txID o.payload
  case pos =>
    have hno :
        ¬(cfg.reassembly.verifyHash ∧ ¬verified wire.toFormats o.frameVer o.txID o.payload) :=
      fun ⟨hon, hne⟩ => hne (hh hon)
    have ⟨raw, e⟩ := egress_deliver env tracked i (o.delivery hashKey seqNum) hw ht hs
    refine ⟨raw, ?_⟩
    rw [Object.finish, if_neg hno, e, whole_delivery hc hv]
    by_cases hd : Denied wire cfg (F.reassembled hashKey seqNum)
    case pos => rw [if_pos hd, if_neg fun h => h.2 hd]
    case neg => rw [if_neg hd, if_pos ⟨hh, hd⟩]
  case neg =>
    refine ⟨[], ?_⟩
    rw [Object.finish, if_pos (by simpa using hh), if_neg fun h => hh h.1, List.append_nil]
    rfl

end Worker

namespace Whole

open Worker

variable {wire : Wire} {cfg : Settings} {F : Whole} {hashKey : HashKey} {seqNum seq : SeqNum}
variable {raw raw' : Bytes}

-- But for an anchor transaction, the reassembled frame meets the same filter, gate and elections.

theorem denied_reassembled (hw : wire.Encodes) (ha : ∀ f, F ≠ anchor f) :
    Denied wire cfg (F.reassembled hashKey seqNum) ↔ Denied wire cfg F := by
  cases F
  case anchor f => exact absurd rfl (ha f)
  case beef f   => simp only [reassembled, Denied, BeefFaulty, beefElection, hw.topics]
  all_goals exact Iff.rfl

theorem calls_reassembled (ha : ∀ f, F ≠ anchor f) :
    ((F.reassembled hashKey seqNum).calls wire cfg seq raw').map Egress.unstamped =
      (F.calls wire cfg seq raw).map Egress.unstamped := by
  cases F
  case tx f =>
    simp only [reassembled, calls]
    split
    case isTrue  => rfl
    case isFalse => rfl
  case anchor f => exact absurd rfl (ha f)
  all_goals rfl

theorem calls_ne_nil : F.calls wire cfg seq raw ≠ [] := by
  cases F
  all_goals simp [calls]

theorem dropped_of_denied (hd : Denied wire cfg F) : Dropped wire cfg F := by
  cases F
  case tx => exact .inr hd
  all_goals exact hd

open Reassembly in
-- What the whole-frame path drops beyond that, the buffer drops as well.
theorem denied_of_dropped {o : Object} (hv : cfg.reassembly.verifyHash = cfg.verifyPayloadHash)
    (hc : F.CutAs o) (ha : o.Admissible wire.toFormats cfg.reassembly) (hd : Dropped wire cfg F) :
    Denied wire cfg F := by
  cases F
  case tx f =>
    refine hd.resolve_left fun ⟨⟨hon, _⟩, hne⟩ => hne ?_
    have ⟨ver, id, _, pay⟩ := hc
    have hok := ha.verified (hv.trans hon)
    simpa [verified, ver, id, pay, FrameVer.v2, FrameVer.v4, FrameVer.v5, FrameVer.v9] using hok
  all_goals exact hd

theorem version_ne_v6 (hv : F.Versioned) (ha : ∀ f, F ≠ anchor f) : F.version ≠ FrameVer.v6 := by
  cases F
  case tx f =>
    have hv : f.version = FrameVer.v2 := hv
    simp [version, hv, FrameVer.v2, FrameVer.v6]
  case anchor f      => exact absurd rfl (ha f)
  case block         => exact (by decide : FrameVer.v4 ≠ FrameVer.v6)
  case subtreeData   => exact (by decide : FrameVer.v5 ≠ FrameVer.v6)
  case beef          => exact (by decide : FrameVer.v9 ≠ FrameVer.v6)

-- The reassembled anchor transaction is of another version.
theorem unstamped_anchor_ne {f : Frame} (hv : f.version = FrameVer.v6) {es : List Egress} :
    Egress.unstamped (.send raw f) ::
      es ≠ (((anchor f).reassembled hashKey seqNum).calls wire cfg seq raw').map
        Egress.unstamped := by
  intro h
  simp [reassembled, calls, Egress.unstamped, hv, FrameVer.v2, FrameVer.v6] at h

end Whole
