import ShardListener.Worker.Delivery
import ShardListener.Worker.Theorems.Emission

-- What is assumed of the library: what its encoders write, its decoders read.
structure Wire.RoundTrips (wire : Wire) : Prop where
  tx          : ∀ f raw, wire.encode f = some raw → f.version = FrameVer.v2 →
    wire.whole raw = some (.tx f)
  block       : ∀ f raw, wire.encodeBlock f = some raw → wire.whole raw = some (.block f)
  subtreeData : ∀ f raw, wire.encodeSubtreeData f = some raw →
    wire.whole raw = some (.subtreeData f)
  beef        : ∀ f raw,
    wire.encodeBEEF f (Reassembly.Slot.whole wire.toFormats f.payload) = some raw →
    wire.whole raw = some (.beef f)

-- The members of a bundle are transactions that a worker would keep if they came on their own. A
-- worker asks this of the bundle only, under its group and its subtree.
def Bundle.Separable (wire : Wire) (cfg : Worker.Settings) (b : Bundle) : Prop :=
  ∀ mf ∈ wire.decoalesce b, mf.version = FrameVer.v2 ∧ ¬Whole.Dropped wire cfg (.tx mf)

namespace Worker

open Whole

variable {wire : Wire} {cfg : Settings} {env : Env} {w w' : Worker} {raw : Bytes} {F : Whole}
variable {k : Egress} {P : Emission → Prop}

theorem emission_of_mem_say {es : List Emission} {v : List Egress × SeqNum}
    (hk : k ∈ (es.foldl (say wire cfg) v).1) :
    k ∈ v.1 ∨ ∃ e ∈ es, ∃ seq, k ∈ e.calls wire cfg seq := by
  induction es generalizing v
  case nil => exact .inl hk
  case cons e es hi =>
    rcases hi hk with hv | ⟨e', he', seq, h⟩
    case inr => exact .inr ⟨e', List.mem_cons_of_mem _ he', seq, h⟩
    case inl =>
      rcases List.mem_append.mp hv with hv | hv
      case inl => exact .inl hv
      case inr => exact .inr ⟨e, List.mem_cons_self, v.2, hv⟩

theorem Emits.emission_of_mem (h : Emits wire cfg P w w') (hk : k ∈ w'.egress) :
    k ∈ w.egress ∨ ∃ e seq, P e ∧ k ∈ e.calls wire cfg seq := by
  obtain ⟨es, hv, hp⟩ := h
  have hv : w'.egress = (es.foldl (say wire cfg) w.voice).1 := congrArg Prod.fst hv
  rcases emission_of_mem_say (hv ▸ hk) with hn | ⟨e, he, seq, hc⟩
  case inl => exact .inl hn
  case inr => exact .inr ⟨e, seq, hp e he, hc⟩

theorem Emits.emission_of_mem_nil (h : Emits wire cfg P w w') (hw : w.egress = [])
    (hk : k ∈ w'.egress) : ∃ e seq, P e ∧ k ∈ e.calls wire cfg seq :=
  (h.emission_of_mem hk).resolve_left (by simp [hw])

theorem Provided.whole_eq (hp : Provided wire raw F) (hw : wire.RoundTrips) :
    wire.whole raw = some F := by
  cases hp
  case whole h       => exact h
  case tx he hv      => exact hw.tx _ _ he hv
  case block he      => exact hw.block _ _ he
  case subtreeData he => exact hw.subtreeData _ _ he
  case beef he       => exact hw.beef _ _ he

-- A worker without the dedup stages that is handed the bytes of the call makes this call and no
-- other.
def Deliverable (wire : Wire) (cfg : Settings) (k : Egress) : Prop :=
  ∃ F, wire.whole k.raw = some F ∧ ¬F.Dropped wire cfg ∧ ∀ seq, F.calls wire cfg seq k.raw = [k]

theorem delivery_filt (hg : cfg.filt.groupReg = none) : cfg.delivery.filt = cfg.filt := by
  simp only [Settings.delivery, hg, Option.map_none]
  rw [← hg]

theorem not_dropped_tx_delivery {f : Frame} (hg : cfg.filt.groupReg = none)
    (h : ¬Dropped wire cfg (tx f)) : ¬Dropped wire cfg.delivery (tx f) := by
  obtain ⟨hu, hd⟩ := not_or.mp h
  refine not_or.mpr ⟨hu, ?_⟩
  rw [Denied, delivery_filt hg]
  exact hd

theorem calls_tx_delivery {f : Frame} (seq : SeqNum) :
    (tx f).calls wire cfg.delivery seq raw = [.send raw f] :=
  rfl

theorem calls_block_delivery {f : BlockFrame} (seq : SeqNum) :
    (block f).calls wire cfg.delivery seq raw = [.sendBlock raw f] := by
  simp only [calls, headerCalls]
  split
  case isTrue => rfl
  case isFalse =>
    split
    case isTrue  => rfl
    case isFalse => split <;> rfl

theorem mem_calls_block {f : BlockFrame} {seq : SeqNum}
    (hk : k ∈ (block f).calls wire cfg seq raw) :
    k = .sendBlock raw f ∨ ∃ lane buf, k = .header lane buf := by
  rcases List.mem_cons.mp hk with h | h
  case inl => exact .inl h
  case inr =>
    simp only [headerCalls] at h
    split_ifs at h
    case neg =>
      split at h
      case h_1 => cases h
      case h_2 =>
        obtain ⟨lane, _, rfl⟩ := List.mem_map.mp h
        exact .inr ⟨lane, _, rfl⟩
    all_goals cases h

-- Whatever a receiver hands to the sink for its consumers, a delivery host hands on.
theorem deliverable_of_justified {e : Emission} {seq : SeqNum} (hw : wire.RoundTrips)
    (hg : cfg.filt.groupReg = none) (hj : Justified wire cfg (Bundle.Separable wire cfg) e)
    (hk : k ∈ e.calls wire cfg seq) (hu : k.isUnicast) : Deliverable wire cfg.delivery k := by
  cases hj
  case tx raw f hp hkept =>
    obtain rfl := List.mem_singleton.mp hk
    exact ⟨.tx f, hp.whole_eq hw, not_dropped_tx_delivery hg hkept, calls_tx_delivery⟩
  case anchor raw f hp =>
    obtain rfl := List.mem_singleton.mp hk
    exact ⟨.anchor f, hp.whole_eq hw, id, fun _ => rfl⟩
  case member raw b mf seq hb hkept hm he =>
    obtain rfl := List.mem_singleton.mp hk
    obtain ⟨hversion, hpass⟩ := hb mf hm
    exact ⟨.tx _, hw.tx _ _ he hversion, not_dropped_tx_delivery hg hpass, calls_tx_delivery⟩
  case subtreeData raw f hp =>
    obtain rfl := List.mem_singleton.mp hk
    exact ⟨.subtreeData f, hp.whole_eq hw, id, fun _ => rfl⟩
  case beef raw f hp hkept =>
    obtain rfl := List.mem_singleton.mp hk
    exact ⟨.beef f, hp.whole_eq hw, hkept, fun _ => rfl⟩
  case mcast =>
    obtain rfl := List.mem_singleton.mp hk
    cases hu
  case mcastMember =>
    obtain rfl := List.mem_singleton.mp hk
    cases hu
  case bundle =>
    obtain rfl := List.mem_singleton.mp hk
    cases hu
  case block raw f hp hkept =>
    -- The calls for the header are not on this sink.
    rcases mem_calls_block hk with rfl | ⟨lane, buf, rfl⟩
    case inr => cases hu
    exact ⟨.block f, hp.whole_eq hw, fun hd => hd rfl, calls_block_delivery⟩

-- One datagram on a worker without the dedup stages.

theorem forwards_deliverTx {f : Frame} (wire : Wire) (ht : cfg.txDedup = false)
    (hs : w.dedupSet = none) (hd : cfg.filt.deny (cfg.engine.groupIndex f.txID) f = none) :
    (w.deliverTx cfg env raw f).egress = w.egress ++ (tx f).calls wire cfg w.headerSeqNum raw ∧
      (w.deliverTx cfg env raw f).dedupSet = none := by
  have hdedup : w.dedupFrame cfg env f (cfg.engine.groupIndex f.txID) = (true, w) := by
    simp only [dedupFrame, claim_of_no_store ht, suppress_of_no_set hs]
    split <;> rfl
  have hset : (w.forward cfg raw f (cfg.engine.groupIndex f.txID)).dedupSet = none := by
    simp only [forward]
    split <;> exact hs
  simp only [deliverTx, hd, hdedup, if_true]
  split
  case isTrue  => exact ⟨egress_forward wire, hset⟩
  case isFalse => exact ⟨egress_forward wire, hset⟩

theorem forwards_deliverBeef {f : BEEFFrame} (ht : cfg.txDedup = false) (hs : w.dedupSet = none)
    (hd : ¬Denied wire cfg (beef f)) :
    (w.deliverBeef wire cfg env raw f).egress = w.egress ++ [.sendBeef raw f] ∧
      (w.deliverBeef wire cfg env raw f).dedupSet = none := by
  refine ⟨by rw [egress_deliverBeef ht hs, if_neg hd]; rfl, ?_⟩
  obtain ⟨hf, hel⟩ := not_or.mp hd
  obtain ⟨he, hc⟩ := not_or.mp hf
  obtain ⟨engine, he⟩ := Option.ne_none_iff_exists'.mp he
  have hs' : (w.count (.received .brc148)).dedupSet = none := hs
  simp only [deliverBeef, he, if_neg hc, not_not.mp hel, claim_of_no_store ht,
    suppress_of_no_set hs']
  exact hs

theorem dedupSet_sendBlock {f : BlockFrame} :
    (w.sendBlock wire cfg env raw f).dedupSet = w.dedupSet := by
  simp only [sendBlock, observeFrom]
  split
  case isTrue  => rfl
  case isFalse => rw [emitBlockHeader_eq]; rfl

end Worker

namespace Node

open Worker Whole

variable {wire : Wire} {cfg : Settings} {env : Env} {n : Node} {k : Egress}

theorem processFrame_of_deliverable (ht : cfg.txDedup = false) (hs : n.worker.dedupSet = none)
    (hk : Deliverable wire cfg k) :
    (n.processFrame wire cfg env k.raw).2.worker.egress = n.worker.egress ++ [k] ∧
      (n.processFrame wire cfg env k.raw).2.worker.dedupSet = none := by
  obtain ⟨F, hw, hdrop, hcalls⟩ := hk
  rw [← hcalls n.worker.headerSeqNum]
  simp only [Wire.whole, Wire.dispatch] at hw
  simp only [processFrame, Wire.dispatch]
  generalize wire.kind k.raw = kind at hw ⊢
  cases kind
  case fragment => cases hw
  case bundle   => cases hw
  case block =>
    obtain ⟨f, hd, rfl⟩ := Option.map_eq_some_iff.mp hw
    have hg : blockGate wire cfg f = none := not_not.mp hdrop
    simp only [Wire.Kind.pick, processBlockFrame, hd, hg]
    exact ⟨egress_sendBlock, dedupSet_sendBlock.trans hs⟩
  case subtreeData =>
    obtain ⟨f, hd, rfl⟩ := Option.map_eq_some_iff.mp hw
    simp only [Wire.Kind.pick, handle, processSubtreeDataFrame, hd]
    exact ⟨rfl, hs⟩
  case anchor =>
    obtain ⟨f, hd, rfl⟩ := Option.map_eq_some_iff.mp hw
    simp only [Wire.Kind.pick, handle, processAnchorFrame, hd, claim_of_no_store ht]
    exact ⟨rfl, hs⟩
  case beef =>
    obtain ⟨f, hd, rfl⟩ := Option.map_eq_some_iff.mp hw
    simp only [Wire.Kind.pick, handle, processBeefFrame, hd]
    exact forwards_deliverBeef ht hs hdrop
  case tx =>
    obtain ⟨f, hd, rfl⟩ := Option.map_eq_some_iff.mp hw
    obtain ⟨hu, hdeny⟩ := not_or.mp hdrop
    simp only [Wire.Kind.pick, handle, processTxFrame, hd, verifyFrame_of_verified hu]
    exact forwards_deliverTx (w := n.worker.count _) wire ht hs (not_not.mp hdeny)

theorem egress_of_deliverable {ks : List (Env × Egress)} (ht : cfg.txDedup = false)
    (hs : n.worker.dedupSet = none) (hk : ∀ x ∈ ks, Deliverable wire cfg x.2) :
    (Run.exec (react wire cfg) n (ks.map fun x => .datagram x.1 x.2.raw)).worker.egress =
      n.worker.egress ++ ks.map (·.2) := by
  induction ks generalizing n
  case nil => simp
  case cons x ks hi =>
    obtain ⟨he, hs'⟩ :=
      @processFrame_of_deliverable wire cfg x.1 n x.2 ht hs (hk x List.mem_cons_self)
    refine (hi hs' fun y hy => hk y (List.mem_cons_of_mem _ hy)).trans ?_
    rw [he, List.append_assoc]
    rfl

def relayedFrame : Frame :=
  ⟨FrameVer.v2, .fill 1, 7, 1, .zero, [1, 2]⟩

def relayWire : Wire :=
  { Wire.blank with
    isBundle     := fun raw => raw = [1]
    decodeBundle := fun _ => some ⟨0, Settings.blank.engine.groupIndex (.fill 1), .zero, 7, 1, []⟩
    decoalesce   := fun b => [{ relayedFrame with subtreeID := b.subtreeID }]
    encode       := fun f => if f = relayedFrame then some [7] else none
    decode       := fun _ => some relayedFrame }

theorem relayWire_roundTrips : relayWire.RoundTrips where
  tx f raw he _          := by
    obtain ⟨rfl, he⟩ := (Option.ite_none_right_eq_some.mp he)
    cases he
    rfl
  block _ _ he           := by cases he
  subtreeData _ _ he     := by cases he
  beef _ _ he            := by cases he

theorem relayWire_separable {b : Bundle} : b.Separable relayWire Settings.blank := by
  intro mf hm
  obtain rfl := List.mem_singleton.mp hm
  exact ⟨rfl, not_or.mpr ⟨fun hu => hu.2 rfl, not_not.mpr rfl⟩⟩

end Node
