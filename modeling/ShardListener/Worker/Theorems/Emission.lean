import ShardListener.Worker.System
import ShardListener.Worker.Theorems.Whole

-- What a worker can hand to its sinks in one step, and why.

namespace Reassembly.Buffer

variable {ω : Type} {fmt : Formats} {cfg : Config} {h : Hooks ω} {i : Instant} {ff : FragFrame}
variable {p : Buffer × ω} {P : ω → Prop}

-- The rule for the callbacks' state, where an object has passed the check before it is delivered.
theorem gather_verified (hm : ∀ m w, m ≠ .hashMismatch → P w → P (h.metric m w))
    (hd : ∀ s : Slot,
      (cfg.verifyHash → verified fmt s.origFrameVer s.txID (s.payload.getD s.assembled)) →
        ∀ w, P w → P (h.deliver fmt i (s.delivery (s.payload.getD s.assembled)) w))
    (hx : ∀ w, P w → P (h.metric .hashMismatch w)) (hp : P p.2) :
    P (gather fmt cfg h i ff p).2 := by
  cases hc : completing fmt cfg h i p.1 ff
  case none => exact gather_not_completing hm hc hp
  case some s =>
    obtain ⟨p', e, hp'⟩ := gather_completing hm hc hp
    have hl : P (if s.extended then h.metric .lateDone p'.2 else p'.2) := by
      split
      case isTrue  => exact hm _ _ nofun hp'
      case isFalse => exact hp'
    rw [e]
    simp only [complete]
    split
    case isTrue     => exact hx _ hl
    case isFalse hv => exact hd s (fun hon => not_not.mp fun hno => hv ⟨hon, hno⟩) _ hl

end Reassembly.Buffer

namespace Worker

open Reassembly

-- A call on a sink, or a block with the calls for its header.
inductive Emission
  | call (k : Egress)
  | block (raw : Bytes) (f : BlockFrame)

section

variable (wire : Wire) (cfg : Settings)

-- The bundles that are delivered for a datagram: the one in it, or its children if it is of another
-- generation.
def bundles (w : Worker) (raw : Bytes) : List Bundle :=
  match wire.decodeBundle raw with
  | none   => []
  | some b =>
    if b.shardBits ≠ 0 ∧ b.shardBits ≠ cfg.engine.shardBits then wire.rebucket w.rebucketed b
    else [b]

-- The block is announced, and its header is numbered.
def Headed (f : BlockFrame) : Prop :=
  cfg.headerLanes ≠ [] ∧ f.msgType = wire.blockMsgAnnounce ∧ blockHeaderSize ≤ f.payload.length

instance {f : BlockFrame} : Decidable (Headed wire cfg f) :=
  inferInstanceAs (Decidable (_ ∧ _ ∧ _))

namespace Emission

-- The calls, when `seq` headers have been numbered before.
def calls (seq : SeqNum) : Emission → List Egress
  | call k      => [k]
  | block raw f => (Whole.block f).calls wire cfg seq raw

def next (seq : SeqNum) : Emission → SeqNum
  | call _    => seq
  | block _ f => if Headed wire cfg f then seq + 1 else seq

end Emission

-- The calls so far, and the headers numbered so far.
def voice (w : Worker) : List Egress × SeqNum :=
  (w.egress, w.headerSeqNum)

def say (v : List Egress × SeqNum) (e : Emission) : List Egress × SeqNum :=
  (v.1 ++ e.calls wire cfg v.2, e.next wire cfg v.2)

-- From `w` to `w'` there are only emissions with `P`.
def Emits (P : Emission → Prop) (w w' : Worker) : Prop :=
  ∃ es : List Emission, w'.voice = es.foldl (say wire cfg) w.voice ∧ ∀ e ∈ es, P e

-- Where the bytes and the frame of a call come from: off the wire as they are, or from reassembly.
inductive Provided : Bytes → Whole → Prop
  | whole {raw : Bytes} {F : Whole} (whole : wire.whole raw = some F) : Provided raw F
  | tx {raw : Bytes} {f : Frame} (encoded : wire.encode f = some raw)
    (version : f.version = FrameVer.v2) :
    Provided raw (.tx f)
  | block {raw : Bytes} {f : BlockFrame} (encoded : wire.encodeBlock f = some raw) :
    Provided raw (.block f)
  | subtreeData {raw : Bytes} {f : SubtreeDataFrame}
    (encoded : wire.encodeSubtreeData f = some raw) :
    Provided raw (.subtreeData f)
  | beef {raw : Bytes} {f : BEEFFrame}
    (encoded : wire.encodeBEEF f (Slot.whole wire.toFormats f.payload) = some raw) :
    Provided raw (.beef f)

-- Why there is an emission, if all bundles are in `B`.
inductive Justified (B : Bundle → Prop) : Emission → Prop
  | tx {raw : Bytes} {f : Frame} (provided : Provided wire raw (.tx f))
    (kept : ¬Whole.Dropped wire cfg (.tx f)) : Justified B (.call (.send raw f))
  | anchor {raw : Bytes} {f : Frame} (provided : Provided wire raw (.anchor f)) :
    Justified B (.call (.send raw f))
  | member {raw : Bytes} {b : Bundle} {mf : Frame} {seq : SeqNum} (received : B b)
    (kept : cfg.filt.deny b.groupIdx (bundleProbe b) = none) (member : mf ∈ wire.decoalesce b)
    (encoded : wire.encode { mf with seqNum := seq } = some raw) :
    Justified B (.call (.send raw { mf with seqNum := seq }))
  | subtreeData {raw : Bytes} {f : SubtreeDataFrame}
    (provided : Provided wire raw (.subtreeData f)) :
    Justified B (.call (.sendSubtreeData raw f))
  | beef {raw : Bytes} {f : BEEFFrame} (provided : Provided wire raw (.beef f))
    (kept : ¬Whole.Denied wire cfg (.beef f)) : Justified B (.call (.sendBeef raw f))
  | mcast {raw : Bytes} {f : Frame} {g : GroupIdx} (kept : cfg.filt.deny g f = none) :
    Justified B (.call (.mcast raw f g))
  | mcastMember {raw : Bytes} {b : Bundle} {mf : Frame} {seq : SeqNum} (received : B b)
    (kept : cfg.filt.deny b.groupIdx (bundleProbe b) = none) (member : mf ∈ wire.decoalesce b) :
    Justified B (.call (.mcast raw { mf with seqNum := seq } b.groupIdx))
  | bundle {raw : Bytes} {b : Bundle} (kept : cfg.filt.deny b.groupIdx (bundleProbe b) = none) :
    Justified B (.call (.sendBundle raw b))
  | block {raw : Bytes} {f : BlockFrame} (provided : Provided wire raw (.block f))
    (kept : ¬Whole.Denied wire cfg (.block f)) : Justified B (.block raw f)

end

variable {wire : Wire} {cfg : Settings} {env : Env} {w w' w₁ w₂ : Worker} {raw : Bytes}
variable {P Q : Emission → Prop} {B : Bundle → Prop}

namespace Emits

theorem of_voice_eq (h : w'.voice = w.voice) : Emits wire cfg P w w' :=
  ⟨[], h, by simp⟩

theorem refl : Emits wire cfg P w w :=
  of_voice_eq rfl

theorem trans (h₁ : Emits wire cfg P w w₁) (h₂ : Emits wire cfg P w₁ w₂) :
    Emits wire cfg P w w₂ := by
  obtain ⟨es₁, v₁, hp₁⟩ := h₁
  obtain ⟨es₂, v₂, hp₂⟩ := h₂
  refine ⟨es₁ ++ es₂, by rw [v₂, v₁, List.foldl_append], fun e he => ?_⟩
  exact (List.mem_append.mp he).elim (hp₁ e) (hp₂ e)

theorem from_voice (h : w₁.voice = w.voice) (he : Emits wire cfg P w₁ w') : Emits wire cfg P w w' :=
  (of_voice_eq h).trans he

theorem emit {k : Egress} (hp : P (.call k)) : Emits wire cfg P w (w.emit k) :=
  ⟨[.call k], rfl, by simpa using hp⟩

end Emits

-- What leaves the sinks alone.

@[simp]
theorem voice_count {m : Metric} : (w.count m).voice = w.voice :=
  rfl

@[simp]
theorem voice_drop {reason : DropReason} : (w.drop reason).voice = w.voice :=
  rfl

@[simp]
theorem voice_observeFrom {g : GroupIdx} {subtreeID : Bytes32} {hashKey : HashKey}
    {seqNum : SeqNum} : (w.observeFrom cfg env g subtreeID hashKey seqNum).voice = w.voice :=
  rfl

@[simp]
theorem voice_observeBeef {g : GroupIdx} {f : BEEFFrame} :
    (w.observeBeef cfg env g f).voice = w.voice :=
  rfl

@[simp]
theorem voice_claim {key : Bytes32} : (w.claim cfg env key).2.voice = w.voice := by
  unfold claim
  split
  case isTrue  => split <;> rfl
  case isFalse => rfl

@[simp]
theorem voice_suppress {key : Dedup.Key} : (w.suppress env key).2.voice = w.voice := by
  unfold suppress
  split
  case h_1 => rfl
  case h_2 =>
    split
    case isTrue  => rfl
    case isFalse => dsimp only; split <;> rfl

theorem voice_dedupFrame {f : Frame} {g : GroupIdx} :
    (w.dedupFrame cfg env f g).2.voice = w.voice := by
  simp only [dedupFrame]
  split
  case isTrue =>
    split
    case isTrue  => exact voice_claim
    case isFalse => exact voice_suppress.trans voice_claim
  case isFalse => rfl

-- The functions that make the calls.

theorem emits_forward {f : Frame} {g : GroupIdx} (hs : P (.call (.send raw f)))
    (hm : P (.call (.mcast raw f g))) : Emits wire cfg P w (w.forward cfg raw f g) := by
  simp only [forward]
  split
  case isTrue  => exact (Emits.emit hs).trans (.emit hm)
  case isFalse => exact .emit hs

theorem headerSeqNum_emitBlockHeader {f : BlockFrame} (hl : cfg.headerLanes ≠ []) :
    (w.emitBlockHeader wire cfg f).headerSeqNum =
      if Headed wire cfg f then w.headerSeqNum + 1 else w.headerSeqNum := by
  unfold emitBlockHeader
  split
  case isTrue hm => rw [if_neg fun hh => hm hh.2.1]
  case isFalse hm =>
    split
    case isTrue hp => rw [if_neg fun hh => Nat.not_lt.mpr hh.2.2 hp]
    case isFalse hp =>
      rw [if_pos ⟨hl, not_not.mp hm, Nat.not_lt.mp hp⟩]
      dsimp only
      split
      case h_1 => rfl
      case h_2 => exact congrArg headerSeqNum foldl_header

theorem emits_sendBlock {f : BlockFrame} (hp : P (.block raw f)) :
    Emits wire cfg P w (w.sendBlock wire cfg env raw f) := by
  refine ⟨[.block raw f], ?_, by simpa using hp⟩
  refine Prod.ext ?calls ?count
  case calls => exact @egress_sendBlock wire cfg env w raw f
  simp only [List.foldl_cons, List.foldl_nil, say, Emission.next, voice, sendBlock, observeFrom]
  split
  case isTrue hn  => rw [if_neg fun hh => hh.1 hn]; rfl
  case isFalse hl => exact headerSeqNum_emitBlockHeader hl

theorem emits_sendSubtreeData {f : SubtreeDataFrame} (hp : P (.call (.sendSubtreeData raw f))) :
    Emits wire cfg P w (w.sendSubtreeData cfg env raw f) :=
  (Emits.emit hp).trans (.of_voice_eq rfl)

theorem emits_deliverBeef {f : BEEFFrame} (hp : Provided wire raw (.beef f)) :
    Emits wire cfg (Justified wire cfg B) w (w.deliverBeef wire cfg env raw f) := by
  unfold deliverBeef
  split
  case h_1 => exact .of_voice_eq rfl
  case h_2 engine he =>
    dsimp only
    split
    case isTrue => exact .of_voice_eq rfl
    case isFalse hc =>
      split
      case h_1 => exact .of_voice_eq rfl
      case h_2 hel =>
        have hk : ¬Whole.Denied wire cfg (.beef f) :=
          not_or.mpr ⟨not_or.mpr ⟨by simp [he], hc⟩, by simp [hel]⟩
        split
        case isTrue  => exact .of_voice_eq (by simp)
        case isFalse =>
          split
          case isTrue  => exact .of_voice_eq (by simp)
          case isFalse =>
            refine .trans (.trans ?_ (.emit (.beef hp hk))) (.of_voice_eq rfl)
            exact .of_voice_eq (voice_suppress.trans (voice_claim.trans rfl))

theorem emits_deliverTx {f : Frame} (hp : Provided wire raw (.tx f)) (hu : ¬Unverified wire cfg f) :
    Emits wire cfg (Justified wire cfg B) w (w.deliverTx cfg env raw f) := by
  simp only [deliverTx]
  split
  case h_1 => exact .of_voice_eq rfl
  case h_2 hd =>
    have hk : ¬Whole.Dropped wire cfg (.tx f) := not_or.mpr ⟨hu, not_not.mpr hd⟩
    have hf : Emits wire cfg (Justified wire cfg B) w
        (if (w.dedupFrame cfg env f (cfg.engine.groupIndex f.txID)).1 then
          (w.dedupFrame cfg env f (cfg.engine.groupIndex f.txID)).2.forward cfg raw f
            (cfg.engine.groupIndex f.txID)
        else (w.dedupFrame cfg env f (cfg.engine.groupIndex f.txID)).2) := by
      split
      case isTrue  => exact .from_voice voice_dedupFrame (emits_forward (.tx hp hk) (.mcast hd))
      case isFalse => exact .of_voice_eq voice_dedupFrame
    split
    case isTrue  => exact hf.trans (.of_voice_eq rfl)
    case isFalse => exact hf

theorem emits_sendMember {b : Bundle} {mf : Frame} (hr : B b)
    (hd : cfg.filt.deny b.groupIdx (bundleProbe b) = none) (hm : mf ∈ wire.decoalesce b) :
    Emits wire cfg (Justified wire cfg B) w (sendMember wire cfg b w mf) := by
  simp only [sendMember]
  split
  case h_1 => exact .of_voice_eq rfl
  case h_2 raw he =>
    have hs : Justified wire cfg B (.call (.send raw
        { mf with seqNum := (w.egressSeq.lookup b.hashKey).getD 0 + 1 })) := .member hr hd hm he
    split
    case isTrue =>
      refine .trans ?_ (.emit (.mcastMember hr hd hm))
      split
      case isTrue  => exact .of_voice_eq rfl
      case isFalse => exact .trans (.of_voice_eq rfl) (.emit hs)
    case isFalse =>
      split
      case isTrue  => exact .of_voice_eq rfl
      case isFalse => exact .trans (.of_voice_eq rfl) (.emit hs)

theorem emits_sendMembers {b : Bundle} {mfs : List Frame} (hr : B b)
    (hd : cfg.filt.deny b.groupIdx (bundleProbe b) = none)
    (hm : ∀ mf ∈ mfs, mf ∈ wire.decoalesce b) :
    Emits wire cfg (Justified wire cfg B) w (mfs.foldl (sendMember wire cfg b) w) := by
  induction mfs generalizing w
  case nil => exact .refl
  case cons mf mfs hi =>
    refine (emits_sendMember hr hd (hm mf List.mem_cons_self)).trans (hi ?_)
    exact fun mf' h => hm mf' (List.mem_cons_of_mem _ h)

theorem emits_sendBundle {b : Bundle} {r : Option Bytes} (hr : B b)
    (hd : cfg.filt.deny b.groupIdx (bundleProbe b) = none) :
    Emits wire cfg (Justified wire cfg B) w (w.sendBundle wire cfg b r) := by
  have hp : Emits wire cfg (Justified wire cfg B) w (w.passBundle wire cfg b r) := by
    unfold passBundle
    split
    case isTrue =>
      split
      case h_1 => exact .refl
      case h_2 => exact .emit (.bundle hd)
    case isFalse => exact .refl
  simp only [sendBundle]
  split
  case isTrue  => exact hp.trans (emits_sendMembers hr hd fun _ => id)
  case isFalse => exact hp

theorem emits_deliverBundle {b : Bundle} {r : Option Bytes} {track : Bool} (hr : B b) :
    Emits wire cfg (Justified wire cfg B) w (w.deliverBundle wire cfg env b r track) := by
  have hc :
      (if b.seqNum = 0 then (true, w) else w.claim cfg env (bundleID b)).2.voice = w.voice := by
    split
    case isTrue  => rfl
    case isFalse => exact voice_claim
  simp only [deliverBundle]
  generalize (if b.seqNum = 0 then (true, w) else w.claim cfg env (bundleID b)) = c at hc ⊢
  have ho (w : Worker) : (if track = true then
      w.observeFrom cfg env b.groupIdx b.subtreeID b.hashKey b.seqNum else w).voice = w.voice := by
    split <;> rfl
  split
  case h_1 => exact .of_voice_eq rfl
  case h_2 hd =>
    split
    case isTrue  => exact .of_voice_eq ((ho _).trans hc)
    case isFalse =>
      split
      case isTrue  => exact .of_voice_eq (((ho _).trans voice_suppress).trans hc)
      case isFalse =>
        exact .from_voice (((ho _).trans voice_suppress).trans hc) (emits_sendBundle hr hd)

theorem emits_deliverChildren {bs : List Bundle} (hr : ∀ b ∈ bs, B b) :
    Emits wire cfg (Justified wire cfg B) w
      (bs.foldl (fun w b => w.deliverBundle wire cfg env b none false) w) := by
  induction bs generalizing w
  case nil => exact .refl
  case cons b bs hi =>
    refine (emits_deliverBundle (hr b List.mem_cons_self)).trans (hi ?_)
    exact fun b' h => hr b' (List.mem_cons_of_mem _ h)

theorem emits_processBundle (hr : ∀ b ∈ w.bundles wire cfg raw, B b) :
    Emits wire cfg (Justified wire cfg B) w (w.processBundle wire cfg env raw) := by
  unfold processBundle
  unfold bundles at hr
  split
  case h_1 => exact .of_voice_eq rfl
  case h_2 b hb =>
    rw [hb] at hr
    dsimp only at hr ⊢
    split
    case isTrue hc =>
      rw [if_pos hc] at hr
      refine .trans (.from_voice ?_ (emits_deliverChildren hr)) (.of_voice_eq rfl)
      split <;> rfl
    case isFalse hc =>
      rw [if_neg hc] at hr
      exact .from_voice rfl (emits_deliverBundle (hr b List.mem_cons_self))

-- What reassembly delivers has passed the check of the buffer.
theorem emits_deliver {tracked : Bool} {i : Instant} {d : Delivery}
    (ht : ∀ f, d = .tx f → f.version = FrameVer.v2 ∧ ¬Unverified wire cfg f) :
    Emits wire cfg (Justified wire cfg B) w
      ((hooks wire cfg env tracked).deliver wire.toFormats i d w) := by
  cases d
  case tx f =>
    obtain ⟨hv, hu⟩ := ht f rfl
    simp only [Hooks.deliver, hooks, deliverReassembled]
    split
    case h_1 => exact .of_voice_eq rfl
    case h_2 hd =>
      have hk : ¬Whole.Dropped wire cfg (.tx f) := not_or.mpr ⟨hu, not_not.mpr hd⟩
      split
      case isTrue  => exact .of_voice_eq (voice_claim.trans rfl)
      case isFalse =>
        split
        case h_1     => exact .of_voice_eq (voice_claim.trans rfl)
        case h_2 raw he =>
          refine .trans
            (.trans ?_ (emits_forward (.tx (.tx he hv) hk) (.mcast hd))) (.of_voice_eq rfl)
          exact .of_voice_eq (voice_claim.trans rfl)
  case block f =>
    simp only [Hooks.deliver, hooks, deliverReassembledBlock]
    split
    case h_1 => exact .of_voice_eq rfl
    case h_2 raw he =>
      split
      case h_1    => exact .of_voice_eq rfl
      case h_2 hg => exact .from_voice rfl (emits_sendBlock (.block (.block he) (not_not.mpr hg)))
  case subtreeData f =>
    simp only [Hooks.deliver, hooks, deliverReassembledSubtreeData]
    split
    case h_1        => exact .of_voice_eq rfl
    case h_2 raw he =>
      exact .from_voice rfl (emits_sendSubtreeData (.subtreeData (.subtreeData he)))
  case beef f =>
    simp only [Hooks.deliver, hooks, deliverReassembledBeefFrame]
    split
    case h_1        => exact .of_voice_eq rfl
    case h_2 raw he => exact .from_voice rfl (emits_deliverBeef (.beef he))

end Worker

namespace Node

open Worker Reassembly

variable {wire : Wire} {cfg : Settings} {env : Env} {n : Node} {raw : Bytes} {B : Bundle → Prop}

-- The bundles that are delivered in an event.
def bundles (wire : Wire) (cfg : Settings) (n : Node) : Event → List Bundle
  | .datagram _ raw => if wire.kind raw = .bundle then n.worker.bundles wire cfg raw else []
  | _               => []

-- Off the wire, a whole frame.
theorem emits_processFrame_whole (hf : wire.kind raw ≠ .fragment)
    (hb : wire.kind raw = .bundle → ∀ b ∈ n.worker.bundles wire cfg raw, B b) :
    Emits wire cfg (Justified wire cfg B) n.worker (n.processFrame wire cfg env raw).2.worker := by
  have hwhole : wire.whole raw = (wire.kind raw).pick ((wire.decodeBlock raw).map .block)
      ((wire.decodeSubtreeData raw).map .subtreeData)
        ((wire.decodeAnchor raw).map .anchor) none none
      ((wire.decodeBEEF raw).map .beef) ((wire.decode raw).map .tx) := Wire.dispatch
  simp only [processFrame, Wire.dispatch]
  generalize wire.kind raw = kind at hf hb hwhole ⊢
  cases kind
  case fragment => exact absurd rfl hf
  case block =>
    simp only [Wire.Kind.pick, processBlockFrame]
    split
    case h_1 => exact .of_voice_eq rfl
    case h_2 f hd =>
      have hp : Provided wire raw (.block f) := .whole (hwhole.trans (by simp [Wire.Kind.pick, hd]))
      split
      case h_1    => exact .of_voice_eq rfl
      case h_2 hg => exact .from_voice rfl (emits_sendBlock (.block hp (not_not.mpr hg)))
  case subtreeData =>
    simp only [Wire.Kind.pick, handle, processSubtreeDataFrame]
    split
    case h_1 => exact .of_voice_eq rfl
    case h_2 f hd =>
      have hp : Provided wire raw (.subtreeData f) :=
        .whole (hwhole.trans (by simp [Wire.Kind.pick, hd]))
      exact .from_voice rfl (emits_sendSubtreeData (.subtreeData hp))
  case anchor =>
    simp only [Wire.Kind.pick, handle, processAnchorFrame]
    split
    case h_1 => exact .of_voice_eq rfl
    case h_2 f hd =>
      have hp : Provided wire raw (.anchor f) :=
        .whole (hwhole.trans (by simp [Wire.Kind.pick, hd]))
      refine .trans ?_ (.of_voice_eq voice_observeFrom)
      split
      case isTrue =>
        refine .trans ?_ (.emit (.anchor hp))
        exact .of_voice_eq (voice_claim.trans rfl)
      case isFalse => exact .of_voice_eq (voice_claim.trans rfl)
  case bundle => exact emits_processBundle (hb rfl)
  case beef =>
    simp only [Wire.Kind.pick, handle, processBeefFrame]
    split
    case h_1 => exact .of_voice_eq rfl
    case h_2 f hd =>
      exact emits_deliverBeef (.whole (hwhole.trans (by simp [Wire.Kind.pick, hd])))
  case tx =>
    simp only [Wire.Kind.pick, handle, processTxFrame]
    split
    case h_1 => exact .of_voice_eq rfl
    case h_2 f hd =>
      have hp : Provided wire raw (.tx f) := .whole (hwhole.trans (by simp [Wire.Kind.pick, hd]))
      by_cases hu : Unverified wire cfg f
      case pos =>
        obtain ⟨m, _, e⟩ := verifyFrame_of_unverified hu
        rw [e]
        exact .of_voice_eq rfl
      case neg =>
        rw [verifyFrame_of_verified hu]
        exact .from_voice rfl (emits_deliverTx hp hu)

-- The transaction that a slot delivers has passed the check.
theorem verified_delivery {s : Slot} {payload : Bytes} {f : Frame}
    (hv : cfg.reassembly.verifyHash = cfg.verifyPayloadHash)
    (hs : cfg.reassembly.verifyHash → verified wire.toFormats s.origFrameVer s.txID payload)
    (hd : s.delivery payload = .tx f) : f.version = FrameVer.v2 ∧ ¬Unverified wire cfg f := by
  unfold Slot.delivery at hd
  split_ifs at hd with h4 h5 h9
  obtain rfl := Delivery.tx.inj hd
  refine ⟨rfl, fun hu => hu.2 ?_⟩
  have hok := hs (hv.trans hu.1.1)
  rwa [verified, if_neg h4, if_neg h5, if_neg h9] at hok

theorem emits_processFragment (hv : cfg.reassembly.verifyHash = cfg.verifyPayloadHash) :
    Emits wire cfg (Justified wire cfg B) n.worker (n.processFragment wire cfg env raw).worker := by
  unfold processFragment
  split
  case h_1 => exact .of_voice_eq rfl
  case h_2 b hb =>
    split
    case h_1 => exact .of_voice_eq rfl
    case h_2 ff hd =>
      let P (w : Worker) := Emits wire cfg (Justified wire cfg B) n.worker w
      have hs : (hooks wire cfg env n.worker.tracker.isSome).Spares P :=
        ⟨fun _ _ _ h => h.trans (.of_voice_eq rfl), fun _ _ _ h => h.trans (.of_voice_eq rfl)⟩
      have hp : P (Buffer.sweepIfDue cfg.reassembly (hooks wire cfg env n.worker.tracker.isSome)
          env.instant (b, n.worker)).2 := hs.sweepIfDue .refl
      refine Emits.trans ?_ (.of_voice_eq rfl)
      exact Buffer.gather_verified (P := P) hs.metric
        (fun s hok w hw => hw.trans (emits_deliver fun f hf => verified_delivery hv hok hf))
        (fun w hw => hw.trans (.of_voice_eq rfl)) hp

theorem emits_processFrame (hv : cfg.reassembly.verifyHash = cfg.verifyPayloadHash)
    (hb : wire.kind raw = .bundle → ∀ b ∈ n.worker.bundles wire cfg raw, B b) :
    Emits wire cfg (Justified wire cfg B) n.worker (n.processFrame wire cfg env raw).2.worker := by
  by_cases hf : wire.TakesFragment raw
  case pos =>
    rw [processFrame_of_fragment hf]
    exact emits_processFragment hv
  case neg => exact emits_processFrame_whole (hf ∘ Wire.takesFragment_iff.mpr) hb

-- One step of a worker.
theorem emits_react {ev : Event} (hv : cfg.reassembly.verifyHash = cfg.verifyPayloadHash)
    (hb : ∀ b ∈ n.bundles wire cfg ev, B b) :
    Emits wire cfg (Justified wire cfg B) n.worker (n.react wire cfg ev).worker := by
  cases ev
  case datagram env raw =>
    refine emits_processFrame hv fun hkind => ?_
    rwa [bundles, if_pos hkind] at hb
  case tracker op       => exact .of_voice_eq rfl
  case tick env =>
    simp only [react, tick]
    split
    case h_1 => exact .refl
    case h_2 b hb =>
      let P (w : Worker) := Emits wire cfg (Justified wire cfg B) n.worker w
      have hs : (hooks wire cfg env n.worker.tracker.isSome).Spares P :=
        ⟨fun _ _ _ h => h.trans (.of_voice_eq rfl), fun _ _ _ h => h.trans (.of_voice_eq rfl)⟩
      exact hs.evictExpired (p := (b, n.worker)) .refl

-- A whole run.
theorem emits_exec (evs : List Event) (hv : cfg.reassembly.verifyHash = cfg.verifyPayloadHash)
    (hb : Run.Along (react wire cfg) (fun n ev => ∀ b ∈ n.bundles wire cfg ev, B b) n evs) :
    Emits wire cfg (Justified wire cfg B) n.worker (Run.exec (react wire cfg) n evs).worker := by
  induction evs generalizing n
  case nil            => exact .refl
  case cons ev evs hi => exact (emits_react hv hb.1).trans (hi hb.2)

end Node
