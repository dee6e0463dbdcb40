import ShardListener.Worker.Cluster
import ShardListener.Worker.Theorems.Delivery

-- A worker forwards what it has claimed and been granted.

namespace Worker

open Reassembly

-- The call hands over what is claimed under the key.
def Egress.Carries (wire : Wire) (key : Bytes32) : Egress → Prop
  | send _ f     => f.txID = key
  | sendBeef _ f => wire.pairKey f.contentID f.topicID = key
  | _            => False

instance {wire : Wire} {key : Bytes32} : DecidablePred (Egress.Carries wire key)
  | .send ..            => inferInstanceAs (Decidable (_ = _))
  | .sendBeef ..        => inferInstanceAs (Decidable (_ = _))
  | .sendBlock ..       => .isFalse id
  | .sendSubtreeData .. => .isFalse id
  | .sendBundle ..      => .isFalse id
  | .mcast ..           => .isFalse id
  | .header ..          => .isFalse id

def forwards (wire : Wire) (key : Bytes32) (w : Worker) : Nat :=
  w.egress.countP (Egress.Carries wire key ·)

-- A worker without a dedup set gets none.
def Bare (w w' : Worker) : Prop :=
  w.dedupSet = none → w'.dedupSet = none

-- A frame that is claimed under the key is forwarded once or not at all, and only if the claim is
-- granted. Without a dedup set, it is if the claim is granted and the frame can be encoded.
structure Serves (wire : Wire) (key : Bytes32) (encodable granted : Prop)
    (w w' : Worker) : Prop where
  once : w'.forwards wire key ≤ w.forwards wire key + 1
  only : w.forwards wire key < w'.forwards wire key → granted
  sure : encodable → w.dedupSet = none → granted → w.forwards wire key < w'.forwards wire key

variable {wire : Wire} {cfg : Settings} {env : Env} {key : Bytes32} {E P : Prop}
variable {w w' w₁ w₂ : Worker}
variable {raw : Bytes}

theorem forwards_of_voice_eq (h : w'.voice = w.voice) :
    w'.forwards wire key = w.forwards wire key := by
  have he : w'.egress = w.egress := congrArg Prod.fst h
  rw [forwards, he, forwards]

theorem forwards_emit {k : Egress} :
    (w.emit k).forwards wire key = w.forwards wire key + if k.Carries wire key then 1 else 0 := by
  simp [forwards, emit, List.countP_append, List.countP_singleton]

namespace Bare

theorem of_eq (h : w'.dedupSet = w.dedupSet) : Bare w w' :=
  h.trans

theorem refl : Bare w w :=
  of_eq rfl

theorem trans (h₁ : Bare w w₁) (h₂ : Bare w₁ w₂) : Bare w w₂ :=
  h₂ ∘ h₁

theorem from_eq {v : Worker} (hb : Bare v w') (h : v.dedupSet = w.dedupSet) : Bare w w' :=
  (of_eq h).trans hb

end Bare

-- What happens to the dedup set.

theorem bare_claim {id : Bytes32} : Bare w (w.claim cfg env id).2 := by
  unfold claim
  split
  case isTrue  => split <;> exact .of_eq rfl
  case isFalse => exact .refl

theorem bare_suppress {k : Dedup.Key} : Bare w (w.suppress env k).2 := by
  intro hs
  rw [suppress_of_no_set hs]
  exact hs

theorem bare_forward {f : Frame} {g : GroupIdx} : Bare w (w.forward cfg raw f g) := by
  simp only [forward]
  split <;> exact .of_eq rfl

theorem bare_dedupFrame {f : Frame} {g : GroupIdx} : Bare w (w.dedupFrame cfg env f g).2 := by
  simp only [dedupFrame]
  split
  case isTrue =>
    split
    case isTrue  => exact bare_claim
    case isFalse => exact bare_claim.trans bare_suppress
  case isFalse => exact .refl

theorem bare_deliverTx {f : Frame} : Bare w (w.deliverTx cfg env raw f) := by
  simp only [deliverTx]
  split
  case h_1 => exact .of_eq rfl
  case h_2 =>
    have hd {g : GroupIdx} : Bare w (if (w.dedupFrame cfg env f g).1 then
        (w.dedupFrame cfg env f g).2.forward cfg raw f g else (w.dedupFrame cfg env f g).2) := by
      split
      case isTrue  => exact bare_dedupFrame.trans bare_forward
      case isFalse => exact bare_dedupFrame
    split
    case isTrue  => exact hd.trans (.of_eq rfl)
    case isFalse => exact hd

theorem bare_processTxFrame : Bare w (w.processTxFrame wire cfg env raw) := by
  unfold processTxFrame
  split
  case h_1 => exact .of_eq rfl
  case h_2 f _ =>
    dsimp only
    by_cases hu : Unverified wire cfg f
    case pos =>
      obtain ⟨m, _, e⟩ := verifyFrame_of_unverified hu
      rw [e]
      exact .of_eq rfl
    case neg =>
      rw [verifyFrame_of_verified hu]
      exact bare_deliverTx.from_eq rfl

theorem bare_deliverBeef {f : BEEFFrame} : Bare w (w.deliverBeef wire cfg env raw f) := by
  unfold deliverBeef
  split
  case h_1 => exact .of_eq rfl
  case h_2 =>
    dsimp only
    split
    case isTrue  => exact .of_eq rfl
    case isFalse =>
      split
      case h_1 => exact .of_eq rfl
      case h_2 =>
        refine .from_eq (v := w.count (.received .brc148)) ?_ rfl
        split
        case isTrue  => exact bare_claim.trans (.of_eq rfl)
        case isFalse =>
          split <;> exact (bare_claim.trans bare_suppress).trans (.of_eq rfl)

theorem bare_processAnchorFrame : Bare w (w.processAnchorFrame wire cfg env raw) := by
  unfold processAnchorFrame
  split
  case h_1 => exact .of_eq rfl
  case h_2 =>
    dsimp only
    refine .trans (.from_eq (v := w.count (.received .brc134)) ?_ rfl) (.of_eq rfl)
    split
    case isTrue  => exact bare_claim.trans (.of_eq rfl)
    case isFalse => exact bare_claim

theorem bare_sendMember {b : Bundle} {mf : Frame} : Bare w (sendMember wire cfg b w mf) := by
  simp only [sendMember]
  split
  case h_1 => exact .of_eq rfl
  case h_2 => split <;> split <;> exact .of_eq rfl

theorem bare_sendMembers {b : Bundle} {mfs : List Frame} :
    Bare w (mfs.foldl (sendMember wire cfg b) w) := by
  induction mfs generalizing w
  case nil            => exact .refl
  case cons mf mfs hi => exact bare_sendMember.trans hi

theorem bare_sendBundle {b : Bundle} {r : Option Bytes} : Bare w (w.sendBundle wire cfg b r) := by
  have hp : Bare w (w.passBundle wire cfg b r) := by
    unfold passBundle
    split
    case isTrue  => split <;> exact .of_eq rfl
    case isFalse => exact .refl
  simp only [sendBundle]
  split
  case isTrue  => exact hp.trans bare_sendMembers
  case isFalse => exact hp

theorem bare_deliverBundle {b : Bundle} {r : Option Bytes} {track : Bool} :
    Bare w (w.deliverBundle wire cfg env b r track) := by
  have hc : Bare w (if b.seqNum = 0 then (true, w) else w.claim cfg env (bundleID b)).2 := by
    split
    case isTrue  => exact .refl
    case isFalse => exact bare_claim
  have ho {w : Worker} : Bare w (if track = true then
      w.observeFrom cfg env b.groupIdx b.subtreeID b.hashKey b.seqNum else w) := by
    split <;> exact .of_eq rfl
  simp only [deliverBundle]
  generalize (if b.seqNum = 0 then (true, w) else w.claim cfg env (bundleID b)) = c at hc ⊢
  split
  case h_1 => exact .of_eq rfl
  case h_2 =>
    split
    case isTrue  => exact hc.trans ho
    case isFalse =>
      split
      case isTrue  => exact (hc.trans bare_suppress).trans ho
      case isFalse => exact ((hc.trans bare_suppress).trans ho).trans bare_sendBundle

theorem bare_deliverChildren {bs : List Bundle} :
    Bare w (bs.foldl (fun w b => w.deliverBundle wire cfg env b none false) w) := by
  induction bs generalizing w
  case nil          => exact .refl
  case cons b bs hi => exact bare_deliverBundle.trans hi

theorem bare_processBundle : Bare w (w.processBundle wire cfg env raw) := by
  unfold processBundle
  split
  case h_1 => exact .of_eq rfl
  case h_2 =>
    dsimp only
    split
    case isTrue =>
      refine .trans (.trans ?_ bare_deliverChildren) (.of_eq rfl)
      split <;> exact .of_eq rfl
    case isFalse => exact bare_deliverBundle.from_eq rfl

theorem bare_deliver {tracked : Bool} {i : Instant} {d : Delivery} :
    Bare w ((hooks wire cfg env tracked).deliver wire.toFormats i d w) := by
  cases d
  case tx f =>
    simp only [Hooks.deliver, hooks, deliverReassembled]
    split
    case h_1 => exact .of_eq rfl
    case h_2 =>
      refine .from_eq (v := (w.count .reassemblyCompleted).count (.received .brc130)) ?_ rfl
      split
      case isTrue  => exact bare_claim.trans (.of_eq rfl)
      case isFalse =>
        split
        case h_1 => exact bare_claim
        case h_2 => exact (bare_claim.trans bare_forward).trans (.of_eq rfl)
  case block f =>
    simp only [Hooks.deliver, hooks, deliverReassembledBlock]
    split
    case h_1 => exact .of_eq rfl
    case h_2 =>
      split
      case h_1 => exact .of_eq rfl
      case h_2 => exact Bare.from_eq (.of_eq dedupSet_sendBlock) rfl
  case subtreeData f =>
    simp only [Hooks.deliver, hooks, deliverReassembledSubtreeData]
    split <;> exact .of_eq rfl
  case beef f =>
    simp only [Hooks.deliver, hooks, deliverReassembledBeefFrame]
    split
    case h_1 => exact .of_eq rfl
    case h_2 => exact bare_deliverBeef.from_eq rfl

-- The callbacks of the buffer that deliver nothing.
theorem spares_bare {tracked : Bool} : (hooks wire cfg env tracked).Spares (Bare w) :=
  ⟨fun _ _ _ h => h.trans (.of_eq rfl), fun _ _ _ h => h.trans (.of_eq rfl)⟩

-- The rules for frames that are claimed.

namespace Serves

theorem of_voice_eq (hv : w'.voice = w.voice)
    (hno : E → w.dedupSet = none → ¬P) : Serves wire key E P w w' where
  once          := (forwards_of_voice_eq hv).le.trans (Nat.le_succ _)
  only hlt      := absurd (forwards_of_voice_eq hv) hlt.ne'
  sure he hs hp := absurd hp (hno he hs)

theorem after {v : Worker} (h : Serves wire key E P v w') (hv : v.voice = w.voice) (hb : Bare w v) :
    Serves wire key E P w w' where
  once       := forwards_of_voice_eq hv ▸ h.once
  only       := forwards_of_voice_eq hv ▸ h.only
  sure he hs := forwards_of_voice_eq hv ▸ h.sure he (hb hs)

theorem before (h : Serves wire key E P w w₁) (he : w₂.forwards wire key = w₁.forwards wire key) :
    Serves wire key E P w w₂ where
  once := he ▸ h.once
  only := he ▸ h.only
  sure := he ▸ h.sure

theorem observed {g : GroupIdx} {subtreeID : Bytes32} {hashKey : HashKey} {seqNum : SeqNum}
    (h : Serves wire key E P w w₁) :
    Serves wire key E P w (w₁.observeFrom cfg env g subtreeID hashKey seqNum) :=
  h.before rfl

theorem emit {k : Egress} (hk : k.Carries wire key) (hp : P) :
    Serves wire key E P w (w.emit k) := by
  have e : (w.emit k).forwards wire key = w.forwards wire key + 1 := by
    rw [forwards_emit, if_pos hk]
  exact ⟨e.le, fun _ => hp, fun _ _ _ => e ▸ Nat.lt_succ_self _⟩

theorem after_claim (cfg : Settings) (env : Env) (id : Bytes32)
    (h : Serves wire key E P (w.claim cfg env id).2 w') : Serves wire key E P w w' :=
  h.after voice_claim bare_claim

theorem after_suppress {k : Dedup.Key} (h : Serves wire key E P (w.suppress env k).2 w') :
    Serves wire key E P w w' :=
  h.after voice_suppress bare_suppress

end Serves

theorem claim_iff {id : Bytes32} (ht : cfg.txDedup) :
    (w.claim cfg env id).1 ↔ env.claim id ≠ .taken := by
  rw [claim, if_pos ht]
  cases env.claim id <;> simp

theorem taken_of_claim {id : Bytes32} (ht : cfg.txDedup) (h : (w.claim cfg env id).1 = false) :
    ¬env.claim id ≠ .taken := by
  intro hno
  rw [(claim_iff ht).mpr hno] at h
  cases h

theorem dedupSet_of_suppress {k : Dedup.Key} (h : (w.suppress env k).1) : w.dedupSet ≠ none := by
  intro hn
  rw [suppress_of_no_set hn] at h
  cases h

theorem serves_forward {f : Frame} {g : GroupIdx} (hk : f.txID = key) (hp : P) :
    Serves wire key E P w (w.forward cfg raw f g) := by
  have hs : Serves wire key E P w (w.emit (.send raw f)) := .emit hk hp
  simp only [forward]
  split
  case isTrue  => exact hs.before forwards_emit
  case isFalse => exact hs

-- The handlers.

theorem serves_deliverBeef {f : BEEFFrame} (ht : cfg.txDedup)
    (hk : (Whole.beef f).claims wire cfg = some key) :
    Serves wire key E (env.claim key ≠ .taken) w (w.deliverBeef wire cfg env raw f) := by
  obtain ⟨hd, hk⟩ := Option.ite_none_left_eq_some.mp hk
  obtain rfl := Option.some_inj.mp hk
  obtain ⟨hf, hel⟩ := not_or.mp hd
  obtain ⟨he, hc⟩ := not_or.mp hf
  obtain ⟨engine, he⟩ := Option.ne_none_iff_exists'.mp he
  simp only [deliverBeef, he, if_neg hc, not_not.mp hel]
  refine .after (v := w.count (.received .brc148)) ?_ rfl (.of_eq rfl)
  split
  case isTrue hno => exact .of_voice_eq (by simp) fun _ _ => taken_of_claim ht hno
  case isFalse hyes =>
    have hgrant := (claim_iff ht).mp (Bool.of_not_eq_false hyes)
    refine .after_claim cfg env (wire.pairKey f.contentID f.topicID) ?_
    split
    case isTrue hsup =>
      exact .of_voice_eq (by simp) fun _ hs => absurd hs (dedupSet_of_suppress hsup)
    case isFalse =>
      have hc : (Egress.sendBeef raw f).Carries wire (wire.pairKey f.contentID f.topicID) := rfl
      exact .after_suppress (.before (.emit hc hgrant) rfl)

theorem serves_deliverTx {f : Frame} (ht : cfg.txDedup)
    (hk : (Whole.tx f).claims wire cfg = some key) :
    Serves wire key E (env.claim key ≠ .taken) w (w.deliverTx cfg env raw f) := by
  obtain ⟨⟨hv, hd⟩, hk⟩ := Option.ite_none_right_eq_some.mp hk
  obtain rfl := Option.some_inj.mp hk
  simp only [deliverTx, not_not.mp (not_or.mp hd).2, if_pos hv]
  refine .observed ?_
  simp only [dedupFrame, if_pos hv]
  by_cases hno : (w.claim cfg env f.txID).1 = false
  case pos =>
    rw [if_pos hno, if_neg (by simp [hno])]
    exact .of_voice_eq voice_claim fun _ _ => taken_of_claim ht hno
  case neg =>
    have hgrant := (claim_iff ht).mp (Bool.of_not_eq_false hno)
    rw [if_neg hno]
    dsimp only
    refine .after_claim cfg env f.txID ?_
    split
    case isTrue       => exact .after_suppress (serves_forward rfl hgrant)
    case isFalse hsup =>
      rw [Bool.not_eq_true', Bool.not_eq_false] at hsup
      exact .of_voice_eq voice_suppress fun _ hs => absurd hs (dedupSet_of_suppress hsup)

theorem serves_processAnchorFrame {f : Frame} (ht : cfg.txDedup)
    (hd : wire.decodeAnchor raw = some f) :
    Serves wire f.txID E (env.claim f.txID ≠ .taken) w (w.processAnchorFrame wire cfg env raw) := by
  simp only [processAnchorFrame, hd]
  refine .observed (.after (v := w.count (.received .brc134)) ?_ rfl (.of_eq rfl))
  split
  case isTrue hyes => exact .after_claim cfg env f.txID (.emit rfl ((claim_iff ht).mp hyes))
  case isFalse hno =>
    exact .of_voice_eq voice_claim fun _ _ => taken_of_claim ht (Bool.eq_false_of_not_eq_true hno)

-- What comes out of reassembly.
theorem serves_deliver {tracked : Bool} {i : Instant} {d : Delivery} (ht : cfg.txDedup)
    (hk : d.claims wire cfg = some key)
    (he : E → ∀ f, d = .tx f → f.txID = key → (wire.encode f).isSome) :
    Serves wire key E (env.claim key ≠ .taken) w
      ((hooks wire cfg env tracked).deliver wire.toFormats i d w) := by
  cases d
  case block       => cases hk
  case subtreeData => cases hk
  case tx f =>
    obtain ⟨hd, hk⟩ := Option.ite_none_left_eq_some.mp hk
    obtain rfl := Option.some_inj.mp hk
    simp only [Hooks.deliver, hooks, deliverReassembled, not_not.mp hd]
    refine .after (v := (w.count .reassemblyCompleted).count (.received .brc130)) ?_ rfl
      (.of_eq rfl)
    split
    case isTrue hno => exact .of_voice_eq (by simp) fun _ _ => taken_of_claim ht hno
    case isFalse hyes =>
      have hgrant := (claim_iff ht).mp (Bool.of_not_eq_false hyes)
      refine .after_claim cfg env f.txID ?_
      split
      case h_1 hn => exact .of_voice_eq rfl fun h _ _ => by simpa [hn] using he h f rfl rfl
      case h_2    => exact (serves_forward rfl hgrant).observed
  case beef f =>
    obtain ⟨he, hk⟩ := Option.ite_none_right_eq_some.mp hk
    obtain ⟨raw, he⟩ := Option.isSome_iff_exists.mp he
    have hb : wire.encodeBEEF f (Slot.whole wire.toFormats f.payload) = some raw := he
    simp only [Hooks.deliver, hooks, deliverReassembledBeefFrame, hb]
    exact (serves_deliverBeef ht hk).after rfl (.of_eq rfl)

end Worker

namespace Reassembly.Buffer

variable {ω : Type} {fmt : Formats} {cfg : Config} {h : Hooks ω} {i : Instant} {ff : FragFrame}
variable {p : Buffer × ω} {P Q : ω → Prop} {s : Slot}

-- The rule for the callbacks' state when an object is delivered.
theorem gather_delivering (hs : delivering fmt cfg h i p.1 ff = some s)
    (hm : ∀ m w, P w → P (h.metric m w))
    (hd : ∀ w, P w → Q (h.deliver fmt i (s.delivery (s.payload.getD s.assembled)) w))
    (hp : P p.2) : Q (gather fmt cfg h i ff p).2 := by
  obtain ⟨hc, hv⟩ := Option.filter_eq_some_iff.mp hs
  obtain ⟨p', e, hp'⟩ := gather_completing (fun m w _ => hm m w) hc hp
  have hl : P (if s.extended then h.metric .lateDone p'.2 else p'.2) := by
    split
    case isTrue  => exact hm _ _ hp'
    case isFalse => exact hp'
  rw [e]
  simp only [complete]
  rw [if_neg (by simpa [imp_iff_not_or] using hv)]
  exact hd _ hl

end Reassembly.Buffer

namespace Node

open Worker Reassembly

variable {wire : Wire} {cfg : Settings} {env : Env} {key : Bytes32} {n : Node} {raw : Bytes}
variable {ev : Event}

theorem bare_processFragment : Bare n.worker (n.processFragment wire cfg env raw).worker := by
  unfold processFragment
  split
  case h_1 => exact .of_eq rfl
  case h_2 b hb =>
    split
    case h_1 => exact .of_eq rfl
    case h_2 ff hd =>
      refine Bare.trans ?_ (.of_eq rfl)
      exact Buffer.gather_verified spares_bare.metric (fun s _ w hw => hw.trans bare_deliver)
        (fun w hw => hw.trans (.of_eq rfl)) (spares_bare.sweepIfDue (p := (b, n.worker)) .refl)

theorem bare_processFrame : Bare n.worker (n.processFrame wire cfg env raw).2.worker := by
  simp only [processFrame, Wire.dispatch]
  generalize wire.kind raw = kind
  cases kind
  case fragment => exact bare_processFragment
  case bundle   => exact bare_processBundle
  case anchor   => exact bare_processAnchorFrame
  case tx       => exact bare_processTxFrame
  case block =>
    simp only [Wire.Kind.pick, processBlockFrame]
    split
    case h_1 => exact .of_eq rfl
    case h_2 =>
      split
      case h_1 => exact .of_eq rfl
      case h_2 => exact Bare.from_eq (.of_eq dedupSet_sendBlock) rfl
  case subtreeData =>
    simp only [Wire.Kind.pick, handle, processSubtreeDataFrame]
    split <;> exact .of_eq rfl
  case beef =>
    simp only [Wire.Kind.pick, handle, processBeefFrame]
    split
    case h_1 => exact .of_eq rfl
    case h_2 => exact bare_deliverBeef

theorem bare_react : Bare n.worker (n.react wire cfg ev).worker := by
  cases ev
  case datagram env raw => exact bare_processFrame
  case tracker op       => exact .of_eq rfl
  case tick env =>
    simp only [react, tick]
    split
    case h_1 => exact .refl
    case h_2 b hb => exact spares_bare.evictExpired (p := (b, n.worker)) .refl

theorem serves_processFragment (ht : cfg.txDedup)
    (hk : (n.delivered wire cfg env raw).bind (Delivery.claims wire cfg) = some key)
    (he : E → ∀ f, n.delivered wire cfg env raw = some (.tx f) → f.txID = key →
      (wire.encode f).isSome) :
    Serves wire key E (env.claim key ≠ .taken) n.worker
      (n.processFragment wire cfg env raw).worker := by
  simp only [delivered] at hk he
  unfold processFragment
  split
  case h_1 hb => simp [hb] at hk
  case h_2 b hb =>
    split
    case h_1 hd => simp [hd] at hk
    case h_2 ff hd =>
      simp only [hb, hd] at hk he
      obtain ⟨d, hd, hk⟩ := Option.bind_eq_some_iff.mp hk
      obtain ⟨s, hs, rfl⟩ := Option.map_eq_some_iff.mp hd
      rw [hs] at he
      let h := hooks wire cfg env n.worker.tracker.isSome
      let P (w : Worker) := w.voice = n.worker.voice ∧ Bare n.worker w
      have hspares : h.Spares P :=
        ⟨fun _ _ _ hw => ⟨hw.1, hw.2.trans (.of_eq rfl)⟩,
          fun _ _ _ hw => ⟨hw.1, hw.2.trans (.of_eq rfl)⟩⟩
      have he (h : E) (f : Frame) (hf : s.delivery (s.payload.getD s.assembled) = .tx f) :=
        he h f (congrArg some hf)
      refine Serves.observed ?_
      exact Buffer.gather_delivering (P := P) (Q := Serves wire key E _ n.worker) hs
        (fun _ _ hw => ⟨hw.1, hw.2.trans (.of_eq rfl)⟩)
        (fun w hw => (serves_deliver ht hk he).after hw.1 hw.2)
        (hspares.sweepIfDue (p := (b, n.worker)) ⟨rfl, .refl⟩)

theorem serves_processFrame_whole {F : Whole} (ht : cfg.txDedup) (hF : wire.whole raw = some F)
    (hk : F.claims wire cfg = some key) :
    Serves wire key E (env.claim key ≠ .taken) n.worker
      (n.processFrame wire cfg env raw).2.worker := by
  simp only [Wire.whole, Wire.dispatch] at hF
  simp only [processFrame, Wire.dispatch]
  generalize wire.kind raw = kind at hF ⊢
  cases kind
  case fragment => cases hF
  case bundle   => cases hF
  case block =>
    obtain ⟨f, _, rfl⟩ := Option.map_eq_some_iff.mp hF
    cases hk
  case subtreeData =>
    obtain ⟨f, _, rfl⟩ := Option.map_eq_some_iff.mp hF
    cases hk
  case anchor =>
    obtain ⟨f, hd, rfl⟩ := Option.map_eq_some_iff.mp hF
    obtain rfl := Option.some_inj.mp hk
    exact serves_processAnchorFrame ht hd
  case beef =>
    obtain ⟨f, hd, rfl⟩ := Option.map_eq_some_iff.mp hF
    simp only [Wire.Kind.pick, handle, processBeefFrame, hd]
    exact serves_deliverBeef ht hk
  case tx =>
    obtain ⟨f, hd, rfl⟩ := Option.map_eq_some_iff.mp hF
    have hu : ¬Unverified wire cfg f :=
      (not_or.mp (Option.ite_none_right_eq_some.mp hk).1.2).1
    simp only [Wire.Kind.pick, handle, processTxFrame, hd, verifyFrame_of_verified hu]
    exact (serves_deliverTx ht hk).after rfl (.of_eq rfl)

theorem serves_processFrame (ht : cfg.txDedup) (hk : n.frameClaim wire cfg env raw = some key) :
    Serves wire key (Event.Reencodes wire cfg key n (.datagram env raw)) (env.claim key ≠ .taken)
      n.worker (n.processFrame wire cfg env raw).2.worker := by
  unfold frameClaim at hk
  split at hk
  case isTrue hf =>
    rw [processFrame_of_fragment (Wire.takesFragment_iff.mpr hf)]
    exact serves_processFragment ht hk fun he => he hf
  case isFalse =>
    obtain ⟨F, hF, hk⟩ := Option.bind_eq_some_iff.mp hk
    exact serves_processFrame_whole ht hF hk

theorem serves_react (ht : cfg.txDedup) (hk : ev.frameClaim wire cfg n = some key) :
    Serves wire key (ev.Reencodes wire cfg key n) (ev.answer key ≠ .taken) n.worker
      (n.react wire cfg ev).worker := by
  cases ev
  case datagram => exact serves_processFrame ht hk
  case tick     => cases hk
  case tracker  => cases hk

end Node
