import ShardListener.Reassembly.Theorems.Requests
import ShardListener.Worker.System
import ShardListener.Worker.Theorems.Election

namespace Reassembly

-- The frame of an object carries the stamp of its slot.
theorem Slot.isBeef_delivery {s : Slot} {payload : Bytes} :
    (s.delivery payload).isBeef = decide (s.origFrameVer = FrameVer.v9) := by
  unfold Slot.delivery
  split
  case isTrue h => rw [h]; rfl
  case isFalse =>
    split
    case isTrue h => rw [h]; rfl
    case isFalse =>
      split
      case isTrue h  => simp [h, Delivery.isBeef]
      case isFalse h => simp [h, Delivery.isBeef]

end Reassembly

namespace Worker

variable {wire : Wire} {cfg : Settings} {env : Env} {w w₁ w' : Worker} {raw : Bytes}
variable {A : Nack.Arrival → Prop} {T : Nack.Tracker → Prop} {hk : HashKey} {seq : SeqNum}

-- What holds of the worker's tracker, if it has one.
def Keeps (T : Nack.Tracker → Prop) (w : Worker) : Prop :=
  ∀ t, w.tracker = some t → T t

theorem Keeps.of_eq (hw : w.Keeps T) (h : w'.tracker = w.tracker) : w'.Keeps T :=
  fun t ht => hw t (h.symm.trans ht)

theorem Keeps.map {f : Nack.Tracker → Nack.Tracker} (hw : w.Keeps T)
    (h : w'.tracker = w.tracker.map f) (hf : ∀ t, T t → T (f t)) : w'.Keeps T := by
  intro t ht
  have ⟨t₀, ht₀, e⟩ := Option.map_eq_some_iff.mp (h.symm.trans ht)
  exact e ▸ hf t₀ (hw t₀ ht₀)

theorem Tracks.keeps (h : Tracks cfg env A w w')
    (hf : ∀ a, A a → ∀ t, T t → T (t.observeFrom cfg.nack env.instant a)) (hw : w.Keeps T) :
    w'.Keeps T := by
  rcases h with e | ⟨a, ha, e⟩
  case inl => exact hw.of_eq e
  case inr => exact hw.map e (hf a ha)

-- Each class reports its frame, if it can be decoded, at most once. The children of a re-bucketed
-- bundle are not reported.

theorem tracks_processBlockFrame {f : BlockFrame} (hd : wire.decodeBlock raw = some f) :
    Tracks cfg env (Reports cfg env false f.hashKey f.seqNum) w
      (w.processBlockFrame wire cfg env raw).2 := by
  simp only [processBlockFrame, hd]
  split
  case h_1 => exact .inl rfl
  case h_2 => exact tracks_sendBlock rfl

theorem tracks_processSubtreeDataFrame {f : SubtreeDataFrame}
    (hd : wire.decodeSubtreeData raw = some f) :
    Tracks cfg env (Reports cfg env false f.hashKey f.seqNum) w
      (w.processSubtreeDataFrame wire cfg env raw) := by
  simp only [processSubtreeDataFrame, hd]
  exact tracks_observeFrom rfl

theorem tracks_processAnchorFrame {f : Frame} (hd : wire.decodeAnchor raw = some f) :
    Tracks cfg env (Reports cfg env false f.hashKey f.seqNum) w
      (w.processAnchorFrame wire cfg env raw) := by
  simp only [processAnchorFrame, hd]
  apply tracks_observeFrom
  split
  case isTrue  => simp
  case isFalse => simp

theorem tracks_processBeefFrame {f : BEEFFrame} (hd : wire.decodeBEEF raw = some f) :
    Tracks cfg env (Reports cfg env true f.hashKey f.seqNum) w
      (w.processBeefFrame wire cfg env raw) := by
  simp only [processBeefFrame, hd]
  exact tracks_deliverBeef rfl

theorem tracker_dedupFrame {f : Frame} {g : GroupIdx} :
    (w.dedupFrame cfg env f g).2.tracker = w.tracker := by
  simp only [dedupFrame]
  split
  case isFalse => rfl
  case isTrue =>
    split
    case isTrue  => exact tracker_claim
    case isFalse => exact tracker_suppress.trans tracker_claim

theorem tracks_deliverTx {f : Frame} (h : w₁.tracker = w.tracker) :
    Tracks cfg env (Reports cfg env false f.hashKey f.seqNum) w (w₁.deliverTx cfg env raw f) := by
  have hd (g : GroupIdx) : (if (w₁.dedupFrame cfg env f g).1 then
      (w₁.dedupFrame cfg env f g).2.forward cfg raw f g
        else (w₁.dedupFrame cfg env f g).2).tracker = w.tracker := by
    split
    case isTrue  => exact tracker_forward.trans (tracker_dedupFrame.trans h)
    case isFalse => exact tracker_dedupFrame.trans h
  simp only [deliverTx]
  split
  case h_1 => exact .inl h
  case h_2 =>
    split
    case isTrue  => exact tracks_observeFrom (hd _)
    case isFalse => exact .inl (hd _)

theorem tracks_processTxFrame {f : Frame} (hd : wire.decode raw = some f) :
    Tracks cfg env (Reports cfg env false f.hashKey f.seqNum) w
      (w.processTxFrame wire cfg env raw) := by
  simp only [processTxFrame, hd]
  by_cases hu : Unverified wire cfg f
  case pos =>
    obtain ⟨m, _, e⟩ := verifyFrame_of_unverified hu
    rw [e]
    exact .inl rfl
  case neg =>
    rw [verifyFrame_of_verified hu]
    exact tracks_deliverTx rfl

theorem tracker_sendMembers {b : Bundle} {mfs : List Frame} :
    (mfs.foldl (sendMember wire cfg b) w).tracker = w.tracker := by
  induction mfs generalizing w
  case nil => rfl
  case cons mf mfs hi =>
    apply hi.trans
    simp only [sendMember]
    repeat' split
    all_goals rfl

theorem tracker_sendBundle {b : Bundle} {r : Option Bytes} :
    (w.sendBundle wire cfg b r).tracker = w.tracker := by
  have hw : (w.passBundle wire cfg b r).tracker = w.tracker := by
    simp only [passBundle]
    repeat' split
    all_goals rfl
  simp only [sendBundle]
  split
  case isTrue  => exact tracker_sendMembers.trans hw
  case isFalse => exact hw

-- The state in which a bundle has passed the cross-listener store, or has not been asked about.
theorem tracker_claimBundle (cfg : Settings) (env : Env) (w : Worker) (b : Bundle) :
    (if b.seqNum = 0 then (true, w) else w.claim cfg env (bundleID b)).2.tracker = w.tracker := by
  split
  case isTrue  => rfl
  case isFalse => exact tracker_claim

theorem tracks_deliverBundle {b : Bundle} {r : Option Bytes} (h : w₁.tracker = w.tracker) :
    Tracks cfg env (Reports cfg env false b.hashKey b.seqNum) w
      (w₁.deliverBundle wire cfg env b r true) := by
  have hc := (tracker_claimBundle cfg env w₁ b).trans h
  simp only [deliverBundle, if_true]
  generalize (if b.seqNum = 0 then (true, w₁) else w₁.claim cfg env (bundleID b)) = c at hc ⊢
  split
  case h_1 => exact .inl h
  case h_2 =>
    split
    case isTrue => exact tracks_observeFrom hc
    case isFalse =>
      split
      case isTrue => exact tracks_observeFrom (tracker_suppress.trans hc)
      case isFalse =>
        rcases tracks_observeFrom (tracker_suppress.trans hc) with e | ⟨a, ha, e⟩
        case inl => exact .inl (tracker_sendBundle.trans e)
        case inr => exact .inr ⟨a, ha, tracker_sendBundle.trans e⟩

theorem tracker_deliverChild {b : Bundle} {r : Option Bytes} :
    (w.deliverBundle wire cfg env b r false).tracker = w.tracker := by
  have hc := tracker_claimBundle cfg env w b
  simp only [deliverBundle, Bool.false_eq_true, if_false]
  generalize (if b.seqNum = 0 then (true, w) else w.claim cfg env (bundleID b)) = c at hc ⊢
  split
  case h_1 => rfl
  case h_2 =>
    split
    case isTrue => exact hc
    case isFalse =>
      split
      case isTrue  => exact tracker_suppress.trans hc
      case isFalse => exact tracker_sendBundle.trans (tracker_suppress.trans hc)

theorem tracker_deliverChildren {bs : List Bundle} :
    (bs.foldl (fun w b => w.deliverBundle wire cfg env b none false) w).tracker = w.tracker := by
  induction bs generalizing w
  case nil          => rfl
  case cons b bs hi => exact hi.trans tracker_deliverChild

theorem tracks_processBundle {b : Bundle} (hd : wire.decodeBundle raw = some b) :
    Tracks cfg env (Reports cfg env false b.hashKey b.seqNum) w
      (w.processBundle wire cfg env raw) := by
  simp only [processBundle, hd]
  split
  case isTrue =>
    apply tracks_observeFrom
    apply tracker_deliverChildren.trans
    split
    case isTrue  => rfl
    case isFalse => rfl
  case isFalse => exact tracks_deliverBundle rfl

-- A completed object is reported under the stamp of its slot.
theorem tracks_slot {tracked : Bool} {fmt : Formats} {i : Instant} (s : Reassembly.Slot)
    (payload : Bytes) :
    Tracks cfg env (Reports cfg env (decide (s.origFrameVer = FrameVer.v9)) s.hashKey s.seqNum) w
      ((hooks wire cfg env tracked).deliver fmt i (s.delivery payload) w) := by
  have ⟨hk, hseq⟩ : (s.delivery payload).hashKey = s.hashKey ∧
      (s.delivery payload).seqNum = s.seqNum :=
    Reassembly.Slot.delivery_stamp
  have ht : Tracks cfg env (Reports cfg env (s.delivery payload).isBeef (s.delivery payload).hashKey
      (s.delivery payload).seqNum) w
        ((hooks wire cfg env tracked).deliver fmt i (s.delivery payload) w) :=
    tracks_deliver _
  rwa [Reassembly.Slot.isBeef_delivery, hk, hseq] at ht

-- A datagram that cannot be decoded is not reported.
theorem tracks_of_decoded {α : Type} {dec : Option α} {stamp : α → HashKey × SeqNum} {beef : Bool}
    (hn : dec = none → w'.tracker = w.tracker)
    (hs : ∀ f, dec = some f → Tracks cfg env (Reports cfg env beef (stamp f).1 (stamp f).2) w w') :
    Tracks cfg env (fun a => ∃ x ∈ dec.map stamp, Reports cfg env beef x.1 x.2 a) w w' := by
  cases hd : dec
  case none => exact .inl (hn hd)
  case some f =>
    rcases hs f hd with e | ⟨a, ha, e⟩
    case inl => exact .inl e
    case inr => exact .inr ⟨a, ⟨stamp f, rfl, ha⟩, e⟩

end Worker

namespace Node

open Worker Reassembly

variable {wire : Wire} {cfg : Settings} {env : Env} {n : Node} {raw : Bytes}
variable {T : Nack.Tracker → Prop}

-- A datagram other than a fragment is reported under its own stamp.
theorem tracks_processFrame (hf : ¬wire.TakesFragment raw) :
    Tracks cfg env
      (fun a => ∃ x ∈ wire.stamp raw, Reports cfg env (decide (wire.TakesBeef raw)) x.1 x.2 a)
      n.worker (n.processFrame wire cfg env raw).2.worker := by
  simp only [processFrame, Wire.stamp, Wire.dispatch, Wire.takesBeef_iff]
  cases hk : wire.kind raw
  case fragment => exact absurd (Wire.takesFragment_iff.mpr hk) hf
  case block =>
    exact tracks_of_decoded (by intro hd; simp [Wire.Kind.pick, processBlockFrame, hd])
      fun _ => tracks_processBlockFrame
  case subtreeData =>
    exact tracks_of_decoded
      (by intro hd; simp [Wire.Kind.pick, processSubtreeDataFrame, handle, hd])
      fun _ => tracks_processSubtreeDataFrame
  case anchor =>
    exact tracks_of_decoded (by intro hd; simp [Wire.Kind.pick, processAnchorFrame, handle, hd])
      fun _ => tracks_processAnchorFrame
  case bundle =>
    exact tracks_of_decoded (by intro hd; simp [Wire.Kind.pick, processBundle, handle, hd])
      fun _ => tracks_processBundle
  case beef =>
    exact tracks_of_decoded (by intro hd; simp [Wire.Kind.pick, processBeefFrame, handle, hd])
      fun _ => tracks_processBeefFrame
  case tx =>
    exact tracks_of_decoded (by intro hd; simp [Wire.Kind.pick, processTxFrame, handle, hd])
      fun _ => tracks_processTxFrame

-- How a fragment is reported. The SubtreeID slot of a BEEF fragment holds its TopicID.
def fragArrival (cfg : Settings) (env : Env) (ff : FragFrame) : Nack.Arrival :=
  arrival cfg env (fragGroupIdx cfg ff)
    (if ff.origFrameVer = FrameVer.v9 then .zero else ff.subtreeID) ff.hashKey ff.seqNum

-- `T` survives a request for the missing fragments of every slot that is past its deadline.
def Expires (cfg : Settings) (env : Env) (T : Nack.Tracker → Prop) (b : Buffer) : Prop :=
  ∀ key s, b.slots.lookup key = some s → s.deadline < env.instant.now → ∀ i t, T t →
    T (t.requestGapsFrom cfg.nack i env.room
      (gapRequest cfg (Buffer.incomplete s s.missingSeqNums)))

-- `T` survives the calls on the tracker that a datagram leads to: the report of a whole frame; for
-- a fragment the requests of the sweep, the report of the object it completes, and its own.
structure Hears (wire : Wire) (cfg : Settings) (env : Env) (raw : Bytes) (T : Nack.Tracker → Prop)
    (n : Node) : Prop where
  whole     : ¬wire.TakesFragment raw → ∀ x ∈ wire.stamp raw, ∀ a,
    Reports cfg env (decide (wire.TakesBeef raw)) x.1 x.2 a →
      ∀ t, T t → T (t.observeFrom cfg.nack env.instant a)
  expired   : wire.TakesFragment raw → ∀ b ∈ n.buffer,
    Buffer.sweepEvery cfg.reassembly ≤ Time.sub env.instant.now b.lastEvict → Expires cfg env T b
  completed : wire.TakesFragment raw → ∀ ff ∈ wire.decodeFragment raw,
    ∀ s ∈ n.completes wire cfg env ff, ∀ a,
      Reports cfg env (decide (s.origFrameVer = FrameVer.v9)) s.hashKey s.seqNum a →
        ∀ t, T t → T (t.observeFrom cfg.nack env.instant a)
  fragment  : wire.TakesFragment raw → ∀ ff ∈ wire.decodeFragment raw,
    ∀ t, T t → T (t.observeFrom cfg.nack env.instant (fragArrival cfg env ff))

theorem keeps_sweep {tracked : Bool} {A : Incomplete → Prop}
    (ha : ∀ q, A q → ∀ i t, T t → T (t.requestGapsFrom cfg.nack i env.room (gapRequest cfg q))) :
    (hooks wire cfg env tracked).Answers A (Keeps T) (Keeps T) where
  after _ _ _ hw          := hw.of_eq rfl
  idle _ hw               := hw
  onIncomplete i q _ hq hw := hw.map rfl (ha q hq i)

theorem Hears.processFragment (hh : n.Hears wire cfg env raw T) (hc : wire.TakesFragment raw)
    (hw : n.worker.Keeps T) : (n.processFragment wire cfg env raw).worker.Keeps T := by
  simp only [Node.processFragment]
  cases hb : n.buffer
  case none => exact hw.of_eq rfl
  case some b =>
    cases hd : wire.decodeFragment raw
    case none => exact hw.of_eq rfl
    case some ff =>
      let h := hooks wire cfg env n.worker.tracker.isSome
      let A (q : Incomplete) := ∃ key s, b.slots.lookup key = some s ∧
        s.deadline < env.instant.now ∧ q = Buffer.incomplete s s.missingSeqNums ∧
          Buffer.sweepEvery cfg.reassembly ≤ Time.sub env.instant.now b.lastEvict
      have hA : h.Answers A (Keeps T) (Keeps T) := by
        apply keeps_sweep
        rintro _ ⟨key, s, hl, hlate, rfl, hdue⟩
        exact hh.expired hc b hb hdue key s hl hlate
      have hsw : (Buffer.sweepIfDue cfg.reassembly h env.instant (b, n.worker)).2.Keeps T :=
        hA.sweepIfDue (fun hdue key s hl hlate => ⟨key, s, hl, hlate, rfl, hdue⟩) hw
      have ho : Worker.Keeps T
          (Buffer.observe wire.toFormats cfg.reassembly h env.instant (b, n.worker) ff).2 := by
        refine Buffer.gather_env (fun _ _ hw => hw.of_eq rfl) (fun _ hw => hw) ?_ hsw
        intro s hs w hw
        have hcomp : s ∈ n.completes wire cfg env ff := by
          simp only [completes, hb, Option.bind_some]
          exact hs
        exact (tracks_slot s _).keeps (hh.completed hc ff hd s hcomp) hw
      exact ho.map rfl (hh.fragment hc ff hd)

-- What survives the calls of a datagram holds after it.
theorem Hears.processFrame (hh : n.Hears wire cfg env raw T) (hw : n.worker.Keeps T) :
    (n.processFrame wire cfg env raw).2.worker.Keeps T := by
  by_cases hc : wire.TakesFragment raw
  case pos =>
    rw [processFrame_of_fragment hc]
    exact hh.processFragment hc hw
  case neg =>
    refine (tracks_processFrame hc).keeps ?_ hw
    intro a ⟨x, hx, ha⟩
    exact hh.whole hc x hx a ha

theorem keeps_tick (he : ∀ b ∈ n.buffer, Expires cfg env T b) (hw : n.worker.Keeps T) :
    (n.tick wire cfg env).worker.Keeps T := by
  simp only [tick]
  cases hb : n.buffer
  case none => exact hw
  case some b =>
    let A (q : Incomplete) := ∃ key s, b.slots.lookup key = some s ∧
      s.deadline < env.instant.now ∧ q = Buffer.incomplete s s.missingSeqNums
    have hA : (hooks wire cfg env n.worker.tracker.isSome).Answers A (Keeps T) (Keeps T) := by
      apply keeps_sweep
      rintro _ ⟨key, s, hl, hlate, rfl⟩
      exact he b hb key s hl hlate
    exact hA.evictExpired (fun key s hl hlate => ⟨key, s, hl, hlate, rfl⟩) hw

end Node
