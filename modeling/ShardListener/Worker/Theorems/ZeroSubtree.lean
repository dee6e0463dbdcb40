import ShardListener.Worker.Theorems.Ownership

namespace Nack.Tracker

variable {cfg : Config} {i : Instant} {t : Tracker} {hk : HashKey}

-- The flow `hk` and its gaps carry the zero SubtreeID.
def Zeroed (hk hk' : HashKey) (tag : Tag) : Prop :=
  hk' = hk → tag.subtreeID = .zero

theorem zero_tagFor {subtreeID : Bytes32} (ht : t.Marked (Zeroed hk)) (hs : subtreeID = .zero) :
    (t.tagFor hk subtreeID).subtreeID = .zero := by
  unfold tagFor
  cases hl : t.flows.lookup hk
  case none    => exact hs
  case some fs => exact (ht.flows hk fs hl).tag rfl

theorem zeroed_observeFrom {a : Arrival} (ht : t.Marked (Zeroed hk))
    (ha : a.hashKey = hk → a.subtreeID = .zero) : (t.observeFrom cfg i a).Marked (Zeroed hk) := by
  apply ht.observeFrom
  refine ⟨fun e => ?_, ha⟩
  subst e
  exact zero_tagFor ht (ha rfl)

theorem zeroed_requestGapsFrom {room : Nat} {q : Request} (ht : t.Marked (Zeroed hk))
    (hq : q.hashKey = hk → q.subtreeID = .zero) :
    (t.requestGapsFrom cfg i room q).Marked (Zeroed hk) := by
  apply ht.requestGapsFrom
  refine ⟨fun e => ?_, hq⟩
  subst e
  exact zero_tagFor ht (hq rfl)

end Nack.Tracker

namespace Node

open Worker Reassembly

variable {wire : Wire} {cfg : Settings} {env : Env} {hk : HashKey} {n : Node} {raw : Bytes}
variable {ev : Event}

theorem buffer_processFrame (hf : ¬wire.TakesFragment raw) :
    (n.processFrame wire cfg env raw).2.buffer = n.buffer := by
  simp only [processFrame, Wire.dispatch]
  cases hk : wire.kind raw
  case fragment => exact absurd (Wire.takesFragment_iff.mpr hk) hf
  all_goals rfl

-- The flow is a BEEF flow: its datagrams are whole BEEF frames and fragments of BEEF objects, and
-- the other workers report and request it under the zero SubtreeID.
def Event.Beef (wire : Wire) (hk : HashKey) : Event → Prop
  | .datagram _ raw =>
    ∀ x ∈ wire.stamp raw, x.1 = hk →
      wire.TakesBeef raw ∨
        (wire.TakesFragment raw ∧ ∃ ff ∈ wire.decodeFragment raw, ff.origFrameVer = FrameVer.v9)
  | .tick _ => True
  | .tracker (.observe _ a)   => a.hashKey = hk → a.subtreeID = .zero
  | .tracker (.request _ _ q) => q.hashKey = hk → q.subtreeID = .zero
  | .tracker _                => True

instance decidableBeef : DecidablePred (Event.Beef wire hk)
  | .datagram ..              => inferInstanceAs (Decidable (∀ x ∈ _, _))
  | .tick _                   => .isTrue trivial
  | .tracker (.observe ..)    => inferInstanceAs (Decidable (_ → _))
  | .tracker (.request ..)    => inferInstanceAs (Decidable (_ → _))
  | .tracker (.fill ..)       => .isTrue trivial
  | .tracker (.sweep ..)      => .isTrue trivial
  | .tracker (.complete ..)   => .isTrue trivial

theorem Event.Beef.fragment {ff : FragFrame} (h : Event.Beef wire hk (.datagram env raw))
    (hc : wire.TakesFragment raw) (hd : wire.decodeFragment raw = some ff) (hk' : ff.hashKey = hk) :
    ff.origFrameVer = FrameVer.v9 := by
  obtain ⟨h₁, h₂, h₃, h₄⟩ := hc
  have hs : wire.stamp raw = some (ff.hashKey, ff.seqNum) := by
    simp [Wire.stamp, h₁, h₂, h₃, h₄, hd]
  rcases h _ hs hk' with hb | ⟨_, ff', hd', hv⟩
  case inl => exact absurd (h₄.symm.trans hb.2.2.2.1) (by simp)
  case inr =>
    cases hd.symm.trans hd'
    exact hv

-- No object of the flow that has a TopicID is past its deadline.
def InTime (hk : HashKey) (now : Time) (b : Buffer) : Prop :=
  ∀ x ∈ b.slots.entries, x.2.hashKey = hk → x.2.subtreeID ≠ .zero → now ≤ x.2.deadline

instance {now : Time} : DecidablePred (InTime hk now) :=
  fun _ => inferInstanceAs (Decidable (∀ x ∈ _, _))

-- The sweep that an event runs, if any, finds no such object.
def Punctual (wire : Wire) (cfg : Settings) (hk : HashKey) (n : Node) : Event → Prop
  | .datagram env raw =>
    wire.TakesFragment raw → ∀ b ∈ n.buffer,
      Buffer.sweepEvery cfg.reassembly ≤ Time.sub env.instant.now b.lastEvict →
        InTime hk env.instant.now b
  | .tick env   => ∀ b ∈ n.buffer, InTime hk env.instant.now b
  | .tracker _  => True

instance decidablePunctual : DecidablePred (n.Punctual wire cfg hk)
  | .datagram .. => inferInstanceAs (Decidable (_ → ∀ b ∈ _, _))
  | .tick _      => inferInstanceAs (Decidable (∀ b ∈ _, _))
  | .tracker _   => .isTrue trivial

-- The slots of the flow are of BEEF objects.
def BeefSlot (hk : HashKey) (s : Slot) : Prop :=
  s.hashKey = hk → s.origFrameVer = FrameVer.v9

theorem BeefSlot.kept {s s' : Slot} (hs : BeefSlot hk s) (hk' : s.Kept s') : BeefSlot hk s' := by
  have ⟨_, _, _, e⟩ := hk'
  subst e
  exact hs

theorem BeefSlot.receive {s : Slot} {ff : FragFrame} (size : Nat) (hs : BeefSlot hk s) :
    BeefSlot hk (s.receive size ff) := by
  have ⟨_, _, e⟩ := s.receive_eq size ff
  rw [e]
  exact hs

structure Zeroed (hk : HashKey) (n : Node) : Prop where
  tracker : n.worker.Keeps (·.Marked (Nack.Tracker.Zeroed hk))
  slots   : ∀ b ∈ n.buffer, b.All fun _ => BeefSlot hk

-- A slot that is past its deadline has no TopicID, so that its requests carry the zero SubtreeID.
theorem expires_zeroed {b : Buffer} (hb : InTime hk env.instant.now b) :
    Expires cfg env (·.Marked (Nack.Tracker.Zeroed hk)) b := by
  intro key s hl hlate i t ht
  apply Nack.Tracker.zeroed_requestGapsFrom ht
  intro hk'
  by_contra hz
  exact absurd hlate (not_lt.mpr (hb ⟨key, s⟩ (AList.mem_entries_iff.mpr hl) hk' hz))

theorem Zeroed.completed {ff : FragFrame} {s : Slot} (hz : n.Zeroed hk)
    (he : Event.Beef wire hk (.datagram env raw)) (hc : wire.TakesFragment raw)
    (hd : wire.decodeFragment raw = some ff) (hs : n.completes wire cfg env ff = some s) :
    BeefSlot hk s := by
  have ⟨b, hb, hs⟩ := Option.bind_eq_some_iff.mp hs
  have ⟨s₀, size, hmet, _, _, e⟩ := Buffer.completing_cases hs
  subst e
  apply BeefSlot.receive
  rcases hmet with hl | hnew
  case inl =>
    have ⟨s₁, hl₁, hk'⟩ := Buffer.sweepIfDue_outlives s₀ hl
    exact (hz.slots b hb _ s₁ hl₁).kept hk'
  case inr =>
    subst hnew
    exact he.fragment hc hd

theorem Zeroed.hears (hz : n.Zeroed hk) (he : Event.Beef wire hk (.datagram env raw))
    (hp : n.Punctual wire cfg hk (.datagram env raw)) :
    n.Hears wire cfg env raw (·.Marked (Nack.Tracker.Zeroed hk)) where
  whole hc x hx a hr t ht := by
    apply Nack.Tracker.zeroed_observeFrom ht
    intro hk'
    apply hr.subtreeID
    rcases he x hx (hr.hashKey ▸ hk') with hb | ⟨hf, _⟩
    case inl => exact decide_eq_true hb
    case inr => exact absurd hf hc
  expired hc b hb hdue := expires_zeroed (hp hc b hb hdue)
  completed hc ff hd s hs a hr t ht := by
    apply Nack.Tracker.zeroed_observeFrom ht
    intro hk'
    apply hr.subtreeID
    exact decide_eq_true (hz.completed he hc hd hs (hr.hashKey ▸ hk'))
  fragment hc ff hd t ht := by
    apply Nack.Tracker.zeroed_observeFrom ht
    intro hk'
    exact if_pos (he.fragment hc hd hk')

theorem Zeroed.slots_datagram (hz : n.Zeroed hk) (he : Event.Beef wire hk (.datagram env raw)) :
    ∀ b ∈ (n.processFrame wire cfg env raw).2.buffer, b.All fun _ => BeefSlot hk := by
  by_cases hc : wire.TakesFragment raw
  case neg => rw [buffer_processFrame hc]; exact hz.slots
  case pos =>
    rw [processFrame_of_fragment hc]
    simp only [processFragment]
    cases hb : n.buffer
    case none => simp
    case some b =>
      cases hd : wire.decodeFragment raw
      case none => rintro _ ⟨⟩; exact hz.slots b hb
      case some ff =>
        rintro _ ⟨⟩
        apply Buffer.All.observe
        case hk => exact fun _ _ _ hs hk' => hs.kept hk'
        case hr => exact fun _ _ size hs => hs.receive size
        case hn => exact he.fragment hc hd
        case ha => exact hz.slots b hb

theorem Zeroed.react (hz : n.Zeroed hk) (he : ev.Beef wire hk) (hp : n.Punctual wire cfg hk ev) :
    (n.react wire cfg ev).Zeroed hk := by
  cases ev
  case datagram env raw =>
    exact ⟨(hz.hears he hp).processFrame hz.tracker, hz.slots_datagram he⟩
  case tick env =>
    refine ⟨keeps_tick (fun b hb => expires_zeroed (hp b hb)) hz.tracker, ?_⟩
    simp only [react, tick]
    cases hb : n.buffer
    case none => exact fun b hb' => absurd (hb.symm.trans hb') (by simp)
    case some b =>
      rintro _ ⟨⟩
      have ha : b.All fun _ => BeefSlot hk := hz.slots b hb
      exact Buffer.All.sweep (p := (b, n.worker)) (fun _ _ _ hs hk' => hs.kept hk') ha
        fun _ => Buffer.evictExpired_outlives
  case tracker op =>
    refine ⟨hz.tracker.map rfl fun t ht => ?_, hz.slots⟩
    cases op
    case observe i a      => exact Nack.Tracker.zeroed_observeFrom ht he
    case request i room q => exact Nack.Tracker.zeroed_requestGapsFrom ht he
    all_goals exact ht.step trivial

theorem Zeroed.new {dedupSet : Option Dedup.Set} : Zeroed hk (wired dedupSet) where
  tracker := by rintro t ⟨⟩; exact .new
  slots   := by rintro b ⟨⟩ _ _ h; cases h

-- In every run in which no sweep finds an object of the flow past its deadline that has a TopicID,
-- every gap of the BEEF flow carries the zero SubtreeID.
theorem zeroSubtree_of_punctual {dedupSet : Option Dedup.Set} {evs : List Event}
    (he : ∀ ev ∈ evs, ev.Beef wire hk)
    (hp : Run.Along (react wire cfg) (Punctual wire cfg hk) (wired dedupSet) evs) :
    Run.Always (react wire cfg) (Gaps hk (·.subtreeID = .zero)) (wired dedupSet) evs := by
  have hinv : Run.Always (react wire cfg) (Zeroed hk) (wired dedupSet) evs :=
    Run.always_of_preserved (fun _ _ hz h => hz.react h.2 h.1) .new (hp.and (.of_forall he))
  exact hinv.mono fun n hz => gaps_of_marked (fun _ he => he rfl) hz.tracker

-- The ticker of the buffer, eleven seconds after the first datagram.
def lateTick : Event :=
  .tick { Env.blank with instant := ⟨Time.ms 11000, fun _ => 0⟩ }

theorem zeroSubtree_before_deadline :
    Run.Always (react beefFlowWire beefPlane) (Gaps 7 (·.subtreeID = .zero)) (wired none)
      [beefDatagram [1, 0], beefDatagram [3]] :=
  zeroSubtree_of_punctual (by decide +kernel) (by decide +kernel)

-- The object expires with one of its two fragments. The slot has kept the TopicID in the place of
-- the SubtreeID, and the request for the other fragment takes it from there.
theorem expiredBeef_not_zeroSubtree :
    (∀ ev ∈ [beefDatagram [1, 0], lateTick], ev.Beef beefFlowWire 7) ∧
      ¬Run.Always (react beefFlowWire beefPlane) (Gaps 7 (·.subtreeID = .zero)) (wired none)
        [beefDatagram [1, 0], lateTick] := by
  refine ⟨by decide +kernel, fun h => ?_⟩
  exact absurd h.last (by decide +kernel)

end Node
