import ShardListener.Worker.Theorems.Reinject

namespace Worker

variable {wire : Wire} {cfg : Settings} {env : Env} {w : Worker} {raw : Bytes} {f : BEEFFrame}
variable {hk : HashKey} {n : SeqNum}

-- The frame passes the content check and the elections of the worker.
def Elected (wire : Wire) (cfg : Settings) (f : BEEFFrame) : Prop :=
  ¬BeefFaulty wire cfg f ∧ beefElection wire cfg f = none

instance : DecidablePred (Elected wire cfg) :=
  fun _ => inferInstanceAs (Decidable (_ ∧ _))

-- A frame that is not elected is dropped before the tracker hears of it.
theorem tracker_deliverBeef_of_not_elected (he : ¬Elected wire cfg f) :
    (w.deliverBeef wire cfg env raw f).tracker = w.tracker := by
  simp only [deliverBeef]
  split
  case h_1 => rfl
  case h_2 engine hb =>
    split
    case isTrue => rfl
    case isFalse hc =>
      split
      case h_1 => rfl
      case h_2 hel =>
        refine absurd ⟨?_, hel⟩ he
        exact not_or.mpr ⟨by simp [hb], hc⟩

-- Whatever the dedup stages say of an elected frame, the tracker hears of it.
theorem tracker_deliverBeef_of_elected (env : Env) (w : Worker) (raw : Bytes)
    (he : Elected wire cfg f) :
    ∃ groupIdx, (w.deliverBeef wire cfg env raw f).tracker =
      w.tracker.map (·.observe cfg.nack env.instant
        (arrival cfg env groupIdx .zero f.hashKey f.seqNum)) := by
  have ⟨hf, hel⟩ := he
  have ⟨hb, hc⟩ := not_or.mp hf
  have ⟨engine, hb⟩ := Option.ne_none_iff_exists'.mp hb
  refine ⟨engine.groupIndex f.topicID, ?_⟩
  simp only [deliverBeef, hb, if_neg hc, hel]
  split
  case isTrue => simp [observeBeef]
  case isFalse =>
    split
    case isTrue  => simp [observeBeef]
    case isFalse => simp [observeBeef]

-- The next frame of a flow.
theorem Follows.elected (hf : Follows hk n w) (he : Elected wire cfg f) (hkey : f.hashKey = hk)
    (hseq : f.seqNum = n + 1) : Follows hk (n + 1) (w.deliverBeef wire cfg env raw f) := by
  have ⟨t, ht, hl⟩ := hf
  have ⟨groupIdx, e⟩ := tracker_deliverBeef_of_elected env w raw he
  let a : Nack.Arrival :=
    { arrival cfg env groupIdx .zero f.hashKey f.seqNum with owner := Nack.ownerUnknown }
  have hs : a.seqNum = n + 1 := hseq
  have hz : ¬(a.seqNum ≤ cfg.nack.resetThreshold ∧ cfg.nack.resetThreshold < n) := by
    dsimp only [SeqNum] at *
    omega
  have ho := hl.observe (i := env.instant) (a := a) hkey (by simp [hs]) hs.le hz
  rw [hs, max_eq_right (Nat.le_succ n)] at ho
  exact ⟨_, by rw [e, ht]; rfl, ho⟩

end Worker

-- The datagram is taken for a BEEF frame.
def Wire.TakesBeef (wire : Wire) (raw : Bytes) : Prop :=
  wire.isBlockFrame raw = false ∧ wire.isSubtreeDataFrame raw = false ∧
    wire.isAnchorFrame raw = false ∧ wire.isFragment raw = false ∧ wire.isBundle raw = false ∧
    wire.isBEEFFrame raw = true

instance {wire : Wire} : DecidablePred wire.TakesBeef :=
  fun _ => inferInstanceAs (Decidable (_ ∧ _ ∧ _ ∧ _ ∧ _ ∧ _))

theorem Wire.takesBeef_iff {wire : Wire} {raw : Bytes} :
    wire.TakesBeef raw ↔ wire.kind raw = .beef := by
  simp only [TakesBeef, kind]
  constructor
  case mp  => rintro ⟨hb, hs, ha, hf, hu, hbeef⟩; simp [hb, hs, ha, hf, hu, hbeef]
  case mpr => intro h; split_ifs at h; simp_all

namespace Node

open Worker

variable (wire : Wire) (cfg : Settings) (hk : HashKey)

-- The datagrams are the whole BEEF frames `n + 1`, `n + 2` and so on of the flow.
def BeefStream : SeqNum → List (Env × Bytes) → Prop
  | _, []      => True
  | n, x :: xs =>
    (wire.TakesBeef x.2 ∧ ∃ f ∈ wire.decodeBEEF x.2, f.hashKey = hk ∧ f.seqNum = n + 1) ∧
      BeefStream (n + 1) xs

-- The tracker has observed the SeqNum of the frame `x`, and the flow has no gap.
def Heard (m : Node) (x : Env × Bytes) : Prop :=
  ∃ f ∈ wire.decodeBEEF x.2, (m.step wire cfg x).NoGaps hk f.seqNum

-- The frame passes the content check and the elections.
def Electable (x : Env × Bytes) : Prop :=
  ∀ f ∈ wire.decodeBEEF x.2, Elected wire cfg f

instance {m : Node} {x : Env × Bytes} : Decidable (Heard wire cfg hk m x) :=
  inferInstanceAs (Decidable (∃ f ∈ _, _))

instance : DecidablePred (Electable wire cfg) :=
  fun _ => inferInstanceAs (Decidable (∀ f ∈ _, _))

variable {wire cfg hk} {m : Node} {x : Env × Bytes} {xs : List (Env × Bytes)} {f : BEEFFrame}
variable {n : SeqNum}

theorem step_of_beef (ht : wire.TakesBeef x.2) (hd : wire.decodeBEEF x.2 = some f) :
    m.step wire cfg x = { m with worker := m.worker.deliverBeef wire cfg x.1 x.2 f } := by
  simp only [step, processFrame, Wire.dispatch, Wire.takesBeef_iff.mp ht, Wire.Kind.pick, handle,
    processBeefFrame, hd]

-- The tracker hears of the next frame of the flow exactly if the frame is elected.
theorem heard_iff_electable (hf : m.worker.Follows hk n) (ht : wire.TakesBeef x.2)
    (hd : wire.decodeBEEF x.2 = some f) (hkey : f.hashKey = hk) (hseq : f.seqNum = n + 1) :
    m.Heard wire cfg hk x ↔ Electable wire cfg x := by
  constructor
  case mp =>
    intro ⟨f', hd', hn⟩ g hg
    cases hd.symm.trans hd'
    cases hd.symm.trans hg
    by_contra he
    have ⟨t, ht', hl⟩ := hf
    have ⟨t', htr, ⟨fs, hfs, hlast, _⟩, _⟩ := hn
    simp only [step_of_beef ht hd, tracker_deliverBeef_of_not_elected he, ht'] at htr
    cases htr
    have hn := (hl.flow fs hfs).1
    dsimp only [SeqNum] at *
    omega
  case mpr =>
    intro he
    refine ⟨f, hd, hseq ▸ noGaps_of_follows ?_ (Nat.succ_ne_zero n)⟩
    rw [step_of_beef ht hd]
    exact hf.elected (he f hd) hkey hseq

theorem along_heard_iff (hf : m.worker.Follows hk n) (hs : BeefStream wire hk n xs) :
    Run.Along (step wire cfg) (Heard wire cfg hk) m xs ↔ ∀ x ∈ xs, Electable wire cfg x := by
  induction xs generalizing m n
  case nil => simp [Run.Along]
  case cons x xs hi =>
    obtain ⟨⟨ht, f, hd, hkey, hseq⟩, hs⟩ := hs
    simp only [Run.Along, heard_iff_electable hf ht hd hkey hseq, List.forall_mem_cons]
    apply and_congr_right
    intro he
    apply hi _ hs
    rw [step_of_beef ht hd]
    exact hf.elected (he f hd) hkey hseq

-- On an in-order and loss-free stream of whole BEEF frames, the tracker hears of every frame and no
-- gap is registered, exactly if no frame of the stream is dropped by the content check or an
-- election.
theorem heard_iff_all_electable {dedupSet : Option Dedup.Set} (hs : BeefStream wire hk 0 xs) :
    Run.Along (step wire cfg) (Heard wire cfg hk) (wired dedupSet) xs ↔
      ∀ x ∈ xs, Electable wire cfg x :=
  along_heard_iff ⟨_, rfl, Nack.Lossless.new⟩ hs

instance decidableBeefStream : ∀ n xs, Decidable (BeefStream wire hk n xs)
  | _, []      => .isTrue trivial
  | n, _ :: xs =>
    have : Decidable (BeefStream wire hk (n + 1) xs) := decidableBeefStream (n + 1) xs
    inferInstanceAs (Decidable ((_ ∧ ∃ f ∈ _, _) ∧ _))

-- A wire on which a datagram is a BEEF frame of the flow 7: its SeqNum and its topic, a byte each.
def topicWire : Wire :=
  { Wire.blank with
    isBEEFFrame             := fun _ => true
    decodeBEEF              := fun raw =>
      some ⟨1, .fill (raw.headD 0), .fill (raw.getD 1 0), 7, (raw.headD 0).toNat, [0]⟩
    beefDeliverableTopicIDs := fun f => [f.topicID] }

-- The worker has elected the topic 1.
def oneTopic : Settings :=
  { Settings.blank with beefEngine := some ⟨fun _ => 0x1000, 12⟩, beefTopics := [.fill 1] }

def topicFrame (seq topic : UInt8) : Env × Bytes :=
  (Env.blank, [seq, topic])

theorem heard_one_topic :
    Run.Along (step topicWire oneTopic) (Heard topicWire oneTopic 7) (wired none)
      [topicFrame 1 1, topicFrame 2 1] :=
  (heard_iff_all_electable (by decide)).mpr (by decide)

-- The second frame is of another topic. It is dropped unobserved, and the third one opens a gap.
theorem mixed_topics_not_heard :
    BeefStream topicWire 7 0 [topicFrame 1 1, topicFrame 2 2, topicFrame 3 1] ∧
      ¬Run.Along (step topicWire oneTopic) (Heard topicWire oneTopic 7) (wired none)
        [topicFrame 1 1, topicFrame 2 2, topicFrame 3 1] := by
  decide

end Node
