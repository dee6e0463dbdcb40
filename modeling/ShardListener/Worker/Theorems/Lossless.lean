import ShardListener.Extensions.Run
import ShardListener.Nack.System
import ShardListener.Nack.Theorems.Observe
import ShardListener.Reassembly.Theorems.Gather
import ShardListener.Worker.System
import ShardListener.Worker.Theorems.Deliver

-- Settings and surroundings with nothing in them, for the examples.

def Worker.Settings.blank : Worker.Settings where
  id         := 0
  engine     := ⟨fun _ => 0, 0⟩
  nack       := .default
  reassembly := .new 0 0 false

def Worker.Env.blank : Worker.Env where
  instant := ⟨0, fun _ => 0⟩
  source  := none
  claim _ := .claimed
  room    := 0

namespace Nack

-- The recorder calls that report a gap, an unrecovered gap or a re-baseline.
def Metric.Loss : Metric → Prop
  | .gapDetected ..    => True
  | .gapUnrecovered .. => True
  | .seqRebaselined .. => True
  | _                  => False

instance : DecidablePred Metric.Loss := by
  intro m
  cases m <;> unfold Metric.Loss <;> infer_instance

namespace FlowState

variable {cfg : Config} {fs : FlowState} {a : Arrival}

-- A frame that is not ahead of its turn and is not taken for a restart.
theorem verdict_in_turn (elapsed : Duration) (live : Bool) (hle : a.seqNum ≤ fs.lastSeqNum + 1)
    (hz : ¬(a.seqNum ≤ cfg.resetThreshold ∧ cfg.resetThreshold < fs.lastSeqNum)) :
    fs.verdict cfg elapsed a.seqNum live = .first ∨ fs.verdict cfg elapsed a.seqNum live = .stale ∨
      fs.verdict cfg elapsed a.seqNum live = .contiguous := by
  unfold verdict
  split
  case isTrue => exact .inl rfl
  case isFalse =>
    split
    case isTrue  => rw [if_neg fun h => hz h.2]; exact .inr (.inl rfl)
    case isFalse hgt =>
      rw [if_pos (by dsimp only [SeqNum] at *; omega)]
      exact .inr (.inr rfl)

theorem noteLateFill_quiet {seq : SeqNum} : ∀ m ∈ (fs.noteLateFill seq).metrics, ¬m.Loss := by
  unfold noteLateFill
  split <;> simp [Metric.Loss]

-- It reports no loss on a flow without pending gaps, and asks for nothing.
theorem observe_quiet (i : Instant) (recorded : Bool) (hp : ∀ seq, fs.pending.lookup seq = none)
    (hle : a.seqNum ≤ fs.lastSeqNum + 1)
    (hz : ¬(a.seqNum ≤ cfg.resetThreshold ∧ cfg.resetThreshold < fs.lastSeqNum)) :
    (∀ m ∈ (fs.observe cfg i recorded a).metrics, ¬m.Loss) ∧
      (fs.observe cfg i recorded a).queued = [] := by
  let late := ((fs.touch i.now a).noteLateFill a.seqNum).flow
  have hl : Agrees late (fs.touch i.now a) := noteLateFill_agrees
  have hn : late.autoFill recorded a.seqNum = none := by
    rw [autoFill_none_iff, hl.pending]
    exact hp a.seqNum
  have hle' : a.seqNum ≤ late.lastSeqNum + 1 := hl.lastSeqNum ▸ hle
  have hz' : ¬(a.seqNum ≤ cfg.resetThreshold ∧ cfg.resetThreshold < late.lastSeqNum) :=
    hl.lastSeqNum ▸ hz
  have hv := verdict_in_turn (Time.sub i.now fs.lastSeen) a.source.isSome hle' hz'
  have hq : (∀ m ∈ (late.settle cfg i recorded a (Time.sub i.now fs.lastSeen)).metrics, ¬m.Loss) ∧
      (late.settle cfg i recorded a (Time.sub i.now fs.lastSeen)).queued = [] := by
    simp only [settle, hn, ladder]
    rcases hv with hv | hv | hv <;> simp [hv]
  refine ⟨fun m hm => ?_, hq.2⟩
  rcases List.mem_append.mp hm with hm | hm
  case inl => exact noteLateFill_quiet m hm
  case inr => exact hq.1 m hm

theorem verdictOf_in_turn (i : Instant) (hp : ∀ seq, fs.pending.lookup seq = none)
    (hle : a.seqNum ≤ fs.lastSeqNum + 1)
    (hz : ¬(a.seqNum ≤ cfg.resetThreshold ∧ cfg.resetThreshold < fs.lastSeqNum)) :
    fs.verdictOf cfg i a = some .first ∨ fs.verdictOf cfg i a = some .stale ∨
      fs.verdictOf cfg i a = some .contiguous := by
  have hn : ¬(a.seqNum ≤ fs.lastSeqNum ∧ (fs.pending.lookup a.seqNum).isSome) := by simp [hp]
  simp only [verdictOf, if_neg hn, Option.some.injEq]
  exact verdict_in_turn _ _ hle hz

-- The flow after such a frame: the position has moved on by the frame, and nothing is pending.
theorem observe_in_turn (i : Instant) (recorded : Bool) (hp : ∀ seq, fs.pending.lookup seq = none)
    (hle : a.seqNum ≤ fs.lastSeqNum + 1)
    (hz : ¬(a.seqNum ≤ cfg.resetThreshold ∧ cfg.resetThreshold < fs.lastSeqNum)) :
    (fs.observe cfg i recorded a).flow.lastSeqNum = max fs.lastSeqNum a.seqNum ∧
      ∀ seq, (fs.observe cfg i recorded a).flow.pending.lookup seq = none := by
  have ho := observe_observed cfg i recorded fs a
  have hg := verdictOf_guard cfg i fs a
  have he : ∀ seq, (fs.pending.erase a.seqNum).lookup seq = none := by
    intro seq
    rw [AList.lookup_erase_eq_ite, hp, ite_self]
  rw [ho.lastSeqNum]
  simp only [ho.pending]
  rcases verdictOf_in_turn i hp hle hz with hv | hv | hv
  all_goals
    rw [hv] at hg ⊢
    refine ⟨?_, he⟩
    simp only [Guard] at hg
    simp only [lastAfter]
    dsimp only [SeqNum] at *
    omega

-- A sweep of such a flow that is not due for a probe.
theorem sweep_quiet {now : Time} {hk : HashKey} {room : SeqNum → Bool}
    (hp : ∀ seq, fs.pending.lookup seq = none) (hw : fs.wantsProbe cfg now = false) :
    fs.sweep cfg hk now room = { flow := fs.purgeAbandoned now } := by
  have hkeys : fs.pending.keys = [] :=
    List.eq_nil_iff_forall_not_mem.mpr fun seq h => AList.lookup_eq_none.mp (hp seq) h
  have hsize : (fs.purgeAbandoned now).pending.size = 0 := by
    rw [AList.size, ← List.length_map (f := Sigma.fst)]
    exact congrArg List.length hkeys
  have hw : (fs.purgeAbandoned now).wantsProbe cfg now = false := hw
  have hkeys : (fs.purgeAbandoned now).pending.keys = [] := hkeys
  simp only [sweep, hkeys, sweepEntries, hsize, maybeProbeTail, hw, if_true, List.append_nil]

theorem fill_quiet {recorded : Bool} {seq : SeqNum} (hp : ∀ seq, fs.pending.lookup seq = none) :
    fs.fill recorded seq = fs.noteLateFill seq := by
  rw [fill, autoFill_none_iff.mpr (hp seq), Option.getD_none]

end FlowState

-- The tracker has seen the SeqNums 1 to `n` of the flow and nothing else, and no loss. No NACK is
-- in flight.
structure Lossless (hk : HashKey) (n : SeqNum) (t : Tracker) : Prop where
  flow  : ∀ fs, t.flows.lookup hk = some fs →
    fs.lastSeqNum = n ∧ ∀ seq, fs.pending.lookup seq = none
  first : n = 0 → t.flows = ∅
  later : n ≠ 0 → (t.flows.lookup hk).isSome
  only  : ∀ hk', hk' ∈ t.flows → hk' = hk
  quiet : ∀ ms, t.recorder = some ms → ∀ m ∈ ms, ¬m.Loss
  calm  : t.inFlight = []

namespace Lossless

variable {cfg : Config} {i : Instant} {hk : HashKey} {n : SeqNum} {t : Tracker} {a : Arrival}

theorem new : Lossless hk 0 Tracker.new where
  flow _ h  := nomatch h
  first _   := rfl
  later h   := absurd rfl h
  only _ h  := absurd h (AList.notMem_empty _)
  quiet _ h := by cases h; simp
  calm      := rfl

-- The flow of the next frame is tracked, or there is room for it.
theorem exists_flowFor (cfg : Config) (hl : Lossless hk n t) (ha : a.hashKey = hk) :
    ∃ fs, t.flowFor cfg a = some fs ∧ fs.lastSeqNum = n ∧ ∀ seq, fs.pending.lookup seq = none := by
  subst ha
  cases h : t.flows.lookup a.hashKey
  case some fs => exact ⟨fs, by simp [Tracker.flowFor, h], hl.flow fs h⟩
  case none =>
    have hn : n = 0 := by
      by_contra hn
      have hs := hl.later hn
      rw [h] at hs
      cases hs
    have hroom : ¬t.full cfg := by
      simp only [Tracker.full, hl.first hn, AList.size_empty]
      omega
    exact ⟨.new a.groupIdx a.subtreeID, by simp [Tracker.flowFor, h, hroom], hn.symm, fun _ => rfl⟩

theorem quiet_put {e : Effect} (hl : Lossless hk n t) (he : ∀ m ∈ e.metrics, ¬m.Loss) :
    ∀ ms, (t.put hk e).recorder = some ms → ∀ m ∈ ms, ¬m.Loss := by
  intro ms hr m hm
  simp only [Tracker.put, Tracker.emit, Option.map_eq_some_iff] at hr
  obtain ⟨ms', hr', e⟩ := hr
  subst e
  rcases List.mem_append.mp hm with hm | hm
  case inl => exact hl.quiet ms' hr' m hm
  case inr => exact he m hm

theorem put {e : Effect} {n' : SeqNum} (hl : Lossless hk n t) (he : ∀ m ∈ e.metrics, ¬m.Loss)
    (hq : e.queued = [])
    (hf : e.flow.lastSeqNum = n' ∧ ∀ seq, e.flow.pending.lookup seq = none) (hpos : n' ≠ 0) :
    Lossless hk n' (t.put hk e) where
  flow fs h := by
    rw [Tracker.lookup_put, if_pos rfl] at h
    cases h
    exact hf
  first h   := absurd h hpos
  later _   := by rw [Tracker.lookup_put, if_pos rfl]; rfl
  only hk' h := by
    rcases (AList.mem_insert t.flows).mp h with rfl | h
    case inl => rfl
    case inr => exact hl.only hk' h
  quiet     := hl.quiet_put he
  calm      := by
    have e' : (t.put hk e).inFlight = t.inFlight ++ e.queued := rfl
    rw [e', hl.calm, hq, List.append_nil]

-- A frame of the flow that is not ahead of its turn and is not taken for a restart.
theorem observe (hl : Lossless hk n t) (ha : a.hashKey = hk) (hpos : a.seqNum ≠ 0)
    (hle : a.seqNum ≤ n + 1) (hz : ¬(a.seqNum ≤ cfg.resetThreshold ∧ cfg.resetThreshold < n)) :
    Lossless hk (max n a.seqNum) (t.observeFrom cfg i a) := by
  have ⟨fs, hfs, hlast, hp⟩ := hl.exists_flowFor cfg ha
  subst ha hlast
  have ⟨hq, hnone⟩ := FlowState.observe_quiet i t.recorder.isSome hp hle hz
  rw [Tracker.observeFrom_of_flowFor hpos hfs]
  refine hl.put hq hnone (FlowState.observe_in_turn i t.recorder.isSome hp hle hz) ?_
  dsimp only [SeqNum] at *
  omega

theorem ne_zero_of_flow {fs : FlowState} (hl : Lossless hk n t)
    (hfs : t.flows.lookup hk = some fs) : n ≠ 0 := by
  intro h
  rw [hl.first h] at hfs
  cases hfs

-- The flow is not idle for so long that a sweep probes its tail or forgets it.
def Awake (cfg : Config) (hk : HashKey) (now : Time) (t : Tracker) : Prop :=
  ∀ fs ∈ t.flows.lookup hk, fs.wantsProbe cfg now = false ∧ ¬fs.idle cfg now

instance {now : Time} : DecidablePred (Awake cfg hk now) :=
  fun _ => inferInstanceAs (Decidable (∀ fs ∈ _, _))

theorem keys_eq (hl : Lossless hk n t) (hm : hk ∈ t.flows) : t.flows.keys = [hk] := by
  refine List.perm_singleton.mp (List.perm_of_nodup_nodup_toFinset_eq t.flows.keys_nodup
    (List.nodup_singleton hk) ?_)
  ext hk'
  simp only [List.mem_toFinset, List.mem_singleton]
  exact ⟨hl.only hk', fun e => e ▸ hm⟩

theorem sweep {now : Time} {room : HashKey → SeqNum → Bool} (hl : Lossless hk n t)
    (ha : Awake cfg hk now t) : Lossless hk n (t.sweepOnce cfg now room) := by
  unfold Tracker.sweepOnce
  cases hfs : t.flows.lookup hk
  case none =>
    have hkeys : t.flows.keys = [] := List.eq_nil_iff_forall_not_mem.mpr fun hk' h =>
      AList.lookup_eq_none.mp hfs (hl.only hk' h ▸ h)
    rwa [hkeys]
  case some fs =>
    obtain ⟨hw, hidle⟩ := ha fs hfs
    have hpos := hl.ne_zero_of_flow hfs
    obtain ⟨rfl, hp⟩ := hl.flow fs hfs
    have hn : ¬(fs.purgeAbandoned now).idle cfg now := hidle
    rw [hl.keys_eq (AList.mem_iff_lookup.mpr ⟨fs, hfs⟩)]
    simp only [List.foldl_cons, List.foldl_nil, Tracker.sweepFlow, Tracker.onFlow, hfs,
      FlowState.sweep_quiet hp hw, Tracker.lookup_put, if_true, if_neg hn]
    exact hl.put (fun _ h => absurd h List.not_mem_nil) rfl ⟨rfl, hp⟩ hpos

theorem fill {hk' : HashKey} {seq : SeqNum} (hl : Lossless hk n t) :
    Lossless hk n (t.fill hk' seq) := by
  unfold Tracker.fill
  split
  case isTrue  => exact hl
  case isFalse =>
    unfold Tracker.onFlow
    split
    case h_1 => exact hl
    case h_2 fs hfs =>
      obtain rfl := hl.only hk' (AList.mem_iff_lookup.mpr ⟨fs, hfs⟩)
      have hpos := hl.ne_zero_of_flow hfs
      obtain ⟨rfl, hp⟩ := hl.flow fs hfs
      have hag : FlowState.Agrees (fs.noteLateFill seq).flow fs := FlowState.noteLateFill_agrees
      dsimp only
      rw [FlowState.fill_quiet hp]
      refine hl.put FlowState.noteLateFill_quiet ?_ ⟨hag.lastSeqNum, fun s => ?_⟩ hpos
      case refine_1 => unfold FlowState.noteLateFill; split <;> rfl
      case refine_2 => rw [hag.pending]; exact hp s

-- A call on the tracker that is not the worker's own. It is no other worker's, either.
def Quiet (cfg : Config) (hk : HashKey) (t : Tracker) : Op → Prop
  | .observe ..     => False
  | .request ..     => False
  | .fill ..        => True
  | .sweep now _    => Awake cfg hk now t
  | .complete i e c => t.Enabled (.complete i e c)

instance : DecidablePred (Quiet cfg hk t)
  | .observe ..     => .isFalse id
  | .request ..     => .isFalse id
  | .fill ..        => .isTrue trivial
  | .sweep now _    => inferInstanceAs (Decidable (Awake cfg hk now t))
  | .complete i e c => inferInstanceAs (Decidable (t.Enabled (.complete i e c)))

theorem step {op : Op} (hl : Lossless hk n t) (hq : Quiet cfg hk t op) :
    Lossless hk n (t.step cfg op) := by
  cases op
  case observe  => cases hq
  case request  => cases hq
  case fill     => exact hl.fill
  case sweep    => exact hl.sweep hq
  case complete =>
    have hmem := hq.1
    rw [hl.calm] at hmem
    cases hmem

end Lossless
end Nack

namespace Worker

variable {cfg : Settings} {env : Env} {hk : HashKey} {n seqNum : SeqNum} {w w' : Worker}

-- The worker's tracker has seen the SeqNums 1 to `n` of the flow, and no loss.
def Follows (hk : HashKey) (n : SeqNum) (w : Worker) : Prop :=
  ∃ t, w.tracker = some t ∧ Nack.Lossless hk n t

theorem Follows.observes (hf : Follows hk n w) (ho : Observes cfg env hk seqNum w w')
    (hpos : seqNum ≠ 0) (hle : seqNum ≤ n + 1)
    (hz : ¬(seqNum ≤ cfg.nack.resetThreshold ∧ cfg.nack.resetThreshold < n)) :
    Follows hk n w' ∨ Follows hk (max n seqNum) w' := by
  have ⟨t, ht, hl⟩ := hf
  rcases ho with e | ⟨a, ha, hs, _, e⟩
  case inl => exact .inl ⟨t, e.trans ht, hl⟩
  case inr =>
    subst hs
    refine .inr ⟨t.observeFrom cfg.nack env.instant a, ?_, hl.observe ha hpos hle hz⟩
    rw [e, ht]
    rfl

-- The frame whose turn it is, seen for the first or for the second time.
theorem Follows.turn {groupIdx : GroupIdx} {subtreeID : Bytes32}
    (hf : Follows hk n w ∨ Follows hk (n + 1) w) :
    Follows hk (n + 1) (w.observeFrom cfg env groupIdx subtreeID hk (n + 1)) := by
  let a := arrival cfg env groupIdx subtreeID hk (n + 1)
  have ha : a.hashKey = hk := rfl
  have hs : a.seqNum = n + 1 := rfl
  rcases hf with ⟨t, ht, hl⟩ | ⟨t, ht, hl⟩
  case inl =>
    have hz : ¬(a.seqNum ≤ cfg.nack.resetThreshold ∧ cfg.nack.resetThreshold < n) := by
      dsimp only [SeqNum] at *; omega
    have ho := hl.observe (i := env.instant) ha (Nat.succ_ne_zero n) hs.le hz
    rw [hs, max_eq_right (Nat.le_succ n)] at ho
    exact ⟨_, by simp only [Worker.observeFrom, ht, Option.map_some, a], ho⟩
  case inr =>
    have hz : ¬(a.seqNum ≤ cfg.nack.resetThreshold ∧ cfg.nack.resetThreshold < n + 1) := by
      dsimp only [SeqNum] at *; omega
    have ho := hl.observe (i := env.instant) ha (Nat.succ_ne_zero n) (hs ▸ Nat.le_succ _) hz
    rw [hs, max_self] at ho
    exact ⟨_, by simp only [Worker.observeFrom, ht, Option.map_some, a], ho⟩

end Worker

-- The datagram is taken for a fragment.
def Wire.TakesFragment (wire : Wire) (raw : Bytes) : Prop :=
  wire.isBlockFrame raw = false ∧ wire.isSubtreeDataFrame raw = false ∧
    wire.isAnchorFrame raw = false ∧ wire.isFragment raw = true

instance {wire : Wire} : DecidablePred wire.TakesFragment :=
  fun _ => inferInstanceAs (Decidable (_ ∧ _ ∧ _ ∧ _))

theorem Wire.takesFragment_iff {wire : Wire} {raw : Bytes} :
    wire.TakesFragment raw ↔ wire.kind raw = .fragment := by
  simp only [TakesFragment, kind]
  constructor
  case mp  => rintro ⟨hb, hs, ha, hf⟩; simp [hb, hs, ha, hf]
  case mpr => intro h; split_ifs at h; simp_all

namespace Node

open Worker Reassembly

variable {wire : Wire} {cfg : Settings} {hk : HashKey} {n : SeqNum}

theorem processFrame_of_fragment {env : Env} {m : Node} {raw : Bytes} (h : wire.TakesFragment raw) :
    m.processFrame wire cfg env raw = (true, m.processFragment wire cfg env raw) := by
  simp only [processFrame, Wire.dispatch, Wire.takesFragment_iff.mp h]
  rfl

-- The node before the fragment `n + 1`: the slots are opened by earlier fragments of the flow.
structure InTurn (hk : HashKey) (n : SeqNum) (m : Node) : Prop where
  worker : m.worker.Follows hk n
  buffer : ∃ b, m.buffer = some b ∧ b.All fun _ s => s.hashKey = hk ∧ s.seqNum ≠ 0 ∧ s.seqNum ≤ n

-- In the state `m`, the fragment completes no object whose first SeqNum would be taken for a
-- restart, neither it nor a tick finds an object past its deadline, and the tracker is left to the
-- worker.
def Harmless (wire : Wire) (cfg : Settings) (hk : HashKey) (m : Node) : Event → Prop
  | .datagram env raw => ∀ b ∈ m.buffer, ∀ ff ∈ wire.decodeFragment raw,
    b.Timely cfg.reassembly env.instant ∧
      ∀ s ∈ b.slots.lookup (slotKey wire.toFormats ff), s.CompletedBy ff →
        ¬(s.seqNum ≤ cfg.nack.resetThreshold ∧ cfg.nack.resetThreshold + 1 < ff.seqNum)
  | .tick env         => ∀ b ∈ m.buffer, ∀ e ∈ b.slots.entries, env.instant.now ≤ e.2.deadline
  | .tracker op       => ∀ t ∈ m.worker.tracker, Nack.Lossless.Quiet cfg.nack hk t op

instance {m : Node} : DecidablePred (m.Harmless wire cfg hk)
  | .datagram .. => inferInstanceAs (Decidable (∀ b ∈ _, ∀ ff ∈ _, _ ∧ ∀ s ∈ _, _))
  | .tick ..     => inferInstanceAs (Decidable (∀ b ∈ _, ∀ e ∈ _, _))
  | .tracker ..  => inferInstanceAs (Decidable (∀ t ∈ _, _))

-- The callback of a completed object: the tracker observes the SeqNum of the slot, an earlier one
-- or that of the fragment itself.
theorem InTurn.deliver {env : Env} {w : Worker} {s : Slot} {ff : FragFrame} {size : Nat}
    {payload : Bytes} (hf : w.Follows hk n) (hkey : s.hashKey = hk) (hpos : s.seqNum ≠ 0)
    (hle : s.seqNum ≤ n + 1)
    (hz : ¬(s.seqNum ≤ cfg.nack.resetThreshold ∧ cfg.nack.resetThreshold < n)) :
    let w' := (hooks wire cfg env true).deliver wire.toFormats env.instant
      ((s.receive size ff).delivery payload) w
    w'.Follows hk n ∨ w'.Follows hk (n + 1) := by
  have ⟨hh, hs⟩ := s.delivery_receive_stamp size ff payload
  have ho : Observes cfg env s.hashKey s.seqNum w ((hooks wire cfg env true).deliver wire.toFormats
      env.instant ((s.receive size ff).delivery payload) w) := hh ▸ hs ▸ observes_deliver _
  rcases hf.observes (hkey ▸ ho) hpos hle hz with hn | hn
  case inl => exact .inl hn
  case inr =>
    rcases Nat.le_or_eq_of_le_succ hle with hlt | heq
    case inl => rw [max_eq_left hlt] at hn; exact .inl hn
    case inr => rw [heq, max_eq_right (Nat.le_succ n)] at hn; exact .inr hn

theorem InTurn.observe (wire : Wire) {env : Env} {w : Worker} {b : Buffer} {ff : FragFrame}
    (hw : w.Follows hk n) (hb : b.All fun _ s => s.hashKey = hk ∧ s.seqNum ≠ 0 ∧ s.seqNum ≤ n)
    (hkey : ff.hashKey = hk) (hseq : ff.seqNum = n + 1)
    (ht : b.Timely cfg.reassembly env.instant)
    (hs : ∀ s, b.slots.lookup (slotKey wire.toFormats ff) = some s → s.CompletedBy ff →
      ¬(s.seqNum ≤ cfg.nack.resetThreshold ∧ cfg.nack.resetThreshold + 1 < ff.seqNum)) :
    let p :=
      Buffer.observe wire.toFormats cfg.reassembly (hooks wire cfg env true) env.instant (b, w) ff
    p.2.Follows hk n ∨ p.2.Follows hk (n + 1) := by
  refine Buffer.observe_env (P := Follows hk n) (Q := fun w => Follows hk n w ∨
    Follows hk (n + 1) w)
    ht (fun _ _ h => h) (fun _ h => .inl h) ?_ hw
  intro s size hmet hby w hf
  rcases hmet with hl | hnew
  case inl =>
    have ⟨hh, hpos, hle⟩ := hb _ s hl
    have hz := hs s hl hby
    refine InTurn.deliver hf hh hpos (Nat.le_succ_of_le hle) fun ⟨h₁, h₂⟩ => hz ⟨h₁, ?_⟩
    rw [hseq]
    exact Nat.succ_lt_succ h₂
  case inr =>
    subst hnew
    refine InTurn.deliver hf hkey ?_ hseq.le fun ⟨h₁, h₂⟩ => ?_
    case refine_1 =>
      have hpos : ff.seqNum ≠ 0 := hseq ▸ Nat.succ_ne_zero n
      exact hpos
    case refine_2 =>
      have h₁ : n + 1 ≤ cfg.nack.resetThreshold := hseq ▸ h₁
      exact absurd h₂ (Nat.not_lt.mpr (Nat.le_of_succ_le h₁))

-- One datagram of the stream.
theorem InTurn.next {env : Env} {raw : Bytes} {m : Node} {ff : FragFrame} (hm : m.InTurn hk n)
    (hc : wire.TakesFragment raw) (hd : wire.decodeFragment raw = some ff)
    (hkey : ff.hashKey = hk) (hseq : ff.seqNum = n + 1)
    (hh : m.Harmless wire cfg hk (.datagram env raw)) :
    InTurn hk (n + 1) (m.processFrame wire cfg env raw).2 := by
  have ⟨b, hb, hall⟩ := hm.buffer
  have ⟨t, ht, _⟩ := hm.worker
  have ⟨htime, hs⟩ := hh b hb ff hd
  have ho := InTurn.observe wire hm.worker hall hkey hseq htime hs
  rw [processFrame_of_fragment hc]
  simp only [processFragment, hb, hd, ht, Option.isSome_some, trackFragment]
  subst hkey
  rw [hseq]
  constructor
  case worker => exact Follows.turn ho
  case buffer =>
    refine ⟨_, rfl, Buffer.All.observe ?_ ?_ ?_ ?_⟩
    case refine_1 =>
      intro _ s s' hs ⟨_, _, _, e⟩
      subst e
      exact hs
    case refine_2 =>
      intro _ s size hs
      have ⟨_, _, e⟩ := s.receive_eq size ff
      rw [e]
      exact hs
    case refine_3 =>
      have hpos : ff.seqNum ≠ 0 := hseq ▸ Nat.succ_ne_zero n
      exact ⟨rfl, hpos, hseq.le⟩
    case refine_4 =>
      intro key s hl
      have ⟨hh, hpos, hle⟩ := hall key s hl
      exact ⟨hh, hpos, Nat.le_succ_of_le hle⟩

-- What else happens to the worker and its tracker leaves the flow alone.

theorem InTurn.tick {env : Env} {m : Node} (hm : m.InTurn hk n)
    (hh : m.Harmless wire cfg hk (.tick env)) : InTurn hk n (m.tick wire cfg env) := by
  have ⟨b, hb, hall⟩ := hm.buffer
  have hfresh : Buffer.Fresh env.instant (b, m.worker) := fun key s hl =>
    hh b hb ⟨key, s⟩ (AList.mem_entries_iff.mpr hl)
  simp only [Node.tick, hb, Buffer.tick]
  obtain ⟨hs, hw⟩ := @Buffer.evictExpired_of_fresh _ cfg.reassembly
    (hooks wire cfg env m.worker.tracker.isSome) env.instant (b, m.worker) hfresh
  constructor
  case worker => rw [hw]; exact hm.worker
  case buffer => exact ⟨_, rfl, fun key s hl => hall key s (hs ▸ hl)⟩

theorem InTurn.tracker {op : Nack.Op} {m : Node} (hm : m.InTurn hk n)
    (hh : m.Harmless wire cfg hk (.tracker op)) : InTurn hk n (m.react wire cfg (.tracker op)) where
  worker := by
    have ⟨t, ht, hl⟩ := hm.worker
    exact ⟨t.step cfg.nack op, by simp only [react, ht, Option.map_some], hl.step (hh t ht)⟩
  buffer := hm.buffer

-- The datagrams are the live fragments `n + 1`, `n + 2` and so on of the flow.
def Stream (wire : Wire) (hk : HashKey) : SeqNum → List Event → Prop
  | _, []                       => True
  | n, .datagram env raw :: evs =>
    (wire.TakesFragment raw ∧ env.source.isSome ∧
      ∃ ff ∈ wire.decodeFragment raw, ff.hashKey = hk ∧ ff.seqNum = n + 1) ∧
      Stream wire hk (n + 1) evs
  | n, _ :: evs                 => Stream wire hk n evs

instance decidableStream : ∀ n evs, Decidable (Stream wire hk n evs)
  | _, []                   => .isTrue trivial
  | n, .datagram .. :: evs  =>
    have : Decidable (Stream wire hk (n + 1) evs) := decidableStream (n + 1) evs
    inferInstanceAs (Decidable ((_ ∧ _ ∧ ∃ ff ∈ _, _) ∧ _))
  | n, .tick .. :: evs      => decidableStream n evs
  | n, .tracker .. :: evs   => decidableStream n evs

-- The flow has arrived at `seqNum`, without pending gaps, and no loss has been reported.
def NoGaps (hk : HashKey) (seqNum : SeqNum) (m : Node) : Prop :=
  ∃ t ∈ m.worker.tracker,
    (∃ fs ∈ t.flows.lookup hk, fs.lastSeqNum = seqNum ∧ fs.pending.keys = []) ∧
      ∀ m ∈ t.recorder.getD [], ¬m.Loss

instance {seqNum : SeqNum} : DecidablePred (NoGaps hk seqNum) :=
  fun _ => inferInstanceAs (Decidable (∃ t ∈ _, _))

def step (wire : Wire) (cfg : Settings) (m : Node) (x : Env × Bytes) : Node :=
  (m.processFrame wire cfg x.1 x.2).2

-- Processing a fragment leaves the flow without gaps.
def Clean (wire : Wire) (cfg : Settings) (hk : HashKey) (m : Node) : Event → Prop
  | .datagram env raw =>
    ∃ ff ∈ wire.decodeFragment raw, (m.processFrame wire cfg env raw).2.NoGaps hk ff.seqNum
  | _                 => True

instance {m : Node} : DecidablePred (Clean wire cfg hk m)
  | .datagram .. => inferInstanceAs (Decidable (∃ ff ∈ _, _))
  | .tick ..     => .isTrue trivial
  | .tracker ..  => .isTrue trivial

-- A new worker with a reassembly buffer and a tracker.
def wired (dedupSet : Option Dedup.Set) : Node where
  buffer := some {}
  worker := { tracker := some Nack.Tracker.new, dedupSet := dedupSet }

theorem InTurn.new {dedupSet : Option Dedup.Set} : InTurn hk 0 (wired dedupSet) where
  worker := ⟨_, rfl, Nack.Lossless.new⟩
  buffer := ⟨_, rfl, fun _ _ h => nomatch h⟩

theorem noGaps_of_follows {m : Node} (hf : m.worker.Follows hk n) (hn : n ≠ 0) : m.NoGaps hk n := by
  have ⟨t, ht, hl⟩ := hf
  have ⟨fs, hfs⟩ := Option.isSome_iff_exists.mp (hl.later hn)
  have ⟨hlast, hp⟩ := hl.flow fs hfs
  refine ⟨t, ht, ⟨fs, hfs, hlast, ?_⟩, ?_⟩
  case refine_1 =>
    refine List.eq_nil_iff_forall_not_mem.mpr fun seq hm => ?_
    exact AList.lookup_eq_none.mp (hp seq) hm
  case refine_2 =>
    cases hr : t.recorder
    case none    => simp
    case some ms => exact hl.quiet ms hr

theorem InTurn.along {m : Node} {evs : List Event} (hm : m.InTurn hk n) (hs : Stream wire hk n evs)
    (hh : Run.Along (react wire cfg) (Harmless wire cfg hk) m evs) :
    Run.Along (react wire cfg) (Clean wire cfg hk) m evs := by
  induction evs generalizing m n
  case nil => trivial
  case cons ev evs hi =>
    cases ev
    case tick    => exact ⟨trivial, hi (hm.tick hh.1) hs hh.2⟩
    case tracker => exact ⟨trivial, hi (hm.tracker hh.1) hs hh.2⟩
    case datagram env raw =>
      have ⟨⟨hc, _, ff, hd, hkey, hseq⟩, hs⟩ := hs
      have hnext := hm.next hc hd hkey hseq hh.1
      exact ⟨⟨ff, hd, hseq ▸ noGaps_of_follows hnext.worker (Nat.succ_ne_zero n)⟩, hi hnext hs hh.2⟩

-- In every run of harmless steps, an in-order and loss-free stream of fragments creates no gaps,
-- whenever the buffer and the tracker are swept in between.
theorem clean_of_harmless {dedupSet : Option Dedup.Set} {evs : List Event}
    (hs : Stream wire hk 0 evs)
    (hh : Run.Along (react wire cfg) (Harmless wire cfg hk) (wired dedupSet) evs) :
    Run.Along (react wire cfg) (Clean wire cfg hk) (wired dedupSet) evs :=
  InTurn.new.along hs hh

-- A transaction of `total` fragments of one byte each.
def bytewise (total : Nat) (h : 0 < total) (hm : total ≤ 65535) : Object where
  txID      := .fill 1
  subtreeID := .zero
  frameVer  := FrameVer.v2
  msgType   := 0
  payload   := List.replicate total 0
  total     := total
  size      := 1
  total_pos := h
  total_le  := hm
  size_pos  := Nat.one_pos
  size_le   := fun _ => by decide
  rest_pos  := by simp; omega
  rest_le   := by simp [maxDatagram]; omega

-- A wire on which a datagram is one byte, the index of a fragment of `o`.
def indexWire (o : Object) : Wire :=
  { Wire.blank with
    isFragment     := fun _ => true
    decodeFragment := fun raw => raw.head?.map fun j => o.fragment j.toNat 7 (j.toNat + 1)
    encode         := fun _ => some [] }

-- The surroundings at some millisecond.
def atMs (ms : Nat) : Env :=
  { Env.blank with instant := ⟨Time.ms ms, fun _ => 0⟩, source := some 1 }

-- The fragments of an object, every 10 ms and in order.
def inOrder (total : Nat) : List Event :=
  (List.range total).map fun j => .datagram (atMs (10 * j)) [UInt8.ofNat j]

-- Both goroutines sweep between two fragments.
theorem clean_two_fragments :
    Run.Along (react (indexWire (bytewise 2 (by decide) (by decide))) Settings.blank)
      (Clean (indexWire (bytewise 2 (by decide) (by decide))) Settings.blank 7) (wired none)
      [.datagram (atMs 0) [0], .tick (atMs 5), .tracker (.sweep (Time.ms 8) fun _ _ => true),
        .datagram (atMs 10) [1]] :=
  clean_of_harmless (by decide +kernel) (by decide +kernel)

-- An object of 102 fragments: its last fragment makes the buffer feed the tracker SeqNum 1 at 101,
-- which is taken for a restart; then the fragment 102 itself is 100 frames ahead, and the flow is
-- re-baselined.
theorem longObject_not_clean :
    Stream (indexWire (bytewise 102 (by decide) (by decide))) 7 0 (inOrder 102) ∧
      ¬Run.Along (react (indexWire (bytewise 102 (by decide) (by decide))) Settings.blank)
        (Clean (indexWire (bytewise 102 (by decide) (by decide))) Settings.blank 7) (wired none)
        (inOrder 102) := by
  decide +kernel

end Node
