import ShardListener.Nack.System

theorem List.mem_range'_below {m n k : Nat} (h : n ≤ m) :
    k ∈ List.range' (m - n) n ↔ m ≤ k + n ∧ k < m := by
  rw [List.mem_range'_1]
  omega

theorem List.mem_range'_between {a b k : Nat} :
    k ∈ List.range' (a + 1) (b - a - 1) ↔ a < k ∧ k < b := by
  rw [List.mem_range'_1]
  omega

namespace Nack
namespace FlowState

variable {cfg : Config} {i : Instant} {fs : FlowState} {a : Arrival} {e : GapEntry} {seq : SeqNum}
variable {now : Time} {elapsed : Duration} {recorded : Bool}

-- A real gap is pending: the entry stored for the SeqNum is not a probe.
def HasGap (fs : FlowState) (seq : SeqNum) : Prop :=
  ∃ e, fs.pending.lookup seq = some e ∧ e.speculative = false

instance {fs : FlowState} {seq : SeqNum} : Decidable (fs.HasGap seq) :=
  match h : fs.pending.lookup seq with
  | none   => .isFalse fun ⟨_, he, _⟩ => nomatch h.symm.trans he
  | some e => decidable_of_iff (e.speculative = false) <| by simp [HasGap, h]

-- Two flows that differ in their probe and late-fill bookkeeping only.
structure Agrees (f g : FlowState) : Prop where
  pending    : f.pending = g.pending
  lastSeqNum : f.lastSeqNum = g.lastSeqNum
  ewmaIPG    : f.ewmaIPG = g.ewmaIPG
  contiguous : f.contiguous = g.contiguous
  lastSeen   : f.lastSeen = g.lastSeen
  owner      : f.owner = g.owner

-- Which fields the bookings touch.

theorem bookFill_flow :
    (fs.bookFill recorded e).flow =
      { fs with
        probing     := if fs.probing = e.seqNum then 0 else fs.probing
        probeMisses := (fs.bookFill recorded e).flow.probeMisses } := by
  simp only [bookFill]
  repeat' split
  all_goals rfl

theorem noteLateFill_flow :
    (fs.noteLateFill seq).flow = { fs with abandoned := (fs.noteLateFill seq).flow.abandoned } := by
  simp only [noteLateFill]
  split <;> rfl

theorem bookAbandon_flow {src : Option IP} {reason : AbandonReason} :
    (fs.bookAbandon now seq src reason).flow =
      { fs with abandoned := (fs.bookAbandon now seq src reason).flow.abandoned } := by
  simp only [bookAbandon]
  split <;> rfl

theorem flushRestart_flow {es : List (Sigma fun _ : SeqNum => GapEntry)} :
    (fs.flushRestart now es).flow =
      { fs with abandoned := (fs.flushRestart now es).flow.abandoned } := by
  induction es generalizing fs
  case nil => rfl
  case cons e es hi =>
    simp only [flushRestart]
    split
    case isTrue  => exact hi
    case isFalse => rw [hi, bookAbandon_flow]

theorem bookFill_agrees : Agrees (fs.bookFill recorded e).flow fs := by
  rw [bookFill_flow]
  exact ⟨rfl, rfl, rfl, rfl, rfl, rfl⟩

theorem noteLateFill_agrees : Agrees (fs.noteLateFill seq).flow fs := by
  rw [noteLateFill_flow]
  exact ⟨rfl, rfl, rfl, rfl, rfl, rfl⟩

theorem bookAbandon_agrees {src : Option IP} {reason : AbandonReason} :
    Agrees (fs.bookAbandon now seq src reason).flow fs := by
  rw [bookAbandon_flow]
  exact ⟨rfl, rfl, rfl, rfl, rfl, rfl⟩

theorem flushRestart_agrees {es : List (Sigma fun _ : SeqNum => GapEntry)} :
    Agrees (fs.flushRestart now es).flow fs := by
  rw [flushRestart_flow]
  exact ⟨rfl, rfl, rfl, rfl, rfl, rfl⟩

namespace Agrees

variable {f g h : FlowState}

theorem trans (hf : Agrees f g) (hg : Agrees g h) : Agrees f h where
  pending    := hf.pending.trans hg.pending
  lastSeqNum := hf.lastSeqNum.trans hg.lastSeqNum
  ewmaIPG    := hf.ewmaIPG.trans hg.ewmaIPG
  contiguous := hf.contiguous.trans hg.contiguous
  lastSeen   := hf.lastSeen.trans hg.lastSeen
  owner      := hf.owner.trans hg.owner

theorem erase (hf : Agrees f g) (seq : SeqNum) :
    Agrees { f with pending := f.pending.erase seq } { g with pending := g.pending.erase seq } :=
  { hf with pending := congrArg (AList.erase seq) hf.pending }

end Agrees

theorem autoFill_none_iff : fs.autoFill recorded seq = none ↔ fs.pending.lookup seq = none := by
  simp [autoFill]

theorem autoFill_some {r : Effect} (h : fs.autoFill recorded seq = some r) :
    Agrees r.flow { fs with pending := fs.pending.erase seq } ∧ (fs.pending.lookup seq).isSome := by
  simp only [autoFill, Option.map_eq_some_iff] at h
  obtain ⟨e, he, rfl⟩ := h
  exact ⟨bookFill_agrees, Option.isSome_iff_exists.mpr ⟨e, he⟩⟩

-- Registering gaps touches nothing but `pending`, and leaves what is pending as it is.

theorem registerGaps_flow {ms : List SeqNum} :
    (fs.registerGaps cfg i a ms).flow =
      { fs with pending := (fs.registerGaps cfg i a ms).flow.pending } := by
  induction ms generalizing fs
  case nil => rfl
  case cons m ms hi =>
    simp only [registerGaps]
    split
    case h_1 => exact hi
    case h_2 => exact hi.trans rfl

theorem registerGaps_lookup {ms : List SeqNum} :
    (fs.registerGaps cfg i a ms).flow.pending.lookup seq =
      (fs.pending.lookup seq).or (if seq ∈ ms then some (fs.newGap cfg i a seq) else none) := by
  induction ms generalizing fs
  case nil => simp [registerGaps]
  case cons m ms hi =>
    simp only [registerGaps]
    split
    case h_1 h => exact hi.trans (AList.lookup_or_of_present h)
    case h_2 h => exact hi.trans (AList.lookup_or_of_absent h)

theorem registerTail_flow {ms : List SeqNum} :
    (fs.registerTail cfg i a ms).flow =
      { fs with pending := (fs.registerTail cfg i a ms).flow.pending } := by
  induction ms generalizing fs
  case nil          => rfl
  case cons m ms hi => exact hi.trans rfl

theorem registerTail_lookup {ms : List SeqNum} :
    (fs.registerTail cfg i a ms).flow.pending.lookup seq =
      if seq ∈ ms then some (fs.newGap cfg i a seq) else fs.pending.lookup seq := by
  induction ms generalizing fs
  case nil => simp [registerTail]
  case cons m ms hi =>
    simp only [registerTail, hi, AList.lookup_insert_eq_ite]
    by_cases hm : seq = m
    case pos => simp [hm, newGap]
    case neg => simp [hm, newGap]

-- What the verdicts that rewrite `pending` leave in the flow.

theorem restart_flow :
    Agrees (fs.restart now seq).flow { fs with pending := ∅, lastSeqNum := seq } :=
  have h : Agrees (fs.flushRestart now fs.pending.entries).flow fs := flushRestart_agrees
  { h with pending := rfl, lastSeqNum := rfl }

theorem mem_tail_iff :
    seq ∈ List.range' (a.seqNum - fs.tail cfg elapsed a.seqNum) (fs.tail cfg elapsed a.seqNum) ↔
      a.seqNum ≤ seq + fs.tail cfg elapsed a.seqNum ∧ seq < a.seqNum := by
  have ht : fs.tail cfg elapsed a.seqNum ≤ a.seqNum := by
    simp only [tail, missing]
    split <;> omega
  exact List.mem_range'_below ht

theorem rebaseline_lookup :
    (fs.rebaseline cfg i a elapsed).flow.pending.lookup seq =
      if a.seqNum ≤ seq + fs.tail cfg elapsed a.seqNum ∧ seq < a.seqNum then
        some (fs.newGap cfg i a seq)
      else none := by
  simp only [rebaseline, registerTail_lookup, mem_tail_iff, AList.lookup_empty]
  rfl

theorem openGap_lookup :
    (fs.openGap cfg i a).flow.pending.lookup seq =
      (fs.pending.lookup seq).or
        (if fs.lastSeqNum < seq ∧ seq < a.seqNum then some (fs.newGap cfg i a seq) else none) := by
  have hm : seq ∈ List.range' (fs.lastSeqNum + 1) (fs.missing a.seqNum) ↔
      fs.lastSeqNum < seq ∧ seq < a.seqNum :=
    List.mem_range'_between
  simp only [openGap, registerGaps_lookup, hm]

-- The ladder leaves alone what the probes and the answers go by.
theorem ladder_flow :
    (fs.ladder cfg i a elapsed).flow =
      let f := (fs.ladder cfg i a elapsed).flow
      { fs with
        pending    := f.pending
        lastSeqNum := f.lastSeqNum
        ewmaIPG    := f.ewmaIPG
        contiguous := f.contiguous
        samples    := f.samples
        abandoned  := f.abandoned } := by
  simp only [ladder]
  split
  case h_3 => simp only [restart]; rw [flushRestart_flow]
  case h_5 => simp only [rebaseline]; rw [registerTail_flow]
  case h_6 => simp only [openGap]; rw [registerGaps_flow]
  all_goals rfl

-- A frame keeps what the late fill, the fill and the ladder keep.
theorem observe_keeps {P : FlowState → Prop} (late : ∀ f seq, P f → P (f.noteLateFill seq).flow)
    (fill : ∀ f r, f.autoFill recorded a.seqNum = some r → P f → P r.flow)
    (ladder : ∀ f elapsed, P f → P (f.ladder cfg i a elapsed).flow) (h : P (fs.touch i.now a)) :
    P (fs.observe cfg i recorded a).flow := by
  have hl := late _ a.seqNum h
  simp only [observe, settle]
  split
  case h_1 => exact ladder _ _ hl
  case h_2 r hr =>
    have hf := fill _ r hr hl
    split
    case isTrue  => exact hf
    case isFalse => exact ladder _ _ hf

-- The flow that the ladder of `ObserveFrom` classifies, if step 3 does not finish the frame.
def atLadder (i : Instant) (recorded : Bool) (fs : FlowState) (a : Arrival) : Option FlowState :=
  let late := ((fs.touch i.now a).noteLateFill a.seqNum).flow
  match late.autoFill recorded a.seqNum with
  | none   => some late
  | some r => if a.seqNum ≤ r.flow.lastSeqNum then none else some r.flow

-- How `ObserveFrom` treats a frame; `none` is the fill of a gap at or below `lastSeqNum`.
def verdictOf (cfg : Config) (i : Instant) (fs : FlowState) (a : Arrival) : Option Verdict :=
  if a.seqNum ≤ fs.lastSeqNum ∧ (fs.pending.lookup a.seqNum).isSome then none
  else some (fs.verdict cfg (Time.sub i.now fs.lastSeen) a.seqNum a.source.isSome)

-- After step 3 the entry of the frame itself is closed, and what the ladder reads is as it was.
def afterFill (i : Instant) (fs : FlowState) (a : Arrival) : FlowState :=
  { fs.touch i.now a with pending := fs.pending.erase a.seqNum }

theorem atLadder_agrees {l : FlowState} (h : fs.atLadder i recorded a = some l) :
    Agrees l (fs.afterFill i a) ∧
      ¬(a.seqNum ≤ fs.lastSeqNum ∧ (fs.pending.lookup a.seqNum).isSome) := by
  have hl : Agrees ((fs.touch i.now a).noteLateFill a.seqNum).flow _ := noteLateFill_agrees
  simp only [atLadder] at h
  split at h
  case h_1 hn =>
    cases h
    rw [autoFill_none_iff, hl.pending] at hn
    have hn : fs.pending.lookup a.seqNum = none := hn
    have he : fs.pending.erase a.seqNum = fs.pending := AList.erase_of_lookup_none hn
    exact ⟨{ hl with pending := hl.pending.trans he.symm }, by simp [hn]⟩
  case h_2 r hr =>
    have hf := (autoFill_some hr).1.trans (hl.erase a.seqNum)
    split at h
    case isTrue     => cases h
    case isFalse hs => cases h; exact ⟨hf, fun hp => hs (hp.1.trans_eq hf.lastSeqNum.symm)⟩

theorem observe_of_filled (cfg : Config) (h : fs.atLadder i recorded a = none) :
    Agrees (fs.observe cfg i recorded a).flow (fs.afterFill i a) ∧
      a.seqNum ≤ fs.lastSeqNum ∧ (fs.pending.lookup a.seqNum).isSome := by
  have hl : Agrees ((fs.touch i.now a).noteLateFill a.seqNum).flow _ := noteLateFill_agrees
  cases hr : ((fs.touch i.now a).noteLateFill a.seqNum).flow.autoFill recorded a.seqNum
  case none =>
    simp only [atLadder, hr] at h
    cases h
  case some r =>
    obtain ⟨hf, hp⟩ := autoFill_some hr
    have hf := hf.trans (hl.erase a.seqNum)
    rw [hl.pending] at hp
    simp only [atLadder, hr] at h
    split at h
    case isFalse => cases h
    case isTrue hs =>
      simp only [observe, settle, hr, if_pos hs]
      exact ⟨hf, hs.trans_eq hf.lastSeqNum, hp⟩

theorem observe_of_ladder {l : FlowState} (h : fs.atLadder i recorded a = some l) :
    (fs.observe cfg i recorded a).flow = (l.ladder cfg i a (Time.sub i.now fs.lastSeen)).flow := by
  cases hr : ((fs.touch i.now a).noteLateFill a.seqNum).flow.autoFill recorded a.seqNum
  case none =>
    simp only [atLadder, hr] at h
    cases h
    simp only [observe, settle, hr]
  case some r =>
    simp only [atLadder, hr] at h
    split at h
    case isTrue => cases h
    case isFalse hs =>
      cases h
      simp only [observe, settle, hr, if_neg hs]

-- The pending entry of `seq` after the verdict on a frame.
def pendingAfter (cfg : Config) (i : Instant) (fs : FlowState) (a : Arrival) (seq : SeqNum) :
    Option Verdict → Option GapEntry
  | some .restart       => none
  | some .emitterChange =>
    let n := fs.tail cfg (Time.sub i.now fs.lastSeen) a.seqNum
    if a.seqNum ≤ seq + n ∧ seq < a.seqNum then some ((fs.touch i.now a).newGap cfg i a seq)
    else none
  | some .gap           =>
    ((fs.pending.erase a.seqNum).lookup seq).or
      (if fs.lastSeqNum < seq ∧ seq < a.seqNum then some ((fs.touch i.now a).newGap cfg i a seq)
      else none)
  | _                   => (fs.pending.erase a.seqNum).lookup seq

-- The position of the stream after the verdict on a frame.
def lastAfter (fs : FlowState) (a : Arrival) : Option Verdict → SeqNum
  | none        => fs.lastSeqNum
  | some .stale => fs.lastSeqNum
  | _           => a.seqNum

-- The rate estimate after the verdict on a frame.
def ipgAfter (i : Instant) (fs : FlowState) : Option Verdict → Duration
  | some .contiguous    => nextIPG fs.ewmaIPG (Time.sub i.now fs.lastSeen)
  | some .emitterChange => 0
  | _                   => fs.ewmaIPG

-- What `ObserveFrom` does to a flow, by the verdict on the frame.
structure Observed (cfg : Config) (i : Instant) (fs : FlowState) (a : Arrival) (v : Option Verdict)
    (f : FlowState) : Prop where
  pending    : ∀ seq, f.pending.lookup seq = fs.pendingAfter cfg i a seq v
  lastSeqNum : f.lastSeqNum = fs.lastAfter a v
  ewmaIPG    : f.ewmaIPG = fs.ipgAfter i v
  lastSeen   : f.lastSeen = i.now
  contiguous : v = none ∨ v = some .stale → f.contiguous = fs.contiguous

theorem Agrees.verdict {f g : FlowState} (h : Agrees f g) (cfg : Config) (elapsed : Duration)
    (seq : SeqNum) (live : Bool) :
    f.verdict cfg elapsed seq live = g.verdict cfg elapsed seq live := by
  cases f
  cases g
  obtain ⟨-, rfl, rfl, -, -, -⟩ := h
  rfl

theorem ladder_observed {l : FlowState} (hl : Agrees l (fs.afterFill i a)) :
    Observed cfg i fs a
      (some (fs.verdict cfg (Time.sub i.now fs.lastSeen) a.seqNum a.source.isSome))
      (l.ladder cfg i a (Time.sub i.now fs.lastSeen)).flow := by
  have hg : ∀ m, l.newGap cfg i a m = (fs.touch i.now a).newGap cfg i a m := by
    intro m
    simp only [newGap, hl.owner]
    rfl
  have ht : ∀ elapsed n, l.tail cfg elapsed n = fs.tail cfg elapsed n := by
    intro elapsed n
    simp only [tail, expected, missing, hl.ewmaIPG, hl.contiguous, hl.lastSeqNum]
    rfl
  have hv := hl.verdict cfg (Time.sub i.now fs.lastSeen) a.seqNum a.source.isSome
  have hp : ∀ seq, l.pending.lookup seq = (fs.pending.erase a.seqNum).lookup seq :=
    fun _ => by rw [hl.pending]; rfl
  replace hv : _ = fs.verdict cfg (Time.sub i.now fs.lastSeen) a.seqNum a.source.isSome := hv
  rw [← hv]
  simp only [ladder]
  split
  case h_1 h => exact h ▸ ⟨hp, rfl, hl.ewmaIPG, hl.lastSeen, by simp⟩
  case h_2 h => exact h ▸ ⟨hp, hl.lastSeqNum, hl.ewmaIPG, hl.lastSeen, fun _ => hl.contiguous⟩
  case h_3 h =>
    have hr : Agrees (l.restart i.now a.seqNum).flow _ := restart_flow
    exact h ▸ ⟨fun _ => by rw [hr.pending]; rfl, hr.lastSeqNum, hr.ewmaIPG.trans hl.ewmaIPG,
      hr.lastSeen.trans hl.lastSeen, by simp⟩
  case h_4 h =>
    refine h ▸ ⟨hp, rfl, ?_, hl.lastSeen, by simp⟩
    simp only [advance, hl.ewmaIPG]
    rfl
  case h_5 h =>
    refine h ▸ ⟨fun seq => ?_, rfl, rfl, ?_, by simp⟩
    case refine_1 => simp only [rebaseline_lookup, pendingAfter, hg, ht]
    case refine_2 => simp only [rebaseline]; rw [registerTail_flow]; exact hl.lastSeen
  case h_6 h =>
    refine h ▸ ⟨fun seq => ?_, rfl, ?_, ?_, by simp⟩
    case refine_1 => simp only [openGap_lookup, pendingAfter, hg, hp, hl.lastSeqNum]; rfl
    case refine_2 => simp only [openGap]; rw [registerGaps_flow]; exact hl.ewmaIPG
    case refine_3 => simp only [openGap]; rw [registerGaps_flow]; exact hl.lastSeen

theorem tail_le_missing (cfg : Config) (fs : FlowState) (elapsed : Duration) (seq : SeqNum) :
    fs.tail cfg elapsed seq ≤ fs.missing seq := by
  simp only [tail]
  split <;> omega

-- A live frame from the SeqNums of a restarted proxy.
def InResetZone (cfg : Config) (fs : FlowState) (a : Arrival) : Prop :=
  a.source.isSome ∧ a.seqNum ≤ cfg.resetThreshold ∧ cfg.resetThreshold < fs.lastSeqNum

instance : Decidable (fs.InResetZone cfg a) :=
  inferInstanceAs (Decidable (_ ∧ _))

-- What a verdict says about the frame.
def Guard (cfg : Config) (i : Instant) (fs : FlowState) (a : Arrival) : Option Verdict → Prop
  | none                => a.seqNum ≤ fs.lastSeqNum ∧ (fs.pending.lookup a.seqNum).isSome
  | some .first         => fs.lastSeqNum = 0
  | some .stale         =>
    fs.lastSeqNum ≠ 0 ∧ a.seqNum ≤ fs.lastSeqNum ∧ fs.pending.lookup a.seqNum = none ∧
      ¬fs.InResetZone cfg a
  | some .restart       =>
    a.seqNum ≤ fs.lastSeqNum ∧ fs.pending.lookup a.seqNum = none ∧ fs.InResetZone cfg a
  | some .contiguous    => fs.lastSeqNum ≠ 0 ∧ a.seqNum = fs.lastSeqNum + 1
  | some .emitterChange =>
    fs.lastSeqNum ≠ 0 ∧ fs.lastSeqNum + 1 < a.seqNum ∧
      fs.implausibleJump cfg (Time.sub i.now fs.lastSeen) a.seqNum = true
  | some .gap           =>
    fs.lastSeqNum ≠ 0 ∧ fs.lastSeqNum + 1 < a.seqNum ∧
      fs.implausibleJump cfg (Time.sub i.now fs.lastSeen) a.seqNum = false

theorem verdictOf_guard (cfg : Config) (i : Instant) (fs : FlowState) (a : Arrival) :
    fs.Guard cfg i a (fs.verdictOf cfg i a) := by
  simp only [verdictOf, verdict]
  split
  case isTrue h => exact h
  case isFalse h =>
    have hp : a.seqNum ≤ fs.lastSeqNum → fs.pending.lookup a.seqNum = none := by
      intro hle
      exact Option.not_isSome_iff_eq_none.mp fun hs => h ⟨hle, hs⟩
    repeat' split
    case isTrue h₀                  => exact h₀
    case isFalse.isTrue.isTrue      => exact ⟨‹_›, hp ‹_›, ‹_›⟩
    case isFalse.isTrue.isFalse     => exact ⟨‹_›, ‹_›, hp ‹_›, ‹_›⟩
    case isFalse.isFalse.isTrue     => exact ⟨‹_›, ‹_›⟩
    case isFalse.isFalse.isFalse.isTrue hz hle hne hi =>
      exact ⟨hz, Nat.lt_of_le_of_ne (Nat.lt_of_not_le hle) (Ne.symm hne), hi⟩
    case isFalse.isFalse.isFalse.isFalse hz hle hne hi =>
      exact ⟨hz, Nat.lt_of_le_of_ne (Nat.lt_of_not_le hle) (Ne.symm hne), eq_false_of_ne_true hi⟩

theorem observe_observed (cfg : Config) (i : Instant) (recorded : Bool) (fs : FlowState)
    (a : Arrival) :
    Observed cfg i fs a (fs.verdictOf cfg i a) (fs.observe cfg i recorded a).flow := by
  cases h : fs.atLadder i recorded a
  case none =>
    have ⟨hf, hle, hp⟩ := observe_of_filled cfg h
    rw [verdictOf, if_pos ⟨hle, hp⟩]
    exact ⟨fun _ => by rw [hf.pending]; rfl, hf.lastSeqNum, hf.ewmaIPG, hf.lastSeen,
      fun _ => hf.contiguous⟩
  case some l =>
    have ⟨hl, hn⟩ := atLadder_agrees h
    rw [verdictOf, if_neg hn, observe_of_ladder h]
    exact ladder_observed hl

-- What is pending after a frame was so before, or it is a gap that the frame reveals.
theorem observe_pending {e : GapEntry}
    (he : (fs.observe cfg i recorded a).flow.pending.lookup seq = some e) :
    fs.pending.lookup seq = some e ∨ e = (fs.touch i.now a).newGap cfg i a seq := by
  have hold (he : (fs.pending.erase a.seqNum).lookup seq = some e) :
      fs.pending.lookup seq = some e := by
    rw [AList.lookup_erase_eq_ite] at he
    split at he
    case isTrue  => cases he
    case isFalse => exact he
  rw [(observe_observed cfg i recorded fs a).pending seq] at he
  simp only [pendingAfter] at he
  split at he
  case h_1 => cases he
  case h_2 =>
    split at he
    case isTrue  => cases he; exact .inr rfl
    case isFalse => cases he
  case h_3 =>
    rcases Option.or_eq_some_iff.mp he with he | ⟨_, he⟩
    case inl => exact .inl (hold he)
    case inr =>
      split at he
      case isTrue  => cases he; exact .inr rfl
      case isFalse => cases he
  case h_4 => exact .inl (hold he)

end FlowState

namespace Tracker

variable {cfg : Config} {i : Instant} {t : Tracker} {hk hk' : HashKey} {a : Arrival}

theorem isSome_recorder_emit {ms : List Metric} :
    (t.emit ms).recorder.isSome = t.recorder.isSome := by
  simp [emit]

theorem isSome_recorder_onFlow {op : FlowState → Effect} :
    (t.onFlow hk op).recorder.isSome = t.recorder.isSome := by
  simp only [onFlow]
  split <;> simp [put, isSome_recorder_emit]

theorem isSome_recorder_sweepFlow {now : Time} {room : HashKey → SeqNum → Bool} :
    (t.sweepFlow cfg now room hk).recorder.isSome = t.recorder.isSome := by
  have hs : (t.onFlow hk (·.sweep cfg hk now (room hk))).recorder.isSome = t.recorder.isSome :=
    isSome_recorder_onFlow
  simp only [sweepFlow]
  split
  case h_1 => exact hs
  case h_2 => split <;> exact hs

theorem isSome_recorder_sweepOnce {now : Time} {room : HashKey → SeqNum → Bool} :
    (t.sweepOnce cfg now room).recorder.isSome = t.recorder.isSome := by
  simp only [sweepOnce]
  generalize t.flows.keys = hks
  induction hks generalizing t
  case nil            => rfl
  case cons hk hks hi => exact hi.trans isSome_recorder_sweepFlow

-- A recorder is installed before the first operation, or not at all.
theorem isSome_recorder_step (op : Op) : (t.step cfg op).recorder.isSome = t.recorder.isSome := by
  cases op
  case observe i a =>
    simp only [step, observeFrom]
    repeat' split
    all_goals simp [put, isSome_recorder_emit]
  case request i room q =>
    simp only [step, requestGapsFrom]
    repeat' split
    all_goals simp [put, isSome_recorder_emit]
  case sweep now room => exact isSome_recorder_sweepOnce
  case fill hk s =>
    simp only [step, fill]
    split
    case isTrue  => rfl
    case isFalse => exact isSome_recorder_onFlow
  case complete i e c =>
    cases c
    case lost => rfl
    all_goals exact isSome_recorder_onFlow

theorem lookup_put {e : Effect} :
    (t.put hk e).flows.lookup hk' = if hk' = hk then some e.flow else t.flows.lookup hk' :=
  AList.lookup_insert_eq_ite

theorem lookup_onFlow (t : Tracker) (hk hk' : HashKey) (op : FlowState → Effect) :
    (t.onFlow hk op).flows.lookup hk' =
      if hk' = hk then (t.flows.lookup hk).map (fun fs => (op fs).flow)
      else t.flows.lookup hk' := by
  simp only [onFlow]
  split
  case h_1 h =>
    split
    case isTrue heq => subst heq; simp [h]
    case isFalse    => rfl
  case h_2 fs h => simp [lookup_put, h]

-- The flow a frame is booked on, if the flow cap does not refuse it.
def flowFor (cfg : Config) (t : Tracker) (a : Arrival) : Option FlowState :=
  (t.flows.lookup a.hashKey).or
    (if t.full cfg then none else some (FlowState.new a.groupIdx a.subtreeID))

theorem lookup_observeFrom (cfg : Config) (i : Instant) (t : Tracker) (hk : HashKey)
    (hz : a.seqNum ≠ 0) :
    (t.observeFrom cfg i a).flows.lookup hk =
      if hk = a.hashKey then
        (t.flowFor cfg a).map fun fs => (fs.observe cfg i t.recorder.isSome a).flow
      else t.flows.lookup hk := by
  simp only [observeFrom, hz, if_false, flowFor]
  cases h : t.flows.lookup a.hashKey
  case some fs => simp [lookup_put]
  case none =>
    simp only
    split
    case isFalse => simp [lookup_put]
    case isTrue =>
      split
      case isFalse    => rfl
      case isTrue heq => subst heq; exact h

theorem observeFrom_of_flowFor {fs : FlowState} (hz : a.seqNum ≠ 0)
    (h : t.flowFor cfg a = some fs) :
    t.observeFrom cfg i a = t.put a.hashKey (fs.observe cfg i t.recorder.isSome a) := by
  simp only [flowFor] at h
  simp only [observeFrom, if_neg hz]
  cases hl : t.flows.lookup a.hashKey
  case some fs' =>
    rw [hl, Option.some_or] at h
    cases h
    rfl
  case none =>
    rw [hl, Option.none_or] at h
    split at h
    case isTrue       => cases h
    case isFalse hnot =>
      cases h
      exact if_neg hnot

-- The flow a request is booked on, if the flow cap does not refuse it.
def requestFlow (cfg : Config) (i : Instant) (t : Tracker) (q : Request) : Option FlowState :=
  (t.flows.lookup q.hashKey).or
    (if t.full cfg then none
      else some { FlowState.new q.groupIdx q.subtreeID with lastSeen := i.now })

theorem lookup_requestGapsFrom (cfg : Config) (i : Instant) (room : Nat) (t : Tracker) {q : Request}
    (hk : HashKey) (hq : q.seqs ≠ []) :
    (t.requestGapsFrom cfg i room q).flows.lookup hk =
      if hk = q.hashKey then
        (t.requestFlow cfg i q).map fun fs => (fs.request cfg i room q).flow
      else t.flows.lookup hk := by
  simp only [requestGapsFrom, hq, if_false, requestFlow]
  cases h : t.flows.lookup q.hashKey
  case some fs => simp [lookup_put]
  case none =>
    simp only
    split
    case isFalse => simp [lookup_put]
    case isTrue =>
      split
      case isFalse    => rfl
      case isTrue heq => subst heq; exact h

end Tracker
end Nack
