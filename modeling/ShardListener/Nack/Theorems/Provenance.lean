import ShardListener.Nack.Theorems.Each
import ShardListener.Nack.Theorems.Probe

namespace Nack

-- What a gap takes over from its flow and from the call that registers it: the worker to re-inject
-- into, and the SubtreeID of its NACKs.
structure Tag where
  owner     : Int
  subtreeID : Bytes32
deriving DecidableEq

-- The owner of a flow after a call that names a worker, or none.
def ownerAfter (owner named : Int) : Int :=
  if named = ownerUnknown then owner else named

-- What a call needs that names the worker `named` and the SubtreeID `subtreeID`, on a flow with the
-- given tag: the tag that it leaves, and that of the gaps it registers, are allowed by `Q`.
def Tag.Allows (Q : HashKey → Tag → Prop) (hk : HashKey) (tag : Tag) (named : Int)
    (subtreeID : Bytes32) : Prop :=
  Q hk ⟨ownerAfter tag.owner named, tag.subtreeID⟩ ∧ Q hk ⟨ownerAfter tag.owner named, subtreeID⟩

def GapEntry.tag (e : GapEntry) : Tag :=
  ⟨e.owner, e.subtreeID⟩

def FlowState.tag (fs : FlowState) : Tag :=
  ⟨fs.owner, fs.subtreeID⟩

variable {Q : HashKey → Tag → Prop} {hk : HashKey}

-- The entry bears the HashKey of its flow, and a tag that is allowed there.
structure GapEntry.Marked (Q : HashKey → Tag → Prop) (hk : HashKey) (e : GapEntry) : Prop where
  hashKey : e.hashKey = hk
  tag     : Q hk e.tag

structure FlowState.Marked (Q : HashKey → Tag → Prop) (hk : HashKey) (fs : FlowState) : Prop where
  tag  : Q hk fs.tag
  gaps : ∀ seq e, fs.pending.lookup seq = some e → e.Marked Q hk

structure Effect.Marked (Q : HashKey → Tag → Prop) (hk : HashKey) (r : Effect) : Prop where
  flow   : r.flow.Marked Q hk
  queued : ∀ e ∈ r.queued, e.Marked Q hk

theorem GapEntry.Marked.of_eq {e e' : GapEntry} (he : e.Marked Q hk) (hk' : e'.hashKey = e.hashKey)
    (ht : e'.tag = e.tag) : e'.Marked Q hk :=
  ⟨hk'.trans he.hashKey, ht ▸ he.tag⟩

namespace FlowState

variable {cfg : Config} {i : Instant} {fs f : FlowState} {a : Arrival} {e : GapEntry} {seq : SeqNum}
variable {now : Time} {recorded : Bool}

-- Nothing but the name of a worker changes the tag of a flow.

theorem tag_bookFill : (fs.bookFill recorded e).flow.tag = fs.tag := by
  rw [bookFill_flow]
  rfl

theorem tag_noteLateFill : (fs.noteLateFill seq).flow.tag = fs.tag := by
  rw [noteLateFill_flow]
  rfl

theorem tag_bookAbandon {src : Option IP} {reason : AbandonReason} :
    (fs.bookAbandon now seq src reason).flow.tag = fs.tag := by
  rw [bookAbandon_flow]
  rfl

theorem tag_autoFill {r : Effect} (h : fs.autoFill recorded seq = some r) :
    r.flow.tag = fs.tag := by
  have ⟨e, _, hr⟩ := Option.map_eq_some_iff.mp h
  exact hr ▸ tag_bookFill

theorem tag_ladder {elapsed : Duration} : (fs.ladder cfg i a elapsed).flow.tag = fs.tag := by
  rw [ladder_flow]
  rfl

theorem tag_observe : (fs.observe cfg i recorded a).flow.tag = (fs.touch i.now a).tag := by
  refine observe_keeps (P := (FlowState.tag · = _)) ?late ?fill ?ladder rfl
  case late   => exact fun _ _ hf => tag_noteLateFill.trans hf
  case fill   => exact fun _ _ hr hf => (tag_autoFill hr).trans hf
  case ladder => exact fun _ _ hf => tag_ladder.trans hf

theorem tag_requestGaps {g : GroupIdx} {sub : Bytes32} {ss : List SeqNum} :
    (fs.requestGaps cfg i hk g sub ss).flow.tag = fs.tag := by
  rw [requestGaps_flow]
  rfl

-- A frame puts nothing on the NACK queue; the sweep does.

theorem queued_bookFill : (fs.bookFill recorded e).queued = [] := by
  simp only [bookFill]
  repeat' split
  all_goals rfl

theorem queued_autoFill {r : Effect} (h : fs.autoFill recorded seq = some r) : r.queued = [] := by
  have ⟨e, _, hr⟩ := Option.map_eq_some_iff.mp h
  exact hr ▸ queued_bookFill

theorem queued_noteLateFill : (fs.noteLateFill seq).queued = [] := by
  simp only [noteLateFill]
  split <;> rfl

theorem queued_flushRestart {es : List (Sigma fun _ : SeqNum => GapEntry)} :
    (fs.flushRestart now es).queued = [] := by
  induction es generalizing fs
  case nil => rfl
  case cons e es hi =>
    simp only [flushRestart]
    split
    case isTrue  => exact hi
    case isFalse => exact hi

theorem queued_registerGaps {ms : List SeqNum} : (fs.registerGaps cfg i a ms).queued = [] := by
  induction ms generalizing fs
  case nil => rfl
  case cons m ms hi =>
    simp only [registerGaps]
    split
    case h_1 => exact hi
    case h_2 => exact hi

theorem queued_ladder {elapsed : Duration} : (fs.ladder cfg i a elapsed).queued = [] := by
  simp only [ladder]
  split
  case h_3 => exact queued_flushRestart
  case h_6 => exact queued_registerGaps
  all_goals rfl

theorem queued_observe : (fs.observe cfg i recorded a).queued = [] := by
  simp only [observe, settle]
  split
  case h_1 => exact queued_ladder
  case h_2 r hr =>
    split
    case isTrue  => exact queued_autoFill hr
    case isFalse => exact queued_ladder

theorem mem_queued_requestGaps {g : GroupIdx} {sub : Bytes32} {ss : List SeqNum}
    (h : e ∈ (fs.requestGaps cfg i hk g sub ss).queued) :
    ∃ seq, e = fs.requestedGap cfg i hk g sub seq := by
  induction ss generalizing fs
  case nil => cases h
  case cons s ss hi =>
    simp only [requestGaps] at h
    split at h
    case h_1 => exact hi h
    case h_2 =>
      rcases List.mem_cons.mp h with e | h
      case inl => exact ⟨s, e⟩
      case inr =>
        obtain ⟨s', e⟩ := hi h
        exact ⟨s', e⟩

namespace Marked

-- Entries may be taken out, and their retry state may change.

theorem of_agree (hf : fs.Marked Q hk) (ht : f.tag = fs.tag) (hp : f.pending = fs.pending) :
    f.Marked Q hk :=
  ⟨ht ▸ hf.tag, hp ▸ hf.gaps⟩

theorem of_erase (hf : fs.Marked Q hk) (ht : f.tag = fs.tag)
    (hp : f.pending = fs.pending.erase seq) : f.Marked Q hk := by
  refine ⟨ht ▸ hf.tag, fun s e he => ?_⟩
  rw [hp, AList.lookup_erase_eq_ite] at he
  split at he
  case isTrue  => cases he
  case isFalse => exact hf.gaps s e he

theorem of_insert (hf : fs.Marked Q hk) (ht : f.tag = fs.tag)
    (hp : f.pending = fs.pending.insert seq e) (he : e.Marked Q hk) : f.Marked Q hk := by
  refine ⟨ht ▸ hf.tag, fun s g hg => ?_⟩
  rw [hp, AList.lookup_insert_eq_ite] at hg
  split at hg
  case isTrue  => cases hg; exact he
  case isFalse => exact hf.gaps s g hg

theorem quiet (hf : fs.Marked Q hk) : Effect.Marked Q hk { flow := fs } :=
  ⟨hf, nofun⟩

-- The flow need not be marked before: the worker that the frame names may be the first one.
theorem observe (hf : ∀ seq e, fs.pending.lookup seq = some e → e.Marked Q hk) (ha : a.hashKey = hk)
    (hq : fs.tag.Allows Q hk a.owner a.subtreeID) : (fs.observe cfg i recorded a).Marked Q hk := by
  refine ⟨⟨tag_observe ▸ hq.1, fun seq e he => ?_⟩, by simp [queued_observe]⟩
  rcases observe_pending he with he | he
  case inl => exact hf seq e he
  case inr => exact he ▸ ⟨ha, hq.2⟩

theorem request {room : Nat} {q : Request}
    (hf : ∀ seq e, fs.pending.lookup seq = some e → e.Marked Q hk) (hk' : q.hashKey = hk)
    (hq : fs.tag.Allows Q hk q.owner q.subtreeID) : (fs.request cfg i room q).Marked Q hk := by
  let named : FlowState := { fs with owner := ownerAfter fs.owner q.owner }
  have hnew (s : SeqNum) :
      (named.requestedGap cfg i q.hashKey q.groupIdx q.subtreeID s).Marked Q hk := ⟨hk', hq.2⟩
  have hreq : (named.requestGaps cfg i q.hashKey q.groupIdx q.subtreeID q.seqs).flow =
      (fs.request cfg i room q).flow := rfl
  refine ⟨⟨?_, fun seq e he => ?_⟩, fun e he => ?_⟩
  case refine_1 => rw [← hreq, tag_requestGaps]; exact hq.1
  case refine_2 =>
    rw [← hreq, requestGaps_lookup] at he
    rcases Option.or_eq_some_iff.mp he with he | ⟨_, he⟩
    case inl => exact hf seq e he
    case inr =>
      split at he
      case isTrue  => cases he; exact hnew seq
      case isFalse => cases he
  case refine_3 =>
    have hm : e ∈ (named.requestGaps cfg i q.hashKey q.groupIdx q.subtreeID q.seqs).queued :=
      List.mem_of_mem_take he
    have ⟨s, h⟩ := mem_queued_requestGaps hm
    exact h ▸ hnew s

theorem autoFill {r : Effect} (hf : fs.Marked Q hk) (hr : fs.autoFill recorded seq = some r) :
    r.Marked Q hk :=
  ⟨hf.of_erase (tag_autoFill hr) (autoFill_some hr).1.pending, by simp [queued_autoFill hr]⟩

theorem fill (hf : fs.Marked Q hk) : (fs.fill recorded seq).Marked Q hk := by
  cases fs.fill_or recorded seq
  case inl e =>
    rw [e]
    exact ⟨hf.of_agree tag_noteLateFill noteLateFill_agrees.pending, by simp [queued_noteLateFill]⟩
  case inr hr => exact hf.autoFill hr

theorem cancelGap (hf : fs.Marked Q hk) : (fs.cancelGap recorded e).Marked Q hk := by
  cases fs.cancelGap_or recorded e
  case inl e  => rw [e]; exact hf.quiet
  case inr hr => exact hf.autoFill hr

theorem abandonGap {reason : AbandonReason} (hf : fs.Marked Q hk) :
    (fs.abandonGap now e reason).Marked Q hk := by
  have hp : (fs.abandonGap now e reason).flow.pending = _ := abandonGap_pending
  refine ⟨hf.of_erase ?_ hp, ?_⟩
  case refine_1 =>
    simp only [FlowState.abandonGap]
    split
    case isTrue  => rfl
    case isFalse => exact tag_bookAbandon
  case refine_2 =>
    simp only [FlowState.abandonGap]
    split <;> exact fun _ hg => absurd hg List.not_mem_nil

theorem probeMissed (hf : fs.Marked Q hk) : (fs.probeMissed e).Marked Q hk :=
  ⟨hf.of_erase rfl rfl, nofun⟩

theorem answered {r : Effect} (hf : fs.Marked Q hk) (h : fs.Answered seq r) : r.Marked Q hk := by
  cases h
  case unknown => exact hf.quiet
  case renewed hl hr =>
    obtain ⟨_, _, _, _, rfl⟩ := hr
    have he := hf.gaps _ _ hl
    exact ⟨hf.of_insert rfl rfl (he.of_eq rfl rfl), nofun⟩

theorem evict {reason : AbandonReason} (hf : fs.Marked Q hk) :
    (fs.evict now seq e reason).Marked Q hk := by
  refine ⟨hf.of_erase ?_ evict_pending, ?_⟩
  case refine_1 =>
    simp only [FlowState.evict]
    split
    case isTrue  => rfl
    case isFalse => exact tag_bookAbandon
  case refine_2 =>
    simp only [FlowState.evict]
    split <;> exact fun _ hg => absurd hg List.not_mem_nil

theorem sweptEntry {r : Effect} (hf : fs.Marked Q hk) (h : SweptEntry now fs seq r) :
    r.Marked Q hk := by
  cases h
  case kept    => exact hf.quiet
  case evicted => exact hf.evict
  case rescheduled e' _ hl hr hc =>
    have he : e'.Marked Q hk := by
      obtain ⟨_, rfl⟩ := hr
      exact (hf.gaps seq _ hl).of_eq rfl rfl
    exact ⟨hf.of_insert rfl rfl he, fun g hg => hc g hg ▸ he⟩

theorem sweepEntries {room : SeqNum → Bool} {ss : List SeqNum} (hf : fs.Marked Q hk) :
    (fs.sweepEntries cfg now room ss).Marked Q hk := by
  induction ss generalizing fs
  case nil => exact hf.quiet
  case cons s ss hi =>
    have hb : (fs.sweepEntry cfg now (room s) s).Marked Q hk := hf.sweptEntry sweepEntry_swept
    have hr := hi hb.flow
    exact ⟨hr.flow, fun g hg => (List.mem_append.mp hg).elim (hb.queued g) (hr.queued g)⟩

theorem maybeProbeTail (cfg : Config) (now : Time) (room : Bool) (hf : fs.Marked Q hk) :
    (fs.maybeProbeTail cfg hk now room).Marked Q hk := by
  simp only [FlowState.maybeProbeTail]
  have he : (fs.probe cfg hk now).Marked Q hk := ⟨rfl, hf.tag⟩
  split
  case isTrue => exact hf.quiet
  case isFalse =>
    split
    case isTrue  => exact ⟨hf.of_insert rfl rfl he, fun g hg => List.mem_singleton.mp hg ▸ he⟩
    case isFalse => exact ⟨hf.of_erase rfl rfl, by simp⟩

theorem sweep {room : SeqNum → Bool} (hf : fs.Marked Q hk) :
    (fs.sweep cfg hk now room).Marked Q hk := by
  have hp : (fs.purgeAbandoned now).Marked Q hk := hf.of_agree rfl rfl
  have hr : ((fs.purgeAbandoned now).sweepEntries cfg now room
      (fs.purgeAbandoned now).pending.keys).Marked Q hk := hp.sweepEntries
  simp only [FlowState.sweep]
  split
  case isFalse => exact hr
  case isTrue =>
    have ht := hr.flow.maybeProbeTail cfg now
      (room ((((fs.purgeAbandoned now).sweepEntries cfg now room
        (fs.purgeAbandoned now).pending.keys).flow.lastSeqNum + 1) % 2 ^ 64))
    exact ⟨ht.flow, fun g hg => (List.mem_append.mp hg).elim (hr.queued g) (ht.queued g)⟩

end Marked
end FlowState

namespace Tracker

variable {cfg : Config} {i : Instant} {t : Tracker} {now : Time}

-- Every flow, every pending gap and every copy in flight has an allowed tag.
structure Marked (Q : HashKey → Tag → Prop) (t : Tracker) : Prop where
  flows    : ∀ hk fs, t.flows.lookup hk = some fs → fs.Marked Q hk
  inFlight : ∀ e ∈ t.inFlight, Q e.hashKey e.tag

-- The tag that a call finds: that of the flow, or that of the flow it creates.
def tagFor (t : Tracker) (hk : HashKey) (subtreeID : Bytes32) : Tag :=
  ((t.flows.lookup hk).map FlowState.tag).getD ⟨ownerUnknown, subtreeID⟩

-- What an operation needs to keep the tags.
def Suits (Q : HashKey → Tag → Prop) (t : Tracker) : Op → Prop
  | .observe _ a   => (t.tagFor a.hashKey a.subtreeID).Allows Q a.hashKey a.owner a.subtreeID
  | .request _ _ q => (t.tagFor q.hashKey q.subtreeID).Allows Q q.hashKey q.owner q.subtreeID
  | _              => True

namespace Marked

theorem iff_each :
    t.Marked Q ↔ t.Each (fun hk fs => fs.Marked Q hk) fun e => Q e.hashKey e.tag :=
  ⟨fun ht => ⟨ht.flows, ht.inFlight⟩, fun ht => ⟨ht.flows, ht.inFlight⟩⟩

theorem meets {r : Effect} (hr : r.Marked Q hk) :
    r.Meets (fun hk fs => fs.Marked Q hk) (fun e => Q e.hashKey e.tag) hk where
  flow        := hr.flow
  queued e he := have hm := hr.queued e he; hm.hashKey ▸ hm.tag

theorem new : Tracker.new.Marked Q :=
  iff_each.mpr .new

theorem onFlow {op : FlowState → Effect} (ht : t.Marked Q)
    (hop : ∀ fs, fs.Marked Q hk → (op fs).Marked Q hk) : (t.onFlow hk op).Marked Q :=
  iff_each.mpr <| (iff_each.mp ht).onFlow fun fs hl => meets (hop fs (ht.flows hk fs hl))

theorem observeFrom {a : Arrival} (ht : t.Marked Q) (hs : t.Suits Q (.observe i a)) :
    (t.observeFrom cfg i a).Marked Q := by
  refine iff_each.mpr <| (iff_each.mp ht).observeFrom fun fs hf => meets ?_
  simp only [Suits, tagFor] at hs
  rcases flowFor_cases hf with hl | ⟨hl, rfl⟩
  case inl =>
    rw [hl] at hs
    exact FlowState.Marked.observe (ht.flows _ fs hl).gaps rfl hs
  case inr =>
    rw [hl] at hs
    exact FlowState.Marked.observe nofun rfl hs

theorem requestGapsFrom {room : Nat} {q : Request} (ht : t.Marked Q)
    (hs : t.Suits Q (.request i room q)) : (t.requestGapsFrom cfg i room q).Marked Q := by
  refine iff_each.mpr <| (iff_each.mp ht).requestGapsFrom fun fs hf => meets ?_
  simp only [Suits, tagFor] at hs
  rcases requestFlow_cases hf with hl | ⟨hl, rfl⟩
  case inl =>
    rw [hl] at hs
    exact FlowState.Marked.request (ht.flows _ fs hl).gaps rfl hs
  case inr =>
    rw [hl] at hs
    exact FlowState.Marked.request nofun rfl hs

theorem sweepOnce {room : HashKey → SeqNum → Bool} (ht : t.Marked Q) :
    (t.sweepOnce cfg now room).Marked Q :=
  iff_each.mpr <| (iff_each.mp ht).sweepOnce fun _ _ hf => meets hf.sweep

theorem complete {e : GapEntry} {c : Completion} (ht : t.Marked Q) :
    (t.complete cfg i e c).Marked Q := by
  cases c
  case cancel    => exact ht.onFlow fun _ hf => hf.cancelGap
  case abandon   => exact ht.onFlow fun _ hf => hf.abandonGap
  case advance   => exact ht.onFlow fun _ hf => hf.answered FlowState.advanceEndpoint_answered
  case throttle  => exact ht.onFlow fun _ hf => hf.answered FlowState.throttleGap_answered
  case probeMiss => exact ht.onFlow fun _ hf => hf.probeMissed
  case lost      => exact ht

-- Tags come from the calls that name a worker and a SubtreeID, and from nowhere else.
theorem step {op : Op} (ht : t.Marked Q) (hs : t.Suits Q op) : (t.step cfg op).Marked Q := by
  cases op
  case observe i a      => exact ht.observeFrom hs
  case request i room q => exact ht.requestGapsFrom hs
  case sweep now room   => exact ht.sweepOnce
  case fill hk s        => exact iff_each.mpr <| (iff_each.mp ht).fill fun _ hf => meets hf.fill
  case complete i e c =>
    have hc : (t.complete cfg i e c).Marked Q := ht.complete
    exact ⟨hc.flows, fun g hg => ht.inFlight g (List.mem_of_mem_erase hg)⟩

end Marked
end Tracker
end Nack
