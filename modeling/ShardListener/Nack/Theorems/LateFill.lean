import ShardListener.Nack.Bookings
import ShardListener.Nack.Theorems.Marker

theorem List.exists_last_append {α : Type} {a : α} {l : List α} (h : a ∈ l) :
    ∃ p q, l = p ++ a :: q ∧ a ∉ q := by
  have ⟨p, q, he, hn⟩ := List.eq_append_cons_of_mem (List.mem_reverse.mpr h)
  refine ⟨q.reverse, p.reverse, ?_, by simpa using hn⟩
  rw [← List.reverse_reverse l, he]
  simp

namespace Nack
namespace Booking

variable {log bs cs : List Booking} {seq : SeqNum}

-- The SeqNum was booked unrecovered, and not late-filled since.
def Unfilled (log : List Booking) (seq : SeqNum) : Prop :=
  ∃ since, unrecovered seq :: since <:+ log ∧ lateFill seq ∉ since

-- It was booked unrecovered, and neither late-filled since, nor has the numbering started anew.
def Owed (log : List Booking) (seq : SeqNum) : Prop :=
  ∃ since, unrecovered seq :: since <:+ log ∧ lateFill seq ∉ since ∧ restart ∉ since

-- The numbering has started anew, and the SeqNum was not booked unrecovered since.
def Outdated (log : List Booking) (seq : SeqNum) : Prop :=
  ∃ since, restart :: since <:+ log ∧ unrecovered seq ∉ since

theorem Unfilled.append (h : Unfilled log seq) (hb : lateFill seq ∉ bs) :
    Unfilled (log ++ bs) seq := by
  obtain ⟨since, ⟨p, rfl⟩, hn⟩ := h
  refine ⟨since ++ bs, ⟨p, by simp⟩, ?_⟩
  simp [hn, hb]

theorem Unfilled.prepend (h : Unfilled bs seq) (log : List Booking) : Unfilled (log ++ bs) seq :=
  have ⟨since, hs, hn⟩ := h
  ⟨since, hs.trans (List.suffix_append log bs), hn⟩

theorem Unfilled.single : Unfilled [unrecovered seq] seq :=
  ⟨[], List.suffix_refl _, List.not_mem_nil⟩

theorem Owed.not_outdated (h : Owed log seq) : ¬Outdated log seq := by
  intro ⟨l, hl, hu⟩
  have ⟨since, hs, _, hr⟩ := h
  rcases List.suffix_or_suffix_of_suffix hs hl with h | h
  case inl =>
    rcases List.suffix_cons_iff.mp h with h | h
    case inl => cases h
    case inr => exact hu (h.subset List.mem_cons_self)
  case inr =>
    rcases List.suffix_cons_iff.mp h with h | h
    case inl => cases h
    case inr => exact hr (h.subset List.mem_cons_self)

-- Of the restarts since the booking, the last one decides.
theorem Unfilled.owed (h : Unfilled log seq) (ho : ¬Outdated log seq) : Owed log seq := by
  have ⟨since, hs, hn⟩ := h
  by_cases hr : restart ∈ since
  case neg => exact ⟨since, hs, hn, hr⟩
  case pos =>
    obtain ⟨p, l, rfl, hl⟩ := List.exists_last_append hr
    have hsub : restart :: l <:+ log :=
      (List.suffix_append p _).trans ((List.suffix_cons _ _).trans hs)
    have hu : unrecovered seq ∈ l := by
      by_contra hu
      exact ho ⟨l, hsub, hu⟩
    obtain ⟨q, since, rfl⟩ := List.append_of_mem hu
    refine ⟨since, (List.suffix_append q _).trans ((List.suffix_cons _ _).trans hsub), ?_, ?_⟩
    case refine_1 => exact fun h => hn (by simp [h])
    case refine_2 => exact fun h => hl (by simp [h])

theorem Unfilled.owed_iff (h : Unfilled log seq) : Owed log seq ↔ ¬Outdated log seq :=
  ⟨Owed.not_outdated, h.owed⟩

-- Every late fill in the log was owed when it was booked.
def Genuine (log : List Booking) : Prop :=
  ∀ before after seq, log = before ++ lateFill seq :: after → Owed before seq

theorem Genuine.nil : Genuine [] := by
  intro before after seq h
  simp at h

theorem Genuine.left (h : Genuine (log ++ bs)) : Genuine log := by
  intro before after seq he
  exact h before (after ++ bs) seq (by simp [he])

theorem Genuine.append (h : Genuine log) (hn : ∀ seq, lateFill seq ∉ bs) : Genuine (log ++ bs) := by
  intro before after seq he
  rcases List.append_eq_append_iff.mp he with ⟨mid, rfl, hb⟩ | ⟨mid, rfl, hb⟩
  case inl => exact absurd (hb ▸ by simp) (hn seq)
  case inr =>
    cases mid
    case nil =>
      rw [List.nil_append] at hb
      exact absurd (hb ▸ List.mem_cons_self) (hn seq)
    case cons b mid =>
      cases (List.cons.inj hb).1
      exact h before mid seq rfl

theorem Genuine.lateFill_iff (h : Genuine log) :
    Genuine (log ++ [lateFill seq]) ↔ Owed log seq := by
  constructor
  case mp => exact fun hg => hg log [] seq rfl
  case mpr =>
    intro ho before after s he
    rcases List.append_eq_append_iff.mp he with ⟨mid, rfl, hb⟩ | ⟨mid, rfl, hb⟩
    case inl =>
      cases mid
      case nil =>
        cases (List.cons.inj hb).1
        rwa [List.append_nil]
      case cons b mid =>
        have hlen := congrArg List.length hb
        simp at hlen
    case inr =>
      cases mid
      case nil =>
        cases (List.cons.inj hb).1
        rwa [List.append_nil] at ho
      case cons b mid =>
        cases (List.cons.inj hb).1
        exact h before mid s rfl

end Booking

-- What the recorder is told of a booking.
inductive Ending
  | unrecovered | lateFilled
deriving DecidableEq

def Metric.ending : Metric → Option Ending
  | gapUnrecovered .. => some .unrecovered
  | gapLateFilled ..  => some .lateFilled
  | _                 => none

def Booking.ending : Booking → Option Ending
  | unrecovered _ => some .unrecovered
  | lateFill _    => some .lateFilled
  | restart       => none

namespace FlowState

variable {cfg : Config} {i : Instant} {fs f g : FlowState} {a : Arrival} {e : GapEntry}
variable {seq : SeqNum}
variable {now : Time} {recorded : Bool} {hk : HashKey} {bs cs : List Booking} {ms ns : List Metric}

-- A part of an operation that leaves the flow `f` books `bs`: this is what the recorder is told,
-- and what the flow remembers as abandoned was remembered before, or is booked, and not
-- late-filled.
structure Books (fs : FlowState) (bs : List Booking) (ms : List Metric) (f : FlowState) : Prop where
  metrics : ms.filterMap Metric.ending = bs.filterMap Booking.ending
  memory  : ∀ seq ∈ f.abandoned, seq ∈ fs.abandoned ∧ .lateFill seq ∉ bs ∨ Booking.Unfilled bs seq

namespace Books

-- Without a booking, a flow that remembers nothing has nothing to remember.
theorem unremembered (h : fs.Books [] ms f) (hn : fs.abandoned = ∅) (seq : SeqNum) :
    seq ∉ f.abandoned := by
  intro hm
  rcases h.memory seq hm with ⟨hm, _⟩ | ⟨_, hu, _⟩
  case inl => rw [hn] at hm; cases hm
  case inr => simp at hu

theorem trans (h : fs.Books bs ms f) (h' : f.Books cs ns g) : fs.Books (bs ++ cs) (ms ++ ns) g where
  metrics := by simp only [List.filterMap_append, h.metrics, h'.metrics]
  memory seq hm := by
    rcases h'.memory seq hm with ⟨hm, hc⟩ | hu
    case inr => exact .inr (hu.prepend bs)
    case inl =>
      rcases h.memory seq hm with ⟨hm, hb⟩ | hu
      case inl => exact .inl ⟨hm, by simp [hb, hc]⟩
      case inr => exact .inr (hu.append hc)

-- Nothing is booked, and the memory shrinks at most.
theorem nothing (hm : ms.filterMap Metric.ending = [])
    (ha : ∀ seq ∈ f.abandoned, seq ∈ fs.abandoned) : fs.Books [] ms f :=
  ⟨hm, fun seq h => .inl ⟨ha seq h, List.not_mem_nil⟩⟩

theorem kept (hm : ms.filterMap Metric.ending = []) (ha : f.abandoned = fs.abandoned) :
    fs.Books [] ms f :=
  nothing hm fun _ h => ha ▸ h

theorem bookAbandon {src : Option IP} {reason : AbandonReason} :
    let r := fs.bookAbandon now seq src reason
    fs.Books [.unrecovered seq] r.metrics r.flow where
  metrics := rfl
  memory s hs := by
    simp only [FlowState.bookAbandon] at hs
    split at hs
    case isFalse => exact .inl ⟨hs, by simp⟩
    case isTrue =>
      rcases (AList.mem_insert _).mp hs with rfl | hs
      case inl => exact .inr .single
      case inr => exact .inl ⟨hs, by simp⟩

theorem noteLateFill :
    fs.Books (fs.lateFillBookings seq) (fs.noteLateFill seq).metrics
      (fs.noteLateFill seq).flow := by
  cases h : fs.abandoned.lookup seq
  case none =>
    simp only [FlowState.noteLateFill, lateFillBookings, h]
    exact kept rfl rfl
  case some =>
    simp only [FlowState.noteLateFill, lateFillBookings, h]
    refine ⟨rfl, fun s hs => ?_⟩
    obtain ⟨hne, hs⟩ := AList.mem_erase.mp hs
    exact .inl ⟨hs, by simpa using hne⟩

theorem evict {reason : AbandonReason} :
    let r := fs.evict now seq e reason
    fs.Books (evictBookings seq e) r.metrics r.flow := by
  simp only [FlowState.evict, evictBookings]
  split
  case isTrue  => exact kept rfl rfl
  case isFalse => exact ⟨rfl, bookAbandon.memory⟩

theorem flushRestart {es : List (Sigma fun _ : SeqNum => GapEntry)} :
    let r := fs.flushRestart now es
    fs.Books (flushBookings es) r.metrics r.flow := by
  induction es generalizing fs
  case nil => exact kept rfl rfl
  case cons e es hi =>
    simp only [FlowState.flushRestart, flushBookings]
    split
    case isTrue  => exact hi
    case isFalse => exact bookAbandon.trans hi

theorem autoFill {r : Effect} (hr : fs.autoFill recorded seq = some r) :
    fs.Books [] r.metrics r.flow := by
  have ⟨e, _, hb⟩ := Option.map_eq_some_iff.mp hr
  rw [← hb]
  simp only [bookFill]
  repeat' split
  all_goals exact kept rfl rfl

theorem restart :
    let r := fs.restart now seq
    fs.Books (flushBookings fs.pending.entries ++ [.restart]) r.metrics r.flow := by
  have hreset : (fs.flushRestart now fs.pending.entries).flow.Books [.restart] []
    (fs.restart now seq).flow := ⟨rfl, fun s hs => .inl ⟨hs, by simp⟩⟩
  have h := flushRestart.trans hreset
  rwa [List.append_nil] at h

theorem ending_registerGaps {ss : List SeqNum} :
    (fs.registerGaps cfg i a ss).metrics.filterMap Metric.ending = [] := by
  induction ss generalizing fs
  case nil => rfl
  case cons s ss hi =>
    simp only [registerGaps]
    split
    case h_1 => exact hi
    case h_2 => exact hi

theorem ending_registerTail {ss : List SeqNum} :
    (fs.registerTail cfg i a ss).metrics.filterMap Metric.ending = [] := by
  induction ss generalizing fs
  case nil          => rfl
  case cons s ss hi => exact hi

theorem ladder {elapsed : Duration} :
    let r := fs.ladder cfg i a elapsed
    fs.Books (fs.ladderBookings cfg a elapsed) r.metrics r.flow := by
  simp only [FlowState.ladder, ladderBookings]
  cases fs.verdict cfg elapsed a.seqNum a.source.isSome
  case restart => exact restart
  case emitterChange =>
    refine kept ?_ ?_
    case refine_1 => simp [rebaseline, ending_registerTail, Metric.ending]
    case refine_2 => simp only [rebaseline]; rw [registerTail_flow]
  case gap =>
    refine kept ending_registerGaps ?_
    simp only [openGap]
    rw [registerGaps_flow]
  all_goals exact kept rfl rfl

theorem settle {elapsed : Duration} :
    let r := fs.settle cfg i recorded a elapsed
    fs.Books (fs.settleBookings cfg recorded a elapsed) r.metrics r.flow := by
  simp only [FlowState.settle, settleBookings]
  cases hr : fs.autoFill recorded a.seqNum
  case none => exact ladder
  case some r =>
    dsimp only
    split
    case isTrue  => exact autoFill hr
    case isFalse => exact (autoFill hr).trans ladder

theorem observe :
    let r := fs.observe cfg i recorded a
    fs.Books (fs.observeBookings cfg i recorded a) r.metrics r.flow := by
  have ht : fs.Books [] [] (fs.touch i.now a) := kept rfl rfl
  exact (ht.trans noteLateFill).trans settle

-- The first frame of a flow books nothing.
theorem observe_new {g : GroupIdx} {sub : Bytes32} :
    let r := (FlowState.new g sub).observe cfg i recorded a
    (FlowState.new g sub).Books [] r.metrics r.flow :=
  observe

theorem fill :
    fs.Books (fs.fillBookings seq) (fs.fill recorded seq).metrics (fs.fill recorded seq).flow := by
  simp only [FlowState.fill, fillBookings]
  cases hr : fs.autoFill recorded seq
  case none =>
    rw [autoFill_none_iff.mp hr]
    exact noteLateFill
  case some r =>
    obtain ⟨e, he⟩ := Option.isSome_iff_exists.mp (autoFill_some hr).2
    rw [he]
    exact autoFill hr

theorem cancelGap :
    let r := fs.cancelGap recorded e
    fs.Books [] r.metrics r.flow := by
  cases fs.cancelGap_or recorded e
  case inl e  => rw [e]; exact kept rfl rfl
  case inr hr => exact autoFill hr

theorem sweepEntry {room : Bool} :
    let r := fs.sweepEntry cfg now room seq
    fs.Books (fs.sweepEntryBookings cfg now seq) r.metrics r.flow := by
  simp only [FlowState.sweepEntry, sweepEntryBookings]
  cases fs.pending.lookup seq
  case none => exact kept rfl rfl
  case some e =>
    dsimp only
    by_cases hd : now > e.deadline
    case pos =>
      rw [if_pos hd, if_pos (.inl hd)]
      exact evict
    case neg =>
      rw [if_neg hd]
      by_cases hr : e.failRounds ≥ cfg.maxRetries
      case pos =>
        rw [if_pos hr, if_pos (.inr hr)]
        exact evict
      case neg =>
        rw [if_neg hr, if_neg (not_or.mpr ⟨hd, hr⟩)]
        repeat' split
        all_goals exact kept rfl rfl

theorem sweepEntries {room : SeqNum → Bool} {ss : List SeqNum} :
    let r := fs.sweepEntries cfg now room ss
    fs.Books (fs.sweepEntriesBookings cfg now room ss) r.metrics r.flow := by
  induction ss generalizing fs
  case nil          => exact kept rfl rfl
  case cons s ss hi => exact sweepEntry.trans hi

theorem maybeProbeTail {room : Bool} :
    let r := fs.maybeProbeTail cfg hk now room
    fs.Books [] r.metrics r.flow := by
  simp only [FlowState.maybeProbeTail]
  repeat' split
  all_goals exact kept rfl rfl

theorem purgeAbandoned : fs.Books [] [] (fs.purgeAbandoned now) := by
  refine nothing rfl fun seq => ?_
  simp only [FlowState.purgeAbandoned]
  generalize fs.abandoned.keys = ss
  generalize fs.abandoned = m
  induction ss generalizing m
  case nil => exact id
  case cons s ss hi =>
    intro hm
    have hm := hi _ hm
    dsimp only at hm
    split at hm
    case h_2 => exact hm
    case h_1 =>
      split at hm
      case isTrue  => exact (AList.mem_erase.mp hm).2
      case isFalse => exact hm

theorem sweep {room : SeqNum → Bool} :
    let r := fs.sweep cfg hk now room
    fs.Books (fs.sweepBookings cfg now room) r.metrics r.flow := by
  have hs : fs.Books (fs.sweepBookings cfg now room) _ _ := purgeAbandoned.trans sweepEntries
  simp only [FlowState.sweep]
  split
  case isFalse => exact hs
  case isTrue =>
    rw [← List.append_nil (fs.sweepBookings cfg now room)]
    exact hs.trans maybeProbeTail

theorem abandonGap {reason : AbandonReason} :
    let r := fs.abandonGap now e reason
    fs.Books (evictBookings e.seqNum e) r.metrics r.flow := by
  simp only [FlowState.abandonGap, evictBookings]
  split
  case isTrue  => exact kept rfl rfl
  case isFalse => exact ⟨rfl, bookAbandon.memory⟩

theorem request {room : Nat} {q : Request} : fs.Books [] [] (fs.request cfg i room q).flow := by
  refine kept rfl ?_
  simp only [FlowState.request]
  rw [requestGaps_flow]

theorem answered {r : Effect} (h : fs.Answered seq r) : fs.Books [] [] r.flow := by
  cases h
  case unknown => exact kept rfl rfl
  case renewed => exact kept rfl rfl

end Books

-- Late fills are booked for the frame that a call brings, and before all else.

theorem lateFill_not_mem_flush {es : List (Sigma fun _ : SeqNum => GapEntry)} :
    .lateFill seq ∉ flushBookings es := by
  induction es
  case nil => exact List.not_mem_nil
  case cons e es hi =>
    simp only [flushBookings]
    split
    case isTrue  => exact hi
    case isFalse => simpa using hi

theorem lateFill_not_mem_ladder {elapsed : Duration} :
    .lateFill seq ∉ fs.ladderBookings cfg a elapsed := by
  simp only [ladderBookings]
  split
  case h_1 => simp [lateFill_not_mem_flush]
  case h_2 => exact List.not_mem_nil

theorem lateFill_not_mem_settle {elapsed : Duration} :
    .lateFill seq ∉ fs.settleBookings cfg recorded a elapsed := by
  simp only [settleBookings]
  repeat' split
  case h_1         => exact lateFill_not_mem_ladder
  case h_2.isTrue  => exact List.not_mem_nil
  case h_2.isFalse => exact lateFill_not_mem_ladder

theorem lateFill_not_mem_evict {s : SeqNum} : .lateFill seq ∉ evictBookings s e := by
  simp only [evictBookings]
  split <;> simp

theorem lateFill_not_mem_sweepEntry {s : SeqNum} :
    .lateFill seq ∉ fs.sweepEntryBookings cfg now s := by
  simp only [sweepEntryBookings]
  repeat' split
  case h_1         => exact List.not_mem_nil
  case h_2.isTrue  => exact lateFill_not_mem_evict
  case h_2.isFalse => exact List.not_mem_nil

theorem lateFill_not_mem_sweepEntries {room : SeqNum → Bool} {ss : List SeqNum} :
    .lateFill seq ∉ fs.sweepEntriesBookings cfg now room ss := by
  induction ss generalizing fs
  case nil          => exact List.not_mem_nil
  case cons s ss hi => simp [sweepEntriesBookings, lateFill_not_mem_sweepEntry, hi]

-- The SeqNum of the frame that an operation brings to the flow stored under `hk`. A fill that
-- closes a pending gap is not compared with the memory.
def brings (hk : HashKey) (fs : FlowState) : Op → Option SeqNum
  | .observe _ a => if a.hashKey = hk ∧ a.seqNum ≠ 0 then some a.seqNum else none
  | .fill hk' seq =>
    if hk' = hk ∧ seq ≠ 0 ∧ fs.pending.lookup seq = none then some seq else none
  | _ => none

theorem bookings_eq (cfg : Config) (hk : HashKey) (recorded : Bool) (fs : FlowState) (op : Op) :
    ∃ rest, (∀ seq, .lateFill seq ∉ rest) ∧
      fs.bookings cfg hk recorded op = (fs.brings hk op).elim [] fs.lateFillBookings ++ rest := by
  cases op
  case observe i a =>
    simp only [bookings, brings]
    split
    case isTrue  => exact ⟨_, fun _ => lateFill_not_mem_settle, rfl⟩
    case isFalse => exact ⟨[], fun _ => List.not_mem_nil, rfl⟩
  case request => exact ⟨[], fun _ => List.not_mem_nil, rfl⟩
  case fill hk' seq =>
    refine ⟨[], fun _ => List.not_mem_nil, ?_⟩
    simp only [bookings, brings, fillBookings]
    cases fs.pending.lookup seq
    case none =>
      simp only [and_true]
      split <;> simp
    case some => simp
  case sweep => exact ⟨_, fun _ => lateFill_not_mem_sweepEntries, rfl⟩
  case complete i e c =>
    refine ⟨_, fun seq => ?_, (List.nil_append _).symm⟩
    cases c
    case abandon =>
      simp only [bookings]
      split
      case isTrue  => exact lateFill_not_mem_evict
      case isFalse => exact List.not_mem_nil
    all_goals exact List.not_mem_nil

end FlowState

namespace Tracker

variable {cfg : Config} {i : Instant} {t t' : Tracker} {hk : HashKey} {op : Op}
variable {log bs : List Booking}

theorem bookings_of_lookup {fs : FlowState} (hl : t.flows.lookup hk = some fs) :
    t.bookings cfg hk op = fs.bookings cfg hk t.recorder.isSome op := by
  rw [bookings, hl, Option.elim_some]

theorem bookings_eq_nil (h : ∀ fs : FlowState, fs.bookings cfg hk t.recorder.isSome op = []) :
    t.bookings cfg hk op = [] := by
  cases hl : t.flows.lookup hk
  case none    => rw [bookings, hl, Option.elim_none]
  case some fs => rw [bookings_of_lookup hl, h fs]

-- What the flow remembers as abandoned was booked so, and not late-filled since.
def Recalls (hk : HashKey) (p : Tracker × List Booking) : Prop :=
  ∀ fs, p.1.flows.lookup hk = some fs → ∀ seq ∈ fs.abandoned, Booking.Unfilled p.2 seq

namespace Recalls

theorem of_books (h : Recalls hk (t, log))
    (hb : ∀ f, t'.flows.lookup hk = some f → (∀ seq, seq ∉ f.abandoned) ∨
      ∃ fs ms, t.flows.lookup hk = some fs ∧ fs.Books bs ms f) : Recalls hk (t', log ++ bs) := by
  intro f hf seq hs
  rcases hb f hf with he | ⟨fs, ms, hl, hb⟩
  case inl => exact absurd hs (he seq)
  case inr =>
    rcases hb.memory seq hs with ⟨hm, hn⟩ | hu
    case inl => exact (h fs hl seq hm).append hn
    case inr => exact hu.prepend log

theorem of_lookup_eq (h : Recalls hk (t, log)) (hl : t'.flows.lookup hk = t.flows.lookup hk)
    (hb : ∀ fs : FlowState, fs.bookings cfg hk t.recorder.isSome op = []) :
    Recalls hk (t', log ++ t.bookings cfg hk op) := by
  rw [bookings_eq_nil hb]
  exact h.of_books fun f hf => .inr ⟨f, [], hl ▸ hf, .kept rfl rfl⟩

theorem onFlow {hk' : HashKey} {apply : FlowState → Effect} (h : Recalls hk (t, log))
    (hb : ∀ fs : FlowState,
      if hk' = hk then ∃ ms, fs.Books (fs.bookings cfg hk t.recorder.isSome op) ms (apply fs).flow
      else fs.bookings cfg hk t.recorder.isSome op = []) :
    Recalls hk (t.onFlow hk' apply, log ++ t.bookings cfg hk op) := by
  have hl := lookup_onFlow t hk' hk apply
  by_cases e : hk = hk'
  case neg =>
    rw [if_neg e] at hl
    exact h.of_lookup_eq hl fun fs => by simpa [Ne.symm e] using hb fs
  case pos =>
    subst e
    refine h.of_books fun f hf => .inr ?_
    rw [hl, if_pos rfl] at hf
    have ⟨fs, hfs, ef⟩ := Option.map_eq_some_iff.mp hf
    have ⟨ms, hb⟩ :
        ∃ ms, fs.Books (fs.bookings cfg hk t.recorder.isSome op) ms (apply fs).flow := by
      simpa using hb fs
    rw [bookings_of_lookup hfs]
    exact ⟨fs, ms, hfs, ef ▸ hb⟩

theorem observeFrom {a : Arrival} (h : Recalls hk (t, log)) :
    Recalls hk (t.observeFrom cfg i a, log ++ t.bookings cfg hk (.observe i a)) := by
  by_cases hz : a.seqNum = 0
  case pos =>
    have ht : t.observeFrom cfg i a = t := if_pos hz
    rw [ht]
    exact h.of_lookup_eq rfl fun fs => by simp [FlowState.bookings, hz]
  case neg =>
    have hl := lookup_observeFrom cfg i t hk hz
    by_cases e : hk = a.hashKey
    case neg =>
      rw [if_neg e] at hl
      exact h.of_lookup_eq hl fun fs => by simp [FlowState.bookings, Ne.symm e]
    case pos =>
      subst e
      refine h.of_books fun f hf => ?_
      rw [hl, if_pos rfl] at hf
      have ⟨fs, hfs, ef⟩ := Option.map_eq_some_iff.mp hf
      rw [← ef]
      rcases flowFor_cases hfs with hl | ⟨_, rfl⟩
      case inl =>
        have hb : fs.bookings cfg a.hashKey t.recorder.isSome (.observe i a) =
          fs.observeBookings cfg i t.recorder.isSome a := if_pos ⟨rfl, hz⟩
        rw [bookings_of_lookup hl, hb]
        exact .inr ⟨fs, _, hl, .observe⟩
      case inr => exact .inl (FlowState.Books.observe_new.unremembered rfl)

theorem requestGapsFrom {room : Nat} {q : Request} (h : Recalls hk (t, log)) :
    Recalls hk (t.requestGapsFrom cfg i room q, log ++ t.bookings cfg hk (.request i room q)) := by
  by_cases hq : q.seqs = []
  case pos =>
    have ht : t.requestGapsFrom cfg i room q = t := if_pos hq
    rw [ht]
    exact h.of_lookup_eq rfl fun _ => rfl
  case neg =>
    have hl := lookup_requestGapsFrom cfg i room t hk hq
    by_cases e : hk = q.hashKey
    case neg =>
      rw [if_neg e] at hl
      exact h.of_lookup_eq hl fun _ => rfl
    case pos =>
      subst e
      refine h.of_books fun f hf => ?_
      rw [hl, if_pos rfl] at hf
      have ⟨fs, hfs, ef⟩ := Option.map_eq_some_iff.mp hf
      rw [← ef]
      rcases requestFlow_cases hfs with hl | ⟨_, rfl⟩
      case inl =>
        rw [bookings_of_lookup hl]
        exact .inr ⟨fs, _, hl, .request⟩
      case inr => exact .inl (FlowState.Books.request.unremembered rfl)

theorem fill {hk' : HashKey} {seq : SeqNum} (h : Recalls hk (t, log)) :
    Recalls hk (t.fill hk' seq, log ++ t.bookings cfg hk (.fill hk' seq)) := by
  by_cases hz : seq = 0
  case pos =>
    have ht : t.fill hk' seq = t := if_pos hz
    rw [ht]
    exact h.of_lookup_eq rfl fun fs => by simp [FlowState.bookings, hz]
  case neg =>
    simp only [Tracker.fill, if_neg hz]
    refine h.onFlow fun fs => ?_
    split
    case isFalse e => simp [FlowState.bookings, e]
    case isTrue e =>
      have hb : fs.bookings cfg hk t.recorder.isSome (.fill hk' seq) = fs.fillBookings seq :=
        if_pos ⟨e, hz⟩
      exact ⟨_, hb ▸ FlowState.Books.fill⟩

theorem sweepOnce {now : Time} {room : HashKey → SeqNum → Bool} (h : Recalls hk (t, log)) :
    Recalls hk (t.sweepOnce cfg now room, log ++ t.bookings cfg hk (.sweep now room)) := by
  refine h.of_books fun f hf => .inr ?_
  rw [lookup_sweepOnce] at hf
  have ⟨fs, hl, hf⟩ := Option.bind_eq_some_iff.mp hf
  rw [bookings_of_lookup hl]
  simp only [FlowState.swept] at hf
  split at hf
  case isTrue  => cases hf
  case isFalse => cases hf; exact ⟨fs, _, hl, .sweep⟩

theorem complete {e : GapEntry} {c : Completion} (h : Recalls hk (t, log)) :
    Recalls hk (t.complete cfg i e c, log ++ t.bookings cfg hk (.complete i e c)) := by
  cases c
  case abandon reason =>
    refine h.onFlow fun fs => ?_
    split
    case isFalse ek => exact if_neg ek
    case isTrue ek =>
      have hb : fs.bookings cfg hk t.recorder.isSome (.complete i e (.abandon reason)) =
        FlowState.evictBookings e.seqNum e := if_pos ek
      exact ⟨_, hb ▸ FlowState.Books.abandonGap⟩
  case lost      => exact h.of_lookup_eq rfl fun _ => rfl
  case cancel    => exact h.onFlow fun _ => by split; exacts [⟨_, .cancelGap⟩, rfl]
  case advance   =>
    exact h.onFlow fun _ => by
      split; exacts [⟨_, .answered FlowState.advanceEndpoint_answered⟩, rfl]
  case throttle  =>
    exact h.onFlow fun _ => by split; exacts [⟨_, .answered FlowState.throttleGap_answered⟩, rfl]
  case probeMiss => exact h.onFlow fun _ => by split; exacts [⟨[], .kept rfl rfl⟩, rfl]

theorem step (h : Recalls hk (t, log)) : Recalls hk (logged cfg hk (t, log) op) := by
  cases op
  case observe i a      => exact h.observeFrom
  case request i room q => exact h.requestGapsFrom
  case fill hk' seq     => exact h.fill
  case sweep now room   => exact h.sweepOnce
  case complete i e c   => exact h.complete

end Recalls

-- The frame that an operation brings does not have a SeqNum that is still remembered as abandoned
-- although it was not booked so since the numbering has started anew.
def Current (hk : HashKey) (p : Tracker × List Booking) (op : Op) : Prop :=
  ∀ fs ∈ p.1.flows.lookup hk, ∀ seq ∈ fs.brings hk op, seq ∈ fs.abandoned →
    ¬Booking.Outdated p.2 seq

theorem genuine_bookings_iff (h : Recalls hk (t, log)) (hg : Booking.Genuine log) :
    Booking.Genuine (log ++ t.bookings cfg hk op) ↔ Current hk (t, log) op := by
  cases hl : t.flows.lookup hk
  case none    => simp [bookings, Current, hl, hg]
  case some fs =>
    have ⟨rest, hn, hb⟩ := fs.bookings_eq cfg hk t.recorder.isSome op
    have hcurrent : Current hk (t, log) op ↔
        ∀ seq ∈ fs.brings hk op, seq ∈ fs.abandoned → ¬Booking.Outdated log seq := by
      simp [Current, hl]
    rw [bookings_of_lookup hl, hb, hcurrent, ← List.append_assoc]
    have hrest (l : List Booking) : Booking.Genuine (l ++ rest) ↔ Booking.Genuine l :=
      ⟨.left, fun hg => hg.append hn⟩
    rw [hrest]
    cases fs.brings hk op
    case none => simp [hg]
    case some seq =>
      simp only [Option.elim_some, FlowState.lateFillBookings, Option.mem_def, Option.some.injEq,
        forall_eq']
      by_cases hm : seq ∈ fs.abandoned
      case pos =>
        rw [if_pos (AList.lookup_isSome.mpr hm), hg.lateFill_iff, (h fs hl seq hm).owed_iff]
        exact ⟨fun ho _ => ho, fun ho => ho hm⟩
      case neg =>
        rw [if_neg (fun hs => hm (AList.lookup_isSome.mp hs)), List.append_nil]
        exact ⟨fun _ h => absurd h hm, fun _ => hg⟩

-- The late fills of a flow are genuine throughout a run exactly if no frame of a new numbering has
-- a SeqNum that is remembered from the old one.
theorem genuine_iff_current {recorder : Option (List Metric)} {ops : List Op} :
    Run.Always (logged cfg hk) (fun p => Booking.Genuine p.2) ({ recorder := recorder }, []) ops ↔
      Run.Along (logged cfg hk) (Current hk) ({ recorder := recorder }, []) ops :=
  Run.always_iff_along (fun _ _ h => h.step) (fun _ _ h hg => genuine_bookings_iff h hg) nofun .nil

-- The SeqNums 201 and 202 are lost before a restart. The frame 201 of the restarted proxy then
-- counts as the late arrival of the lost one.
theorem restarted_not_genuine :
    let ops := [frameAt 0 200, frameAt 10 203, frameAt 20 1, frameAt 30 201]
    Run.Along (step .default) Enabled .new ops ∧
      ¬Run.Always (logged .default 7) (fun p => Booking.Genuine p.2) (.new, []) ops := by
  refine ⟨by decide +kernel, fun h => ?_⟩
  have hlog : (Run.exec (logged .default 7) (.new, [])
      [frameAt 0 200, frameAt 10 203, frameAt 20 1, frameAt 30 201]).2 =
        [.unrecovered 202, .unrecovered 201, .restart, .lateFill 201] := by
    decide +kernel
  have howed : Booking.Owed [.unrecovered 202, .unrecovered 201, .restart] 201 :=
    h.last _ [] 201 hlog
  exact howed.not_outdated ⟨[], by decide, by decide⟩

end Tracker
end Nack
