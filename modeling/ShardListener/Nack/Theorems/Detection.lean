import ShardListener.Nack.Theorems.Accounting
import ShardListener.Nack.Theorems.TwoRuns

namespace Nack

-- The SeqNums between the first one and the greatest one that were not seen.
def unseen (first : SeqNum) (seen : Finset SeqNum) : Finset SeqNum :=
  Finset.Ioo first (seen.sup id) \ seen

theorem mem_unseen {first seq : SeqNum} {seen : Finset SeqNum} :
    seq ∈ unseen first seen ↔ first < seq ∧ seq < seen.sup id ∧ seq ∉ seen := by
  simp only [unseen, Finset.mem_sdiff, Finset.mem_Ioo, and_assoc]

-- One more SeqNum is taken off the unseen ones, and leaves those between the greatest one and
-- itself.
theorem mem_unseen_insert {first seq x : SeqNum} {seen : Finset SeqNum} (hf : first ∈ seen) :
    seq ∈ unseen first (insert x seen) ↔
      seq ≠ x ∧ (seq ∈ unseen first seen ∨ seen.sup id < seq ∧ seq < x) := by
  have hle (y : SeqNum) (hy : y ∈ seen) : y ≤ seen.sup id := Finset.le_sup (f := id) hy
  have hfirst := hle first hf
  have hsup : (insert x seen).sup id = max x (seen.sup id) := Finset.sup_insert
  rw [mem_unseen, mem_unseen, hsup, Finset.mem_insert, not_or]
  by_cases hs : seq ∈ seen
  case pos =>
    refine iff_of_false (fun h => h.2.2.2 hs) fun ⟨_, h⟩ => ?_
    exact h.elim (fun h => h.2.2 hs) fun h => h.1.not_ge (hle seq hs)
  case neg =>
    have ⟨last, hl, e⟩ := Finset.exists_mem_eq_sup seen ⟨first, hf⟩ id
    have hne : seq ≠ seen.sup id := fun h => hs (h.trans e ▸ hl)
    simp only [hs, not_false_eq_true, and_true]
    dsimp only [SeqNum] at *
    omega

namespace FlowState

variable {cfg : Config} {i : Instant} {fs : FlowState} {a : Arrival} {seq first : SeqNum}
variable {elapsed : Duration} {recorded : Bool} {seen : Finset SeqNum} {m : Metric}

-- The frame is not taken for one of a restarted proxy or of another emitter.
def Plain (cfg : Config) (i : Instant) (fs : FlowState) (a : Arrival) : Prop :=
  fs.verdictOf cfg i a ≠ some .restart ∧ fs.verdictOf cfg i a ≠ some .emitterChange

instance : Decidable (fs.Plain cfg i a) :=
  inferInstanceAs (Decidable (_ ∧ _))

-- Only a restart books a gap as unrecovered, and only an emitter change discards one.

theorem registerGaps_metrics {ms : List SeqNum} (hm : m ∈ (fs.registerGaps cfg i a ms).metrics) :
    m = .gapDetected fs.flowType a.source := by
  induction ms generalizing fs
  case nil => cases hm
  case cons n ms hi =>
    simp only [registerGaps] at hm
    split at hm
    case h_1 => exact hi hm
    case h_2 => exact (List.mem_cons.mp hm).elim id hi

theorem ladder_metrics (hv : fs.verdict cfg elapsed a.seqNum a.source.isSome ≠ .restart)
    (he : fs.verdict cfg elapsed a.seqNum a.source.isSome ≠ .emitterChange)
    (hm : m ∈ (fs.ladder cfg i a elapsed).metrics) : m.isUnrecovered = false := by
  simp only [ladder] at hm
  split at hm
  case h_3 h => exact absurd h hv
  case h_5 h => exact absurd h he
  case h_6 =>
    rw [registerGaps_metrics hm]
    rfl
  all_goals cases hm

theorem autoFill_metrics {r : Effect} (hr : fs.autoFill recorded seq = some r)
    (hm : m ∈ r.metrics) : m.isUnrecovered = false := by
  have ⟨e, _, he⟩ := Option.map_eq_some_iff.mp hr
  rw [← he] at hm
  simp only [bookFill] at hm
  split at hm
  case isTrue => cases hm
  case isFalse =>
    split at hm
    case isTrue  => fin_cases hm <;> rfl
    case isFalse => fin_cases hm; rfl

theorem noteLateFill_metrics (hm : m ∈ (fs.noteLateFill seq).metrics) :
    m.isUnrecovered = false := by
  simp only [noteLateFill] at hm
  split at hm
  case h_1 => cases hm
  case h_2 => fin_cases hm; rfl

theorem Plain.verdict (hp : fs.Plain cfg i a) {l : FlowState}
    (h : fs.atLadder i recorded a = some l) :
    l.verdict cfg (Time.sub i.now fs.lastSeen) a.seqNum a.source.isSome ≠ .restart ∧
      l.verdict cfg (Time.sub i.now fs.lastSeen) a.seqNum a.source.isSome ≠ .emitterChange := by
  have ⟨hl, hn⟩ := atLadder_agrees h
  have hv : fs.verdictOf cfg i a =
      some (l.verdict cfg (Time.sub i.now fs.lastSeen) a.seqNum a.source.isSome) := by
    rw [verdictOf, if_neg hn, hl.verdict]
    rfl
  simpa [Plain, hv] using hp

theorem Plain.metrics (hp : fs.Plain cfg i a) (hm : m ∈ (fs.observe cfg i recorded a).metrics) :
    m.isUnrecovered = false := by
  have hv {l : FlowState} (h : fs.atLadder i recorded a = some l)
      (hm : m ∈ (l.ladder cfg i a (Time.sub i.now fs.lastSeen)).metrics) :
        m.isUnrecovered = false :=
    ladder_metrics (hp.verdict h).1 (hp.verdict h).2 hm
  simp only [atLadder] at hv
  simp only [observe, settle] at hm
  rcases List.mem_append.mp hm with hm | hm
  case inl => exact noteLateFill_metrics hm
  case inr =>
    split at hm
    case h_1 hr => exact hv (by rw [hr]) hm
    case h_2 r hr =>
      split at hm
      case isTrue => exact autoFill_metrics hr hm
      case isFalse hle =>
        rcases List.mem_append.mp hm with hm | hm
        case inl => exact autoFill_metrics hr hm
        case inr => exact hv (by rw [hr]; exact if_neg hle) hm

theorem Plain.discards (hp : fs.Plain cfg i a) : fs.discards cfg i a = 0 := by
  have hv {l : FlowState} (h : fs.atLadder i true a = some l) :
      l.ladderDiscards cfg a (Time.sub i.now fs.lastSeen) = 0 :=
    if_neg (hp.verdict h).2
  simp only [atLadder] at hv
  simp only [FlowState.discards, settleDiscards]
  split
  case h_1 hr => exact hv (by rw [hr])
  case h_2 r hr =>
    split
    case isTrue      => rfl
    case isFalse hle => exact hv (by rw [hr]; exact if_neg hle)

-- Such a frame closes its own gap, and opens those between the position of the flow and itself.
theorem Plain.observed (recorded : Bool) (hp : fs.Plain cfg i a) (hz : fs.lastSeqNum ≠ 0) :
    let f := (fs.observe cfg i recorded a).flow
    f.lastSeqNum = max fs.lastSeqNum a.seqNum ∧ ∀ seq, f.pending.lookup seq =
      ((fs.pending.erase a.seqNum).lookup seq).or
        (if fs.lastSeqNum < seq ∧ seq < a.seqNum then some ((fs.touch i.now a).newGap cfg i a seq)
        else none) := by
  have ho := observe_observed cfg i recorded fs a
  have hg := verdictOf_guard cfg i fs a
  have ⟨hr, he⟩ := hp
  -- Nothing is between the position and a frame that is not ahead of it.
  have hno (hle : a.seqNum ≤ fs.lastSeqNum + 1) (seq : SeqNum) :
      ¬(fs.lastSeqNum < seq ∧ seq < a.seqNum) := by dsimp only [SeqNum] at *; omega
  simp only [ho.lastSeqNum, ho.pending]
  revert hg hr he
  generalize fs.verdictOf cfg i a = v
  intro hg hr he
  cases v
  case none =>
    refine ⟨(max_eq_left hg.1).symm, fun seq => ?_⟩
    rw [if_neg (hno (Nat.le_succ_of_le hg.1) seq), Option.or_none]
    rfl
  case some v =>
    cases v
    case first         => exact absurd hg hz
    case restart       => exact absurd rfl hr
    case emitterChange => exact absurd rfl he
    case stale =>
      refine ⟨(max_eq_left hg.2.1).symm, fun seq => ?_⟩
      rw [if_neg (hno (Nat.le_succ_of_le hg.2.1) seq), Option.or_none]
      rfl
    case contiguous =>
      refine ⟨(max_eq_right ((Nat.le_succ _).trans_eq hg.2.symm)).symm, fun seq => ?_⟩
      rw [if_neg (hno hg.2.le seq), Option.or_none]
      rfl
    case gap => exact ⟨(max_eq_right (Nat.le_of_lt (Nat.lt_of_succ_lt hg.2.1))).symm, fun _ => rfl⟩

-- What a flow is once the SeqNums `seen` were observed on it, `first` before the others.
structure Detects (first : SeqNum) (seen : Finset SeqNum) (fs : FlowState) : Prop where
  lastSeqNum : fs.lastSeqNum = seen.sup id
  pending    : ∀ seq, (fs.pending.lookup seq).isSome ↔ seq ∈ unseen first seen
  real       : ∀ seq e, fs.pending.lookup seq = some e → e.speculative = false

namespace Detects

theorem new : Detects a.seqNum {a.seqNum}
    ((FlowState.new a.groupIdx a.subtreeID).observe cfg i recorded a).flow := by
  have ho := observe_observed cfg i recorded (FlowState.new a.groupIdx a.subtreeID) a
  have hv : (FlowState.new a.groupIdx a.subtreeID).verdictOf cfg i a = some .first := by
    simp [verdictOf, FlowState.verdict, FlowState.new]
  rw [hv] at ho
  have hnone (seq : SeqNum) :
      ((FlowState.new a.groupIdx a.subtreeID).observe cfg i recorded a).flow.pending.lookup seq =
        none := by
    rw [ho.pending]
    simp [pendingAfter, FlowState.new, AList.lookup_erase_eq_ite]
  refine ⟨?_, fun seq => ?_, fun seq e he => absurd ((hnone seq).symm.trans he) (by simp)⟩
  case refine_1 => rw [ho.lastSeqNum, Finset.sup_singleton]; rfl
  case refine_2 => simp [hnone, unseen]

theorem lastSeqNum_ne_zero (hd : Detects first seen fs) (hf : first ∈ seen) (hz : first ≠ 0) :
    fs.lastSeqNum ≠ 0 := by
  intro e
  have hle : first ≤ seen.sup id := Finset.le_sup (f := id) hf
  rw [← hd.lastSeqNum, e] at hle
  exact hz (Nat.eq_zero_of_le_zero hle)

theorem observe (recorded : Bool) (hd : Detects first seen fs) (hf : first ∈ seen) (hz : first ≠ 0)
    (hp : fs.Plain cfg i a) :
    Detects first (insert a.seqNum seen) (fs.observe cfg i recorded a).flow := by
  have ⟨hmax, hlook⟩ := hp.observed recorded (hd.lastSeqNum_ne_zero hf hz)
  refine ⟨?_, fun seq => ?_, fun seq e he => ?_⟩
  case refine_1 =>
    rw [hmax, hd.lastSeqNum, Finset.sup_insert]
    exact max_comm ..
  case refine_2 =>
    have hopen : (if fs.lastSeqNum < seq ∧ seq < a.seqNum then
        some ((fs.touch i.now a).newGap cfg i a seq) else none).isSome ↔
          fs.lastSeqNum < seq ∧ seq < a.seqNum := Option.isSome_ite
    rw [hlook, Option.isSome_or, Bool.or_eq_true, hopen, mem_unseen_insert hf, ← hd.lastSeqNum,
      ← hd.pending, AList.lookup_erase_eq_ite]
    by_cases e : seq = a.seqNum
    case pos => simp [e]
    case neg => simp [e]
  case refine_3 =>
    rw [hlook] at he
    rcases Option.or_eq_some_iff.mp he with he | ⟨_, he⟩
    case inl =>
      rw [AList.lookup_erase_eq_ite] at he
      split at he
      case isTrue  => cases he
      case isFalse => exact hd.real seq e he
    case inr =>
      split at he
      case isTrue  => cases he; rfl
      case isFalse => cases he

theorem keys (hd : Detects first seen fs) : fs.pending.keys.toFinset = unseen first seen := by
  ext seq
  rw [← hd.pending, List.mem_toFinset, AList.lookup_isSome]
  rfl

theorem real_eq (hd : Detects first seen fs) : fs.real = (unseen first seen).card := by
  have hone : ∀ e ∈ fs.pending.entries, e.2.real = 1 := by
    intro e he
    have hs := hd.real e.1 e.2 (AList.mem_entries_iff.mp he)
    simp [GapEntry.real, hs]
  calc fs.real
    _ = (fs.pending.entries.map fun _ => 1).sum := congrArg List.sum (List.map_congr_left hone)
    _ = fs.pending.keys.length := by simp [← AList.size_eq_length_keys, AList.size]
    _ = fs.pending.keys.toFinset.card := (List.toFinset_card_of_nodup fs.pending.keys_nodup).symm
    _ = (unseen first seen).card := by rw [hd.keys]

end Detects

end FlowState

namespace Tracker

variable {cfg : Config} {i : Instant} {t : Tracker} {a : Arrival} {hk : HashKey} {first : SeqNum}
variable {seen : Finset SeqNum} {n : Int} {c : Call} {cs : List Call}

-- `ObserveFrom`, as a step of a run.
def listen (cfg : Config) (t : Tracker) (c : Call) : Tracker :=
  t.observeFrom cfg c.instant c.arrival

-- The frame of the call is plain for the flow that it is booked on.
def Plain (cfg : Config) (t : Tracker) (c : Call) : Prop :=
  ∀ fs ∈ t.flowFor cfg c.arrival, fs.Plain cfg c.instant c.arrival

instance : DecidablePred (t.Plain cfg) :=
  fun _ => inferInstanceAs (Decidable (∀ fs ∈ _, _))

-- The gaps that were detected, less those that were suppressed.
def outstanding (t : Tracker) : Int :=
  t.log.countP Metric.isDetected - t.log.countP Metric.isSuppressed

-- The flow has detected what is missing among the SeqNums in `seen`, and booked it. `n` was
-- outstanding before.
def Detects (hk : HashKey) (first : SeqNum) (seen : Finset SeqNum) (n : Int) (t : Tracker) : Prop :=
  ∃ fs, t.flows.lookup hk = some fs ∧ fs.Detects first seen ∧
    (t.recorder.isSome → t.outstanding = n + fs.real)

-- A plain frame books each gap that it opens or closes.
theorem outstanding_put {fs : FlowState} (hr : t.recorder.isSome) (hp : fs.Plain cfg i a) :
    let e := fs.observe cfg i true a
    (t.put hk e).outstanding = t.outstanding + (e.flow.real - fs.real) := by
  have hlost : fs.lost (fs.observe cfg i true a) = fs.discards cfg i a := FlowState.lost_observe
  have hnet := Metric.net_eq_counts (fs.observe cfg i true a).metrics
  have hzero : (fs.observe cfg i true a).metrics.countP Metric.isUnrecovered = 0 :=
    List.countP_eq_zero.mpr fun m hm => by rw [hp.metrics hm]; exact Bool.false_ne_true
  have ⟨ms, hms⟩ := Option.isSome_iff_exists.mp hr
  rw [hp.discards, FlowState.lost] at hlost
  simp only [outstanding, log, put, emit, hms, Option.map_some, Option.getD_some,
    List.countP_append]
  push_cast
  omega

theorem Detects.listen (hd : t.Detects hk first seen n)
    (hc : c.arrival.hashKey = hk ∧ c.arrival.seqNum ≠ 0) (hf : first ∈ seen) (hz : first ≠ 0)
    (hp : t.Plain cfg c) : (t.listen cfg c).Detects hk first (insert c.arrival.seqNum seen) n := by
  obtain ⟨rfl, hpos⟩ := hc
  have ⟨fs, hl, hfs, hout⟩ := hd
  have hflow : t.flowFor cfg c.arrival = some fs := by rw [flowFor, hl, Option.some_or]
  have hplain := hp fs hflow
  rw [Tracker.listen, observeFrom_of_flowFor hpos hflow]
  refine ⟨_, by rw [lookup_put, if_pos rfl], hfs.observe _ hf hz hplain, fun hr => ?_⟩
  have hr : t.recorder.isSome := isSome_recorder_emit.symm.trans hr
  rw [hr, outstanding_put hr hplain, hout hr]
  omega

theorem Detects.new (hl : t.flows.lookup c.arrival.hashKey = none) (hfull : ¬t.full cfg)
    (hz : c.arrival.seqNum ≠ 0) (hp : t.Plain cfg c) :
    (t.listen cfg c).Detects c.arrival.hashKey c.arrival.seqNum {c.arrival.seqNum}
      t.outstanding := by
  have hflow : t.flowFor cfg c.arrival = some (.new c.arrival.groupIdx c.arrival.subtreeID) := by
    rw [flowFor, hl, Option.none_or, if_neg hfull]
  rw [Tracker.listen, observeFrom_of_flowFor hz hflow]
  refine ⟨_, by rw [lookup_put, if_pos rfl], .new, fun hr => ?_⟩
  have hr : t.recorder.isSome := isSome_recorder_emit.symm.trans hr
  have hreal : (FlowState.new c.arrival.groupIdx c.arrival.subtreeID).real = 0 := rfl
  rw [hr, outstanding_put hr (hp _ hflow), hreal]
  omega

theorem Detects.exec (hd : t.Detects hk first seen n) (hf : first ∈ seen) (hz : first ≠ 0)
    (hc : ∀ c ∈ cs, c.arrival.hashKey = hk ∧ c.arrival.seqNum ≠ 0)
    (hp : Run.Along (Tracker.listen cfg) (Plain cfg) t cs) :
    (Run.exec (Tracker.listen cfg) t cs).Detects hk first
      (seen ∪ (cs.map fun c => c.arrival.seqNum).toFinset) n := by
  induction cs generalizing t seen
  case nil => simpa using hd
  case cons c cs hi =>
    have ⟨hhead, htail⟩ := List.forall_mem_cons.mp hc
    have hd' := hi (hd.listen hhead hf hz hp.1) (Finset.mem_insert_of_mem hf) htail hp.2
    rwa [List.map_cons, List.toFinset_cons, Finset.union_insert, ← Finset.insert_union]

-- Gap detection is exact: it depends on the first SeqNum and on the set of those that were
-- observed.
theorem detection_exact (hl : t.flows.lookup hk = none) (hfull : ¬t.full cfg)
    (hc : ∀ d ∈ c :: cs, d.arrival.hashKey = hk ∧ d.arrival.seqNum ≠ 0)
    (hp : Run.Along (Tracker.listen cfg) (Plain cfg) t (c :: cs)) :
    let t' := Run.exec (Tracker.listen cfg) t (c :: cs)
    let seen := ((c :: cs).map fun d => d.arrival.seqNum).toFinset
    let gaps := unseen c.arrival.seqNum seen
    ∃ fs, t'.flows.lookup hk = some fs ∧ fs.lastSeqNum = seen.sup id ∧
      fs.pending.keys.toFinset = gaps ∧
        (∀ seq e, fs.pending.lookup seq = some e → e.speculative = false) ∧
        (t.recorder.isSome → t'.outstanding - t.outstanding = gaps.card) := by
  have ⟨hhead, htail⟩ := List.forall_mem_cons.mp hc
  obtain ⟨rfl, hz⟩ := hhead
  have ⟨fs, hfs, hd, hout⟩ :=
    (Detects.new hl hfull hz hp.1).exec (Finset.mem_singleton_self _) hz htail hp.2
  have hseen : ((c :: cs).map fun d => d.arrival.seqNum).toFinset =
      {c.arrival.seqNum} ∪ (cs.map fun d => d.arrival.seqNum).toFinset := by
    rw [List.map_cons, List.toFinset_cons, Finset.insert_eq]
  simp only [hseen]
  refine ⟨fs, hfs, hd.lastSeqNum, hd.keys, hd.real, fun hr => ?_⟩
  have hr' : (Run.exec (Tracker.listen cfg) t (c :: cs)).recorder.isSome :=
    Run.exec_of_step (fun t : Tracker => t.recorder.isSome)
      (fun _ (c : Call) hr => (isSome_recorder_step (.observe c.instant c.arrival)).trans hr) hr
  rw [Run.exec_cons] at hr' ⊢
  rw [hout hr', hd.real_eq]
  omega

-- A call at a time, for one of the frames of a block flow.
def heardAt (ms : Int) (seq : SeqNum) : Call where
  instant := ⟨Time.ms ms, fun _ => 0⟩
  arrival := ⟨0, 0xFFFE, .zero, 7, seq, some 1⟩

theorem detection_out_of_order :
    let t := Run.exec (Tracker.listen .default) .new
      [heardAt 0 3, heardAt 1 9, heardAt 2 6, heardAt 3 1, heardAt 4 6, heardAt 5 10]
    ∃ fs, t.flows.lookup 7 = some fs ∧ fs.lastSeqNum = 10 ∧
      fs.pending.keys.toFinset = {4, 5, 7, 8} ∧
      (∀ seq e, fs.pending.lookup seq = some e → e.speculative = false) ∧
        (Tracker.new.recorder.isSome → t.outstanding - Tracker.new.outstanding = 4) :=
  detection_exact rfl (by decide) (by decide) (by decide +kernel)

end Tracker
end Nack
