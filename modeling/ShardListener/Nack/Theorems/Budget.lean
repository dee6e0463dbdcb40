import ShardListener.Nack.Theorems.Probe

namespace Nack
namespace FlowState

variable {cfg : Config} {i : Instant} {fs f : FlowState} {a : Arrival} {e : GapEntry}
variable {seq s : SeqNum}
variable {now : Time} {recorded : Bool} {hk : HashKey}

-- What the tail probes of a flow depend on, but for its pending entries.
def budget (fs : FlowState) : Duration × Nat × Int × SeqNum :=
  (fs.ewmaIPG, fs.samples, fs.probeMisses, fs.probing)

theorem budget_bookAbandon {src : Option IP} {reason : AbandonReason} :
    (fs.bookAbandon now seq src reason).flow.budget = fs.budget := by
  rw [bookAbandon_flow]
  rfl

theorem budget_noteLateFill : (fs.noteLateFill seq).flow.budget = fs.budget := by
  rw [noteLateFill_flow]
  rfl

theorem budget_requestGaps {g : GroupIdx} {sub : Bytes32} {ss : List SeqNum} :
    (fs.requestGaps cfg i hk g sub ss).flow.budget = fs.budget := by
  rw [requestGaps_flow]
  rfl

-- A probe is under way.
def Probing (fs : FlowState) : Prop :=
  fs.probing ≠ 0 ∨ ∃ e ∈ fs.pending.entries, e.2.speculative = true

instance : Decidable fs.Probing :=
  inferInstanceAs (Decidable (_ ∨ ∃ e ∈ _, _))

theorem probing_iff : fs.Probing ↔ fs.probing ≠ 0 ∨ ∃ seq, fs.Probes seq := by
  refine or_congr_right ⟨?_, ?_⟩
  case refine_1 => exact fun ⟨⟨seq, e⟩, he, hs⟩ => ⟨seq, e, AList.mem_entries_iff.mp he, hs⟩
  case refine_2 => exact fun ⟨seq, e, he, hs⟩ => ⟨⟨seq, e⟩, AList.mem_entries_iff.mpr he, hs⟩

-- The probes without an answer that are counted, and the one that is under way.
def spent (fs : FlowState) : Int :=
  fs.probeMisses + if fs.Probing then 1 else 0

-- The step keeps the estimate of the rate, and no probe ends without being counted.
structure Accounts (fs f : FlowState) : Prop where
  ewmaIPG     : f.ewmaIPG = fs.ewmaIPG
  samples     : f.samples = fs.samples
  probeMisses : fs.probeMisses ≤ f.probeMisses
  spent       : fs.spent ≤ f.spent

namespace Accounts

theorem refl : Accounts fs fs :=
  ⟨rfl, rfl, le_rfl, le_rfl⟩

theorem trans {g : FlowState} (h : Accounts fs f) (h' : Accounts f g) : Accounts fs g where
  ewmaIPG     := h'.ewmaIPG.trans h.ewmaIPG
  samples     := h'.samples.trans h.samples
  probeMisses := h.probeMisses.trans h'.probeMisses
  spent       := h.spent.trans h'.spent

-- The probes are still there.
theorem of_budget (hb : f.budget = fs.budget) (hp : ∀ seq, fs.Probes seq → f.Probes seq) :
    Accounts fs f := by
  have hb : (f.ewmaIPG, f.samples, f.probeMisses, f.probing) = _ := hb
  obtain ⟨hewma, hsamples, hmisses, hprobing⟩ : _ ∧ _ ∧ _ ∧ _ := by simpa [budget] using hb
  refine ⟨hewma, hsamples, hmisses.ge, ?_⟩
  have himp : fs.Probing → f.Probing := by
    rw [probing_iff, probing_iff, hprobing]
    exact Or.imp_right fun ⟨seq, h⟩ => ⟨seq, hp seq h⟩
  simp only [FlowState.spent, hmisses]
  split
  case isTrue h  => rw [if_pos (himp h)]
  case isFalse h => split <;> omega

-- One that ends is counted.
theorem of_retired (hewma : f.ewmaIPG = fs.ewmaIPG) (hsamples : f.samples = fs.samples)
    (hm : f.probeMisses = fs.probeMisses + 1) : Accounts fs f := by
  refine ⟨hewma, hsamples, by omega, ?_⟩
  simp only [FlowState.spent, hm]
  repeat' split
  all_goals omega

-- The entry that is taken out is not a probe.
theorem of_erase (hb : f.budget = fs.budget) (hp : f.pending = fs.pending.erase s)
    (hs : ¬fs.Probes s) : Accounts fs f := by
  refine of_budget hb fun seq ⟨e, he, hspec⟩ => ⟨e, ?_, hspec⟩
  have hne : seq ≠ s := fun es => hs (es ▸ ⟨e, he, hspec⟩)
  rw [Option.mem_def, hp, AList.lookup_erase_eq_ite, if_neg hne]
  exact he

theorem of_insert {e' : GapEntry} (hb : f.budget = fs.budget) (hl : fs.pending.lookup s = some e)
    (he : e'.speculative = e.speculative) (hp : f.pending = fs.pending.insert s e') :
    Accounts fs f := by
  refine of_budget hb fun seq ⟨g, hg, hspec⟩ => ?_
  by_cases hne : seq = s
  case pos =>
    subst hne
    cases hl.symm.trans hg
    exact ⟨e', by rw [hp]; exact AList.lookup_insert _, he.trans hspec⟩
  case neg => exact ⟨g, by rw [hp]; exact (AList.lookup_insert_ne hne).trans hg, hspec⟩

theorem request {room : Nat} {q : Request} : Accounts fs (fs.request cfg i room q).flow := by
  refine of_budget budget_requestGaps fun seq ⟨e, he, hs⟩ => ?_
  have ⟨g, _, hl⟩ := fs.request_lookup cfg i room q seq
  exact ⟨e, by rw [Option.mem_def, hl, Option.mem_def.mp he, Option.some_or], hs⟩

theorem noteLateFill : Accounts fs (fs.noteLateFill seq).flow := by
  refine of_budget budget_noteLateFill fun seq h => ?_
  simpa only [Probes, noteLateFill_agrees.pending] using h

theorem probeMissed : Accounts fs (fs.probeMissed e).flow :=
  of_retired rfl rfl rfl

theorem answered {r : Effect} (h : fs.Answered s r) : Accounts fs r.flow := by
  cases h
  case unknown       => exact refl
  case renewed hl hr => exact of_insert rfl hl hr.speculative rfl

-- The sweep counts a probe that it gives up on.
theorem evict {reason : AbandonReason} (hl : fs.pending.lookup seq = some e) :
    Accounts fs (fs.evict now seq e reason).flow := by
  cases hs : e.speculative
  case true =>
    simp only [FlowState.evict, hs, if_true]
    exact of_retired rfl rfl rfl
  case false =>
    refine of_erase ?_ evict_pending fun hprobes => ?_
    case refine_1 =>
      simp only [FlowState.evict, hs]
      exact budget_bookAbandon
    case refine_2 =>
      obtain ⟨g, hg, hspec⟩ := hprobes
      cases hl.symm.trans hg
      cases hs.symm.trans hspec

theorem sweptEntry {r : Effect} (h : SweptEntry now fs s r) : Accounts fs r.flow := by
  cases h
  case kept                => exact refl
  case evicted hl          => exact evict hl
  case rescheduled hl hr _ => exact of_insert rfl hl hr.speculative rfl

theorem sweepEntries {room : SeqNum → Bool} {ss : List SeqNum} :
    Accounts fs (fs.sweepEntries cfg now room ss).flow := by
  induction ss generalizing fs
  case nil          => exact refl
  case cons s ss hi => exact (sweptEntry sweepEntry_swept).trans hi

theorem purgeAbandoned : Accounts fs (fs.purgeAbandoned now) :=
  of_budget rfl fun _ h => h

-- The entry that is filled is not the probe, nor is it marked as the one that is under way.
theorem autoFill {r : Effect} (hr : fs.autoFill recorded s = some r)
    (hs : ∀ e ∈ fs.pending.lookup s, e.speculative = false ∧ fs.probing ≠ e.seqNum) :
    Accounts fs r.flow := by
  have hp := (autoFill_some hr).1.pending
  have ⟨e, he, hb⟩ := Option.map_eq_some_iff.mp hr
  have ⟨hspec, hprobing⟩ := hs e he
  refine of_erase ?_ hp fun ⟨g, hg, hspec'⟩ => ?_
  case refine_1 =>
    rw [← hb]
    simp only [bookFill, hprobing, hspec, if_false]
    split <;> rfl
  case refine_2 =>
    cases he.symm.trans hg
    cases hspec.symm.trans hspec'

theorem abandonGap {reason : AbandonReason} (hn : fs.probing ≠ e.seqNum)
    (hs : ¬fs.Probes e.seqNum) : Accounts fs (fs.abandonGap now e reason).flow := by
  refine of_erase ?_ abandonGap_pending hs
  simp only [FlowState.abandonGap, hn, if_false]
  split
  case isTrue  => rfl
  case isFalse => exact budget_bookAbandon

end Accounts

-- The estimate of the rate has settled: without, a flow does not probe.
def Settled (fs : FlowState) : Prop :=
  0 < fs.ewmaIPG ∧ minContiguousForRecover ≤ fs.samples

-- The flow has a budget for `n` probes.
structure Within (cfg : Config) (n : Nat) (fs : FlowState) : Prop where
  limit : (n : Int) ≤ cfg.maxMisses
  spent : fs.Settled → (n : Int) ≤ fs.spent

-- The probes that the sweep of a flow puts on the queue.
def probes (cfg : Config) (hk : HashKey) (now : Time) (room : SeqNum → Bool) (fs : FlowState) :
    List GapEntry :=
  let fs := fs.purgeAbandoned now
  let r  := sweepEntries cfg now room fs fs.pending.keys
  if r.flow.pending.size = 0 then
    (r.flow.maybeProbeTail cfg hk now (room ((r.flow.lastSeqNum + 1) % 2 ^ 64))).queued
  else []

theorem Within.accounts {n : Nat} (hw : fs.Within cfg n) (ha : Accounts fs f) : f.Within cfg n where
  limit    := hw.limit
  spent hs := by
    have hs : fs.Settled := by
      have h : 0 < f.ewmaIPG ∧ minContiguousForRecover ≤ f.samples := hs
      rwa [ha.ewmaIPG, ha.samples] at h
    exact (hw.spent hs).trans ha.spent

theorem Within.maybeProbeTail {n : Nat} {room : Bool} (hw : fs.Within cfg n)
    (hz : fs.pending.size = 0) :
    let r := fs.maybeProbeTail cfg hk now room
    r.flow.Within cfg (n + r.queued.length) := by
  have hempty (seq : SeqNum) : fs.pending.lookup seq = none := AList.size_eq_zero_iff.mp hz seq
  simp only [FlowState.maybeProbeTail]
  split
  case isTrue => exact hw
  case isFalse hwant =>
    obtain ⟨_, hprobing, hewma, hsamples, hmisses, _⟩ : cfg.tailProbe = true ∧ fs.probing = 0 ∧
        0 < fs.ewmaIPG ∧ minContiguousForRecover ≤ fs.samples ∧ fs.probeMisses < cfg.maxMisses ∧
          fs.idleAfter cfg ≤ Time.sub now fs.lastSeen := by
      simpa [wantsProbe, and_assoc] using hwant
    have hidle : ¬fs.Probing := by
      rw [probing_iff, not_or]
      refine ⟨not_not.mpr hprobing, ?_⟩
      rintro ⟨seq, e, he, _⟩
      cases (hempty seq).symm.trans he
    have hspent : (n : Int) ≤ fs.probeMisses := by
      have h := hw.spent ⟨hewma, hsamples⟩
      simpa [FlowState.spent, hidle] using h
    split
    case isTrue =>
      refine ⟨?_, fun _ => ?_⟩
      case refine_1 =>
        simp only [List.length_singleton]
        push_cast
        omega
      case refine_2 =>
        have hp : Probing { fs with
            probing := (fs.probe cfg hk now).seqNum
            pending := fs.pending.insert (fs.probe cfg hk now).seqNum (fs.probe cfg hk now) } :=
          probing_iff.mpr (.inr ⟨_, _, AList.lookup_insert _, rfl⟩)
        simp only [FlowState.spent, if_pos hp, List.length_singleton]
        push_cast
        omega
    case isFalse =>
      refine ⟨hw.limit, fun _ => ?_⟩
      simp only [FlowState.spent]
      split <;> simp <;> omega

theorem Within.sweep {n : Nat} {room : SeqNum → Bool} (hw : fs.Within cfg n) :
    (fs.sweep cfg hk now room).flow.Within cfg (n + (fs.probes cfg hk now room).length) := by
  have hr : ((fs.purgeAbandoned now).sweepEntries cfg now room
      (fs.purgeAbandoned now).pending.keys).flow.Within cfg n :=
    hw.accounts (Accounts.purgeAbandoned.trans .sweepEntries)
  simp only [FlowState.sweep, probes]
  split
  case isTrue hz => exact hr.maybeProbeTail hz
  case isFalse   => exact hr

-- The other operations may forget the misses, and do not go below.

theorem probeMisses_autoFill {r : Effect} (hr : fs.autoFill recorded seq = some r)
    (hz : 0 ≤ fs.probeMisses) : 0 ≤ r.flow.probeMisses := by
  have ⟨e, _, hb⟩ := Option.map_eq_some_iff.mp hr
  rw [← hb]
  simp only [bookFill]
  repeat' split
  all_goals first | exact hz | exact le_rfl

theorem probeMisses_ladder {elapsed : Duration} :
    (fs.ladder cfg i a elapsed).flow.probeMisses = fs.probeMisses := by
  rw [ladder_flow]

theorem probeMisses_observe : 0 ≤ (fs.observe cfg i recorded a).flow.probeMisses := by
  refine observe_keeps (P := (0 ≤ FlowState.probeMisses ·)) ?late ?fill ?ladder le_rfl
  case late   => exact fun _ _ hf => hf.trans Accounts.noteLateFill.probeMisses
  case fill   => exact fun _ _ hr hf => probeMisses_autoFill hr hf
  case ladder => exact fun _ _ hf => hf.trans_eq probeMisses_ladder.symm

theorem probeMisses_bookAbandon {src : Option IP} {reason : AbandonReason} :
    (fs.bookAbandon now seq src reason).flow.probeMisses = fs.probeMisses := by
  rw [bookAbandon_flow]

theorem probeMisses_abandonGap {reason : AbandonReason} :
    (fs.abandonGap now e reason).flow.probeMisses = fs.probeMisses := by
  simp only [abandonGap]
  split
  case isTrue  => rfl
  case isFalse => exact probeMisses_bookAbandon

theorem probeMisses_sweep {room : SeqNum → Bool} :
    fs.probeMisses ≤ (fs.sweep cfg hk now room).flow.probeMisses := by
  have hr : Accounts fs ((fs.purgeAbandoned now).sweepEntries cfg now room
    (fs.purgeAbandoned now).pending.keys).flow := Accounts.purgeAbandoned.trans .sweepEntries
  simp only [sweep]
  split
  case isFalse => exact hr.probeMisses
  case isTrue =>
    simp only [maybeProbeTail]
    repeat' split
    all_goals exact hr.probeMisses

end FlowState
end Nack
