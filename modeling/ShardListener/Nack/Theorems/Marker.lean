import ShardListener.Nack.Theorems.Tail

namespace Nack
namespace FlowState

variable {cfg : Config} {i : Instant} {fs f : FlowState} {a : Arrival} {e : GapEntry}
variable {seq s : SeqNum}
variable {now : Time} {recorded : Bool} {hk : HashKey}

-- Every entry is stored under its own SeqNum.
def Keyed (fs : FlowState) : Prop :=
  ∀ seq e, fs.pending.lookup seq = some e → e.seqNum = seq

namespace Keyed

theorem of_erase (hf : fs.Keyed) (hp : f.pending = fs.pending.erase s) : f.Keyed := by
  intro seq e he
  rw [hp, AList.lookup_erase_eq_ite] at he
  split at he
  case isTrue  => cases he
  case isFalse => exact hf seq e he

theorem of_insert (hf : fs.Keyed) (hp : f.pending = fs.pending.insert s e) (he : e.seqNum = s) :
    f.Keyed := by
  intro seq g hg
  rw [hp, AList.lookup_insert_eq_ite] at hg
  split at hg
  case isTrue es => cases hg; exact he.trans es.symm
  case isFalse   => exact hf seq g hg

theorem observe (hf : fs.Keyed) : (fs.observe cfg i recorded a).flow.Keyed := by
  intro seq e he
  rcases observe_pending he with he | he
  case inl => exact hf seq e he
  case inr => exact he ▸ rfl

theorem request {room : Nat} {q : Request} (hf : fs.Keyed) :
    (fs.request cfg i room q).flow.Keyed := by
  intro seq e he
  simp only [FlowState.request, requestGaps_lookup] at he
  rcases Option.or_eq_some_iff.mp he with he | ⟨_, he⟩
  case inl => exact hf seq e he
  case inr =>
    split at he
    case isTrue  => cases he; rfl
    case isFalse => cases he

theorem sweep {room : SeqNum → Bool} (hf : fs.Keyed) : (fs.sweep cfg hk now room).flow.Keyed := by
  intro seq e' he
  rcases sweep_pending he with ⟨e, hl, hr⟩ | ⟨es, _⟩
  case inl =>
    obtain ⟨_, rfl⟩ := hr
    exact hf seq e hl
  case inr => exact es.symm

theorem autoFill {r : Effect} (hf : fs.Keyed) (hr : fs.autoFill recorded s = some r) :
    r.flow.Keyed :=
  hf.of_erase (autoFill_some hr).1.pending

theorem noteLateFill (hf : fs.Keyed) : (fs.noteLateFill s).flow.Keyed := by
  rwa [Keyed, noteLateFill_agrees.pending]

theorem answered {r : Effect} (hf : fs.Keyed) (h : fs.Answered s r) : r.flow.Keyed := by
  cases h
  case unknown => exact hf
  case renewed hl hr => exact hf.of_insert rfl (hr.seqNum.trans (hf _ _ hl))

end Keyed

-- The marker of the probe that is under way names a pending probe, and there is no other one.
structure Backed (fs : FlowState) : Prop where
  marker : fs.probing ≠ 0 → fs.Probes fs.probing
  probes : ∀ seq, fs.Probes seq → seq = fs.probing

-- The verdict drops everything that is pending.
def Drops (cfg : Config) (i : Instant) (fs : FlowState) (a : Arrival) : Prop :=
  fs.verdictOf cfg i a = some .restart ∨ fs.verdictOf cfg i a = some .emitterChange

instance : Decidable (fs.Drops cfg i a) :=
  inferInstanceAs (Decidable (_ ∨ _))

-- What becomes of the probes of a flow.

theorem probes_erase (hp : f.pending = fs.pending.erase s) (seq : SeqNum) :
    f.Probes seq ↔ fs.Probes seq ∧ seq ≠ s := by
  simp only [Probes, hp, AList.lookup_erase_eq_ite]
  by_cases es : seq = s
  case pos => simp [es]
  case neg => simp [es]

theorem probes_insert {e' : GapEntry} (hl : fs.pending.lookup s = some e)
    (hp : f.pending = fs.pending.insert s e') (he : e'.speculative = e.speculative) (seq : SeqNum) :
    f.Probes seq ↔ fs.Probes seq := by
  simp only [Probes, hp, AList.lookup_insert_eq_ite]
  by_cases es : seq = s
  case pos => subst es; simp [hl, he]
  case neg => simp [es]

theorem probes_of_lookup_eq (hl : f.pending.lookup seq = fs.pending.lookup seq) :
    f.Probes seq ↔ fs.Probes seq := by
  simp only [Probes, hl]

theorem probes_or {o : Option GapEntry} (ho : ∀ g ∈ o, g.speculative = false)
    (hl : f.pending.lookup seq = (fs.pending.lookup seq).or o) : f.Probes seq ↔ fs.Probes seq := by
  simp only [Probes, hl]
  cases fs.pending.lookup seq
  case some e => simp
  case none =>
    cases o
    case none   => simp
    case some g => simp [ho g rfl]

theorem probes_observe_of_drops (hd : fs.Drops cfg i a) :
    ¬(fs.observe cfg i recorded a).flow.Probes seq := by
  intro ⟨e, he, hs⟩
  rw [Option.mem_def, (observe_observed cfg i recorded fs a).pending seq] at he
  rcases hd with hv | hv
  case inl => rw [hv] at he; cases he
  case inr =>
    rw [hv] at he
    simp only [pendingAfter] at he
    split at he
    case isTrue  => cases he; cases hs
    case isFalse => cases he

theorem probes_observe (hd : ¬fs.Drops cfg i a) :
    (fs.observe cfg i recorded a).flow.Probes seq ↔ fs.Probes seq ∧ seq ≠ a.seqNum := by
  have ho := (observe_observed cfg i recorded fs a).pending seq
  have hclosed : FlowState.Probes { fs with pending := fs.pending.erase a.seqNum } seq ↔
      fs.Probes seq ∧ seq ≠ a.seqNum := probes_erase rfl seq
  have ⟨hr, hc⟩ := not_or.mp hd
  rw [← hclosed]
  generalize fs.verdictOf cfg i a = v at ho hr hc
  cases v
  case none => exact probes_of_lookup_eq ho
  case some v =>
    cases v
    case restart       => exact absurd rfl hr
    case emitterChange => exact absurd rfl hc
    case gap =>
      refine probes_or (fun g hg => ?_) ho
      split at hg
      case isTrue  => cases hg; rfl
      case isFalse => cases hg
    all_goals exact probes_of_lookup_eq ho

-- What becomes of the marker.

theorem probing_bookAbandon {src : Option IP} {reason : AbandonReason} :
    (fs.bookAbandon now seq src reason).flow.probing = fs.probing := by
  rw [bookAbandon_flow]

theorem probing_noteLateFill : (fs.noteLateFill seq).flow.probing = fs.probing := by
  rw [noteLateFill_flow]

theorem probing_ladder {elapsed : Duration} :
    (fs.ladder cfg i a elapsed).flow.probing = fs.probing := by
  rw [ladder_flow]

-- The marker once the entry of the SeqNum is closed.
def probingWithout (fs : FlowState) (seq : SeqNum) : SeqNum :=
  if fs.probing = seq then 0 else fs.probing

theorem probing_autoFill {r : Effect} (hf : fs.Keyed) (hr : fs.autoFill recorded seq = some r) :
    r.flow.probing = fs.probingWithout seq := by
  have ⟨e, he, hb⟩ := Option.map_eq_some_iff.mp hr
  rw [← hb, probingWithout, ← hf seq e he, bookFill_flow]

namespace Backed

theorem of_kept (hf : fs.Backed) (hm : f.probing = fs.probing)
    (hp : ∀ seq, f.Probes seq ↔ fs.Probes seq) : f.Backed where
  marker h     := (hp _).mpr (hm ▸ hf.marker (hm ▸ h))
  probes seq h := (hf.probes seq ((hp seq).mp h)).trans hm.symm

-- The probe for `s`, if there is one, is closed together with the marker.
theorem of_closed (hf : fs.Backed) (hm : f.probing = fs.probingWithout s)
    (hp : ∀ seq, f.Probes seq ↔ fs.Probes seq ∧ seq ≠ s) : f.Backed := by
  have hother (h : fs.probing ≠ s) : f.probing = fs.probing := hm.trans (if_neg h)
  refine ⟨fun h => ?_, fun seq h => ?_⟩
  case refine_1 =>
    have hne : fs.probing ≠ s := fun es => h (hm.trans (if_pos es))
    rw [hother hne] at h ⊢
    exact (hp _).mpr ⟨hf.marker h, hne⟩
  case refine_2 =>
    have ⟨h, hne⟩ := (hp seq).mp h
    have es := hf.probes seq h
    rw [hother (es ▸ hne)]
    exact es

-- Without an entry there is no marker to clear.
theorem probingWithout_of_not_probes (hf : fs.Backed) (hn : ¬fs.Probes s) :
    fs.probingWithout s = fs.probing := by
  simp only [probingWithout]
  split
  case isFalse => rfl
  case isTrue es =>
    by_contra hz
    exact hn (es ▸ hf.marker (Ne.symm hz))

theorem noteLateFill (hf : fs.Backed) : (fs.noteLateFill s).flow.Backed :=
  hf.of_kept probing_noteLateFill fun _ => probes_of_lookup_eq (by rw [noteLateFill_agrees.pending])

theorem autoFill {r : Effect} (hk : fs.Keyed) (hf : fs.Backed)
    (hr : fs.autoFill recorded s = some r) : r.flow.Backed :=
  hf.of_closed (probing_autoFill hk hr) (probes_erase (autoFill_some hr).1.pending)

theorem abandonGap {reason : AbandonReason} (hf : fs.Backed) :
    (fs.abandonGap now e reason).flow.Backed := by
  refine hf.of_closed ?_ (probes_erase abandonGap_pending)
  simp only [FlowState.abandonGap]
  split
  case isTrue  => rfl
  case isFalse => exact probing_bookAbandon

theorem probeMissed (hf : fs.Backed) : (fs.probeMissed e).flow.Backed :=
  hf.of_closed rfl (probes_erase rfl)

theorem request {room : Nat} {q : Request} (hf : fs.Backed) :
    (fs.request cfg i room q).flow.Backed := by
  refine hf.of_kept (congrArg (·.2.2.2) budget_requestGaps) fun seq => ?_
  have ⟨g, hg, hl⟩ := fs.request_lookup cfg i room q seq
  refine probes_or (fun e he => ?_) hl
  split at he
  case isTrue  => cases he; exact hg
  case isFalse => cases he

theorem answered {r : Effect} (hf : fs.Backed) (h : fs.Answered s r) : r.flow.Backed := by
  cases h
  case unknown       => exact hf
  case renewed hl hr => exact hf.of_kept rfl (probes_insert hl rfl hr.speculative)

theorem evict {reason : AbandonReason} (hf : fs.Backed) (hl : fs.pending.lookup s = some e) :
    (fs.evict now s e reason).flow.Backed := by
  refine hf.of_closed ?_ (probes_erase evict_pending)
  cases hs : e.speculative
  case true  => simp [FlowState.evict, hs, retireProbe, probingWithout]
  case false =>
    have hn : ¬fs.Probes s := by
      rintro ⟨g, hg, h⟩
      cases hl.symm.trans hg
      cases hs.symm.trans h
    rw [hf.probingWithout_of_not_probes hn]
    simp only [FlowState.evict, hs]
    exact probing_bookAbandon

theorem sweptEntry {r : Effect} (hf : fs.Backed) (h : SweptEntry now fs s r) : r.flow.Backed := by
  cases h
  case kept                => exact hf
  case evicted hl          => exact hf.evict hl
  case rescheduled hl hr _ => exact hf.of_kept rfl (probes_insert hl rfl hr.speculative)

theorem sweepEntries {room : SeqNum → Bool} {ss : List SeqNum} (hf : fs.Backed) :
    (fs.sweepEntries cfg now room ss).flow.Backed := by
  induction ss generalizing fs
  case nil          => exact hf
  case cons s ss hi => exact hi (hf.sweptEntry sweepEntry_swept)

-- A probe is issued only if nothing is pending.
theorem maybeProbeTail {room : Bool} (hf : fs.Backed) (hz : fs.pending.size = 0) :
    (fs.maybeProbeTail cfg hk now room).flow.Backed := by
  have hempty (seq : SeqNum) : fs.pending.lookup seq = none := AList.size_eq_zero_iff.mp hz seq
  simp only [FlowState.maybeProbeTail]
  split
  case isTrue => exact hf
  case isFalse =>
    split
    case isTrue =>
      refine ⟨fun _ => ⟨_, AList.lookup_insert _, rfl⟩, ?_⟩
      rintro seq ⟨e, he, _⟩
      by_contra hne
      rw [Option.mem_def, AList.lookup_insert_ne hne, hempty] at he
      cases he
    case isFalse =>
      refine ⟨fun h => absurd rfl h, ?_⟩
      rintro seq ⟨e, he, _⟩
      rw [Option.mem_def, AList.lookup_erase_eq_ite, hempty, ite_self] at he
      cases he

theorem sweep {room : SeqNum → Bool} (hf : fs.Backed) : (fs.sweep cfg hk now room).flow.Backed := by
  have hp : (fs.purgeAbandoned now).Backed := ⟨hf.marker, hf.probes⟩
  have hs : ((fs.purgeAbandoned now).sweepEntries cfg now room
    (fs.purgeAbandoned now).pending.keys).flow.Backed := hp.sweepEntries
  simp only [FlowState.sweep]
  split
  case isTrue hz => exact hs.maybeProbeTail hz
  case isFalse   => exact hs

theorem probing_observe (hk : fs.Keyed) (hf : fs.Backed) :
    (fs.observe cfg i recorded a).flow.probing = fs.probingWithout a.seqNum := by
  have hl : ((fs.touch i.now a).noteLateFill a.seqNum).flow.probing = fs.probing :=
    probing_noteLateFill
  have hp : ((fs.touch i.now a).noteLateFill a.seqNum).flow.pending = fs.pending :=
    noteLateFill_agrees.pending
  have hk : ((fs.touch i.now a).noteLateFill a.seqNum).flow.Keyed := by rwa [Keyed, hp]
  simp only [observe, settle]
  split
  case h_1 hn =>
    have hn : ¬fs.Probes a.seqNum := by
      rintro ⟨e, he, _⟩
      rw [autoFill_none_iff, hp] at hn
      cases hn.symm.trans he
    rw [probing_ladder, hl, hf.probingWithout_of_not_probes hn]
  case h_2 r hr =>
    have hm : r.flow.probing = fs.probingWithout a.seqNum := by
      rw [probing_autoFill hk hr, probingWithout, hl, probingWithout]
    split
    case isTrue  => exact hm
    case isFalse => rw [probing_ladder, hm]

-- A verdict that drops what is pending drops the probe, but not the marker.
theorem observe_iff (hk : fs.Keyed) (hf : fs.Backed) :
    (fs.observe cfg i recorded a).flow.Backed ↔
      (fs.Drops cfg i a → fs.probing = 0 ∨ fs.probing = a.seqNum) := by
  have hm : (fs.observe cfg i recorded a).flow.probing = _ := hf.probing_observe hk
  constructor
  case mp =>
    intro h hd
    by_contra hne
    have ⟨hz, hs⟩ := not_or.mp hne
    rw [probingWithout, if_neg hs] at hm
    exact probes_observe_of_drops hd (h.marker (hm ▸ hz))
  case mpr =>
    intro h
    by_cases hd : fs.Drops cfg i a
    case neg => exact hf.of_closed hm fun _ => probes_observe hd
    case pos =>
      have hz : (fs.observe cfg i recorded a).flow.probing = 0 := by
        rw [hm, probingWithout]
        split
        case isTrue     => rfl
        case isFalse hs => exact (h hd).resolve_right hs
      exact ⟨fun hn => absurd hz hn, fun seq hp => absurd hp (probes_observe_of_drops hd)⟩

end Backed

theorem invariant_keyed : Invariant cfg (fun _ _ _ => True) Keyed where
  new _ _ _              := nofun
  observe _ _ _ _ hf _   := hf.observe
  request _ _ _ _ hf     := hf.request
  late _ _ hf            := hf.noteLateFill
  closed _ _ _ _ hr hf   := hf.autoFill hr
  sweep _ _ _ _ hf       := hf.sweep
  abandonGap _ _ _ _ hf  := hf.of_erase abandonGap_pending
  answered _ _ _ h hf    := hf.answered h
  probeMissed _ _ hf     := hf.of_erase rfl

-- The verdict on a frame does not drop a probe that is under way; the frame may be the one asked
-- for.
def SparesProbe (cfg : Config) (fs : FlowState) (i : Instant) (a : Arrival) : Prop :=
  fs.Drops cfg i a → fs.probing = 0 ∨ fs.probing = a.seqNum

instance : Decidable (fs.SparesProbe cfg i a) :=
  inferInstanceAs (Decidable (_ → _))

theorem invariant_backed : Invariant cfg (SparesProbe cfg) fun fs => fs.Keyed ∧ fs.Backed where
  new _ _ _              := ⟨nofun, fun h => absurd rfl h, fun _ ⟨_, he, _⟩ => nomatch he⟩
  observe _ _ _ _ hf ho  := ⟨hf.1.observe, (hf.2.observe_iff hf.1).mpr ho⟩
  request _ _ _ _ hf     := ⟨hf.1.request, hf.2.request⟩
  late _ _ hf            := ⟨hf.1.noteLateFill, hf.2.noteLateFill⟩
  closed _ _ _ _ hr hf   := ⟨hf.1.autoFill hr, hf.2.autoFill hf.1 hr⟩
  sweep _ _ _ _ hf       := ⟨hf.1.sweep, hf.2.sweep⟩
  abandonGap _ _ _ _ hf  := ⟨hf.1.of_erase abandonGap_pending, hf.2.abandonGap⟩
  answered _ _ _ h hf    := ⟨hf.1.answered h, hf.2.answered h⟩
  probeMissed _ _ hf     := ⟨hf.1.of_erase rfl, hf.2.probeMissed⟩

end FlowState

namespace Tracker

variable {cfg : Config} {i : Instant} {t : Tracker} {hk : HashKey} {op : Op}

-- In every flow the marker of the probe under way names a pending probe, and there is no other one.
def Backed (t : Tracker) : Prop :=
  t.Flows FlowState.Backed

-- No restart and no emitter change of a flow comes while a probe is under way there.
def SparesProbe (cfg : Config) (t : Tracker) : Op → Prop
  | .observe i a => a.seqNum ≠ 0 → ∀ fs ∈ t.flows.lookup a.hashKey, fs.SparesProbe cfg i a
  | _            => True

instance : DecidablePred (t.SparesProbe cfg)
  | .observe ..  => inferInstanceAs (Decidable (_ → ∀ fs ∈ _, _))
  | .request ..  => .isTrue trivial
  | .fill ..     => .isTrue trivial
  | .sweep ..    => .isTrue trivial
  | .complete .. => .isTrue trivial

theorem SparesProbe.admits (h : t.SparesProbe cfg op) :
    t.Admits (FlowState.SparesProbe cfg) cfg op := by
  cases op
  case observe i a =>
    intro hz fs hf
    rcases flowFor_cases hf with hl | ⟨_, rfl⟩
    case inl => exact h hz fs hl
    case inr => exact fun _ => .inl rfl
  all_goals trivial

theorem Backed.step_iff (hk : t.Flows FlowState.Keyed) (ht : t.Backed) :
    (t.step cfg op).Backed ↔ t.SparesProbe cfg op := by
  constructor
  case mp =>
    intro h
    cases op
    case observe i a =>
      intro hz fs hl
      have hb : (fs.observe cfg i t.recorder.isSome a).flow.Backed := by
        refine h a.hashKey _ ?_
        have hs := lookup_observeFrom cfg i t a.hashKey hz
        rw [if_pos rfl, flowFor, hl] at hs
        exact hs
      exact ((ht a.hashKey fs hl).observe_iff (hk a.hashKey fs hl)).mp hb
    all_goals trivial
  case mpr =>
    intro h
    have hboth : t.Flows fun fs => fs.Keyed ∧ fs.Backed := fun k fs hl => ⟨hk k fs hl, ht k fs hl⟩
    exact fun k fs hl => (hboth.step FlowState.invariant_backed h.admits k fs hl).2

-- The marker is backed throughout a run exactly if no restart and no emitter change drops a probe,
-- with a recorder or without.
theorem backed_iff_spares {recorder : Option (List Metric)} {ops : List Op} :
    Run.Always (step cfg) Backed { recorder := recorder } ops ↔
      Run.Along (step cfg) (SparesProbe cfg) { recorder := recorder } ops := by
  have hkeyed (t : Tracker) (op : Op) (ht : t.Flows FlowState.Keyed) :
      (t.step cfg op).Flows FlowState.Keyed :=
    ht.step FlowState.invariant_keyed (by cases op <;> simp [Admits])
  exact Run.always_iff_along hkeyed (fun _ _ hk ht => ht.step_iff hk) Flows.new Flows.new

-- A flow with a probe under way for the SeqNum 218.
def probedFlow : List Op :=
  let frames := (List.range 17).map fun k : Nat =>
    Op.observe ⟨Time.ms (10 * k), fun _ => 0⟩ ⟨0, 0xFFFE, .zero, 7, k + 201, some 1⟩
  frames ++ [.sweep (Time.ms 1000) fun _ _ => true]

def frameAt (ms : Int) (seq : SeqNum) : Op :=
  .observe ⟨Time.ms ms, fun _ => 0⟩ ⟨0, 0xFFFE, .zero, 7, seq, some 1⟩

-- The frame of a restarted proxy, or of another emitter, drops the probe and leaves the marker.
theorem not_backed_frameAt (seq : SeqNum) (hs : seq ∈ [1, 10000]) :
    Run.Along (step .default) Enabled .new (probedFlow ++ [frameAt 1100 seq]) ∧
      ¬Run.Always (step .default) Backed .new (probedFlow ++ [frameAt 1100 seq]) := by
  have hleft : ∀ seq ∈ [1, 10000],
      let ops := probedFlow ++ [frameAt 1100 seq]
      Run.Along (step .default) Enabled .new ops ∧
        ∃ fs ∈ (Run.exec (step .default) .new ops).flows.lookup 7, fs.probing ≠ 0 ∧
          ¬fs.Probes fs.probing := by
    decide +kernel
  have ⟨hen, fs, hf, hz, hp⟩ := hleft seq hs
  exact ⟨hen, fun h => hp ((h.last 7 fs hf).marker hz)⟩

theorem dropped_probe_not_backed :
    (Run.Along (step .default) Enabled .new (probedFlow ++ [frameAt 1100 1]) ∧
      ¬Run.Always (step .default) Backed .new (probedFlow ++ [frameAt 1100 1])) ∧
    Run.Along (step .default) Enabled .new (probedFlow ++ [frameAt 1100 10000]) ∧
      ¬Run.Always (step .default) Backed .new (probedFlow ++ [frameAt 1100 10000]) :=
  ⟨not_backed_frameAt 1 (by decide), not_backed_frameAt 10000 (by decide)⟩

end Tracker
end Nack
