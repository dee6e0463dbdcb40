import ShardListener.Nack.Theorems.Sweep

namespace Nack

-- The sweep gives up on the entry.
def GapEntry.expired (cfg : Config) (now : Time) (e : GapEntry) : Prop :=
  now > e.deadline ∨ e.failRounds ≥ cfg.maxRetries

instance {cfg : Config} {now : Time} {e : GapEntry} : Decidable (e.expired cfg now) :=
  inferInstanceAs (Decidable (_ ∨ _))

namespace FlowState

-- A tail probe is pending for the SeqNum.
def Probes (fs : FlowState) (seq : SeqNum) : Prop :=
  ∃ e ∈ fs.pending.lookup seq, e.speculative = true

instance {fs : FlowState} {seq : SeqNum} : Decidable (fs.Probes seq) :=
  inferInstanceAs (Decidable (∃ e ∈ fs.pending.lookup seq, _))

variable {cfg : Config} {i : Instant} {fs f : FlowState} {a : Arrival} {e : GapEntry}
variable {seq s : SeqNum}
variable {now : Time} {recorded : Bool}

theorem HasGap.of_lookup_eq (h : fs.HasGap seq)
    (hl : f.pending.lookup seq = fs.pending.lookup seq) : f.HasGap seq :=
  have ⟨e, he, hs⟩ := h
  ⟨e, hl.trans he, hs⟩

theorem HasGap.of_erase (h : fs.HasGap seq) (hne : seq ≠ s) (hp : f.pending = fs.pending.erase s) :
    f.HasGap seq :=
  h.of_lookup_eq <| by rw [hp, AList.lookup_erase_eq_ite, if_neg hne]

theorem not_hasGap_of_erase (hp : f.pending = fs.pending.erase seq) : ¬f.HasGap seq := by
  intro ⟨e, he, _⟩
  rw [hp, AList.lookup_erase] at he
  cases he

-- A registration leaves a pending entry as it is, so that a probe stays a probe.
theorem hasGap_of_registered (hs : e.speculative = false)
    (h : f.pending.lookup seq = (fs.pending.lookup seq).or (some e)) :
    f.HasGap seq ↔ ¬fs.Probes seq := by
  cases hl : fs.pending.lookup seq
  case none   => simp [HasGap, Probes, h, hl, hs]
  case some e => simp [HasGap, Probes, h, hl]

theorem requestGaps_flow {hk : HashKey} {g : GroupIdx} {sub : Bytes32} {ss : List SeqNum} :
    (fs.requestGaps cfg i hk g sub ss).flow =
      { fs with pending := (fs.requestGaps cfg i hk g sub ss).flow.pending } := by
  induction ss generalizing fs
  case nil => rfl
  case cons s ss hi =>
    simp only [requestGaps]
    split
    case h_1 => exact hi
    case h_2 => exact hi.trans rfl

theorem requestGaps_lookup {hk : HashKey} {g : GroupIdx} {sub : Bytes32} {ss : List SeqNum} :
    (fs.requestGaps cfg i hk g sub ss).flow.pending.lookup seq =
      (fs.pending.lookup seq).or
        (if seq ∈ ss then some (fs.requestedGap cfg i hk g sub seq) else none) := by
  induction ss generalizing fs
  case nil => simp [requestGaps]
  case cons m ss hi =>
    simp only [requestGaps]
    split
    case h_1 h => exact hi.trans (AList.lookup_or_of_present h)
    case h_2 h => exact hi.trans (AList.lookup_or_of_absent h)

theorem request_lookup (cfg : Config) (i : Instant) (room : Nat) (fs : FlowState) (q : Request)
    (seq : SeqNum) : ∃ g : GapEntry, g.speculative = false ∧
    (fs.request cfg i room q).flow.pending.lookup seq =
      (fs.pending.lookup seq).or (if seq ∈ q.seqs then some g else none) :=
  ⟨_, rfl, requestGaps_lookup⟩

theorem HasGap.observe (h : fs.HasGap seq) (hne : seq ≠ a.seqNum)
    (hr : fs.verdictOf cfg i a ≠ some .restart) (hc : fs.verdictOf cfg i a ≠ some .emitterChange) :
    (fs.observe cfg i recorded a).flow.HasGap seq := by
  have ho := (observe_observed cfg i recorded fs a).pending seq
  have ⟨e, he, hs⟩ := h
  have hl : (fs.pending.erase a.seqNum).lookup seq = some e := by
    rw [AList.lookup_erase_eq_ite, if_neg hne, he]
  refine ⟨e, ?_, hs⟩
  rw [ho]
  generalize fs.verdictOf cfg i a = v at hr hc
  cases v
  case none => exact hl
  case some v =>
    cases v
    case restart       => exact absurd rfl hr
    case emitterChange => exact absurd rfl hc
    case gap           => simp [pendingAfter, hl]
    all_goals exact hl

theorem observe_gap_lookup (recorded : Bool) (hv : fs.verdictOf cfg i a = some .gap)
    (hs : fs.lastSeqNum < seq ∧ seq < a.seqNum) :
    (fs.observe cfg i recorded a).flow.pending.lookup seq =
      (fs.pending.lookup seq).or (some ((fs.touch i.now a).newGap cfg i a seq)) := by
  have hne : seq ≠ a.seqNum := ne_of_lt hs.2
  rw [(observe_observed ..).pending seq, hv]
  simp [pendingAfter, hs, hne]

theorem HasGap.autoFill {r : Effect} (h : fs.HasGap seq) (hne : seq ≠ s)
    (hr : fs.autoFill recorded s = some r) : r.flow.HasGap seq :=
  h.of_erase hne (autoFill_some hr).1.pending

theorem HasGap.fill (h : fs.HasGap seq) (hne : seq ≠ s) : (fs.fill recorded s).flow.HasGap seq := by
  cases fs.fill_or recorded s
  case inl e  => exact h.of_lookup_eq (by rw [e, noteLateFill_agrees.pending])
  case inr hr => exact h.autoFill hne hr

theorem HasGap.cancelGap (h : fs.HasGap seq) (hne : seq ≠ e.seqNum) :
    (fs.cancelGap recorded e).flow.HasGap seq := by
  cases fs.cancelGap_or recorded e
  case inl e  => rwa [e]
  case inr hr => exact h.autoFill hne hr

theorem abandonGap_pending {reason : AbandonReason} :
    (fs.abandonGap now e reason).flow.pending = fs.pending.erase e.seqNum := by
  simp only [abandonGap]
  split
  case isTrue  => rfl
  case isFalse => exact bookAbandon_agrees.pending

-- Rewriting the stored entry keeps its flag.
theorem HasGap.rewrite {e' : GapEntry} (h : fs.HasGap seq) (hl : fs.pending.lookup s = some e)
    (he : e'.speculative = e.speculative) (hp : f.pending = fs.pending.insert s e') :
    f.HasGap seq := by
  have ⟨g, hg, hs⟩ := h
  by_cases hne : seq = s
  case pos =>
    subst hne
    cases hl.symm.trans hg
    exact ⟨e', by rw [hp, AList.lookup_insert], he.trans hs⟩
  case neg => exact h.of_lookup_eq (by rw [hp, AList.lookup_insert_ne hne])

theorem HasGap.answered {r : Effect} (h : fs.HasGap seq) (hr : fs.Answered s r) :
    r.flow.HasGap seq := by
  cases hr
  case unknown       => exact h
  case renewed hl hr => exact h.rewrite hl hr.speculative rfl

-- A real gap that the sweep does not give up on.
def Stands (cfg : Config) (now : Time) (fs : FlowState) (seq : SeqNum) : Prop :=
  ∃ e ∈ fs.pending.lookup seq, e.speculative = false ∧ ¬e.expired cfg now

theorem Stands.hasGap (h : fs.Stands cfg now seq) : fs.HasGap seq :=
  have ⟨e, he, hs, _⟩ := h
  ⟨e, he, hs⟩

theorem Stands.of_lookup_eq (h : fs.Stands cfg now seq)
    (hl : f.pending.lookup seq = fs.pending.lookup seq) : f.Stands cfg now seq :=
  have ⟨e, he, hs⟩ := h
  ⟨e, hl.trans he, hs⟩

theorem Stands.size_ne_zero (h : fs.Stands cfg now seq) : fs.pending.size ≠ 0 := by
  intro hz
  have ⟨e, he, _⟩ := h
  cases (AList.size_eq_zero_iff.mp hz seq).symm.trans he

theorem Stands.sweepEntry {room : Bool} (h : fs.Stands cfg now seq) :
    (fs.sweepEntry cfg now room s).flow.Stands cfg now seq := by
  by_cases hne : seq = s
  case neg => exact h.of_lookup_eq (sweepEntry_swept.lookup_ne hne)
  case pos =>
    subst hne
    have ⟨g, hg, hs, hx⟩ := h
    have ⟨hd, hr⟩ := not_or.mp hx
    simp only [FlowState.sweepEntry, Option.mem_def.mp hg, if_neg hd, if_neg hr]
    repeat' split
    case isTrue.isTrue  => exact ⟨_, AList.lookup_insert _, hs, hx⟩
    case isTrue.isFalse => exact ⟨_, AList.lookup_insert _, hs, hx⟩
    case isFalse        => exact h

theorem Stands.sweepEntries (h : fs.Stands cfg now seq) (room : SeqNum → Bool) (ss : List SeqNum) :
    (fs.sweepEntries cfg now room ss).flow.Stands cfg now seq := by
  induction ss generalizing fs
  case nil          => exact h
  case cons s ss hi => exact hi h.sweepEntry

-- The flow keeps the gap, and a flow with a gap neither probes nor goes idle.
theorem Stands.sweep {hk : HashKey} {room : SeqNum → Bool} (h : fs.Stands cfg now seq) :
    (fs.sweep cfg hk now room).flow.Stands cfg now seq := by
  have hp : (fs.purgeAbandoned now).Stands cfg now seq := h
  have hs := hp.sweepEntries room (fs.purgeAbandoned now).pending.keys
  simp only [FlowState.sweep, if_neg hs.size_ne_zero]
  exact hs

end FlowState

namespace Tracker

variable {cfg : Config} {t : Tracker} {hk : HashKey} {seq : SeqNum} {now : Time}

def HasGap (t : Tracker) (hk : HashKey) (seq : SeqNum) : Prop :=
  ∃ fs ∈ t.flows.lookup hk, fs.HasGap seq

instance : Decidable (t.HasGap hk seq) :=
  inferInstanceAs (Decidable (∃ fs ∈ t.flows.lookup hk, _))

def Probes (t : Tracker) (hk : HashKey) (seq : SeqNum) : Prop :=
  ∃ fs ∈ t.flows.lookup hk, fs.Probes seq

instance : Decidable (t.Probes hk seq) :=
  inferInstanceAs (Decidable (∃ fs ∈ t.flows.lookup hk, _))

-- The SeqNums an operation proves missing: those an ordinary gap runs over, and those a fragment
-- request names.
def proves (cfg : Config) (t : Tracker) : Op → List (HashKey × SeqNum)
  | .observe i a =>
    match t.flows.lookup a.hashKey with
    | none    => []
    | some fs =>
      if a.seqNum ≠ 0 ∧ fs.verdictOf cfg i a = some .gap then
        (List.range' (fs.lastSeqNum + 1) (fs.missing a.seqNum)).map (a.hashKey, ·)
      else []
  | .request _ _ q => q.seqs.map (q.hashKey, ·)
  | _              => []

-- The operation fills the gap, books it unrecovered, or drops it in a restart or an emitter change.
def Settles (cfg : Config) (t : Tracker) (hk : HashKey) (seq : SeqNum) : Op → Prop
  | .observe i a =>
    a.seqNum ≠ 0 ∧ hk = a.hashKey ∧
      (seq = a.seqNum ∨ ∃ fs ∈ t.flows.lookup hk,
        fs.verdictOf cfg i a = some .restart ∨ fs.verdictOf cfg i a = some .emitterChange)
  | .fill hk' s => s ≠ 0 ∧ hk = hk' ∧ seq = s
  | .sweep now _ => ∃ fs ∈ t.flows.lookup hk, ∃ e ∈ fs.pending.lookup seq, e.expired cfg now
  | .complete _ e .cancel => hk = e.hashKey ∧ seq = e.seqNum
  | .complete _ e (.abandon _) => e.speculative = false ∧ hk = e.hashKey ∧ seq = e.seqNum
  | _ => False

instance decidableSettles : DecidablePred (t.Settles cfg hk seq)
  | .observe ..               => inferInstanceAs (Decidable (_ ∧ _))
  | .request ..               => .isFalse id
  | .fill ..                  => inferInstanceAs (Decidable (_ ∧ _))
  | .sweep ..                 => inferInstanceAs (Decidable (∃ fs ∈ t.flows.lookup hk, _))
  | .complete _ _ .cancel     => inferInstanceAs (Decidable (_ ∧ _))
  | .complete _ _ (.abandon _) => inferInstanceAs (Decidable (_ ∧ _))
  | .complete _ _ (.advance ..) => .isFalse id
  | .complete _ _ (.throttle _) => .isFalse id
  | .complete _ _ .probeMiss  => .isFalse id
  | .complete _ _ .lost       => .isFalse id

-- A request for a flow that the flow cap keeps out of the table.
def Refused (cfg : Config) (t : Tracker) : Op → Prop
  | .request _ _ q => q.seqs ≠ [] ∧ t.flows.lookup q.hashKey = none ∧ t.full cfg
  | _              => False

-- The completion takes whatever is stored for the SeqNum out of `pending`, without a booking.
def Retires (hk : HashKey) (seq : SeqNum) : Op → Prop
  | .complete _ e .probeMiss   => hk = e.hashKey ∧ seq = e.seqNum
  | .complete _ e (.abandon _) => e.speculative = true ∧ hk = e.hashKey ∧ seq = e.seqNum
  | _                          => False

theorem HasGap.of_lookup_eq {t' : Tracker} (h : t.HasGap hk seq)
    (hl : t'.flows.lookup hk = t.flows.lookup hk) : t'.HasGap hk seq :=
  have ⟨fs, hf, hg⟩ := h
  ⟨fs, hl.trans hf, hg⟩

theorem HasGap.onFlow {hk' : HashKey} {op : FlowState → Effect} (h : t.HasGap hk seq)
    (hop : ∀ fs, fs.HasGap seq → hk = hk' → (op fs).flow.HasGap seq) :
    (t.onFlow hk' op).HasGap hk seq := by
  have ⟨fs, hf, hg⟩ := h
  by_cases hk' : hk = hk'
  case neg => exact h.of_lookup_eq (by rw [lookup_onFlow, if_neg hk'])
  case pos =>
    subst hk'
    exact ⟨(op fs).flow, by rw [lookup_onFlow, if_pos rfl, hf]; rfl, hop fs hg rfl⟩

theorem HasGap.observeFrom {i : Instant} {a : Arrival} (h : t.HasGap hk seq)
    (hs : ¬t.Settles cfg hk seq (.observe i a)) : (t.observeFrom cfg i a).HasGap hk seq := by
  have ⟨fs, hf, hg⟩ := h
  by_cases hz : a.seqNum = 0
  case pos => rwa [Tracker.observeFrom, if_pos hz]
  case neg =>
    have hl := lookup_observeFrom cfg i t hk hz
    by_cases hk' : hk = a.hashKey
    case neg => exact h.of_lookup_eq (by rw [hl, if_neg hk'])
    case pos =>
      subst hk'
      have hne : seq ≠ a.seqNum := fun he => hs ⟨hz, rfl, .inl he⟩
      have hr : fs.verdictOf cfg i a ≠ some .restart :=
        fun hv => hs ⟨hz, rfl, .inr ⟨fs, hf, .inl hv⟩⟩
      have hc : fs.verdictOf cfg i a ≠ some .emitterChange :=
        fun hv => hs ⟨hz, rfl, .inr ⟨fs, hf, .inr hv⟩⟩
      refine ⟨(fs.observe cfg i t.recorder.isSome a).flow, ?_, hg.observe hne hr hc⟩
      rw [hl, if_pos rfl, flowFor, hf]
      rfl

theorem HasGap.requestGapsFrom {i : Instant} {room : Nat} {q : Request} (h : t.HasGap hk seq) :
    (t.requestGapsFrom cfg i room q).HasGap hk seq := by
  have ⟨fs, hf, hg⟩ := h
  by_cases hq : q.seqs = []
  case pos => rwa [Tracker.requestGapsFrom, if_pos hq]
  case neg =>
    have hl := lookup_requestGapsFrom cfg i room t hk hq
    by_cases hk' : hk = q.hashKey
    case neg => exact h.of_lookup_eq (by rw [hl, if_neg hk'])
    case pos =>
      subst hk'
      obtain ⟨e, he, hs⟩ := hg
      obtain ⟨g, _, hp⟩ := fs.request_lookup cfg i room q seq
      refine ⟨(fs.request cfg i room q).flow, ?_, e, ?_, hs⟩
      case refine_1 => rw [hl, if_pos rfl, requestFlow, hf]; rfl
      case refine_2 => rw [hp, he]; rfl

def Stands (cfg : Config) (now : Time) (t : Tracker) (hk : HashKey) (seq : SeqNum) : Prop :=
  ∃ fs ∈ t.flows.lookup hk, fs.Stands cfg now seq

theorem Stands.sweepFlow {room : HashKey → SeqNum → Bool} {hk' : HashKey}
    (h : t.Stands cfg now hk seq) : (t.sweepFlow cfg now room hk').Stands cfg now hk seq := by
  have ⟨fs, hl, hg⟩ := h
  have ho := lookup_onFlow t hk' hk (·.sweep cfg hk' now (room hk'))
  simp only [Tracker.sweepFlow]
  by_cases hk' : hk = hk'
  case neg =>
    rw [if_neg hk', hl] at ho
    repeat' split
    case h_2.isTrue => exact ⟨fs, by simp [hk', ho], hg⟩
    all_goals exact ⟨fs, ho, hg⟩
  case pos =>
    subst hk'
    rw [if_pos rfl, hl] at ho
    -- The swept flow still has the gap, so it is not idle.
    have hs : (fs.sweep cfg hk now (room hk)).flow.Stands cfg now seq := hg.sweep
    have hi : ¬(fs.sweep cfg hk now (room hk)).flow.idle cfg now := fun hi => hs.size_ne_zero hi.1
    simp only [ho, Option.map_some, if_neg hi]
    exact ⟨_, ho, hs⟩

theorem HasGap.sweepOnce {room : HashKey → SeqNum → Bool} (h : t.HasGap hk seq)
    (hs : ¬t.Settles cfg hk seq (.sweep now room)) : (t.sweepOnce cfg now room).HasGap hk seq := by
  have ⟨fs, hl, e, he, hg⟩ := h
  have hx : ¬e.expired cfg now := fun hx => hs ⟨fs, hl, e, he, hx⟩
  have h₀ : t.Stands cfg now hk seq := ⟨fs, hl, e, he, hg, hx⟩
  have h₁ : (Run.exec (Tracker.sweepFlow cfg now room) t t.flows.keys).Stands cfg now hk seq :=
    Run.exec_of_step (Stands cfg now · hk seq) (fun _ _ => Stands.sweepFlow) h₀
  have ⟨fs', hl', hg'⟩ := h₁
  exact ⟨fs', hl', hg'.hasGap⟩

-- A gap stays until it is settled or a probe completion retires it.
theorem HasGap.step {op : Op} (h : t.HasGap hk seq) (hs : ¬t.Settles cfg hk seq op)
    (hr : ¬Retires hk seq op) : (t.step cfg op).HasGap hk seq := by
  cases op
  case observe i a      => exact h.observeFrom hs
  case request i room q => exact h.requestGapsFrom
  case sweep now room   => exact h.sweepOnce hs
  case fill hk' s =>
    simp only [Tracker.step, Tracker.fill]
    split
    case isTrue     => exact h
    case isFalse hz => exact h.onFlow fun _ hg hk' => hg.fill fun he => hs ⟨hz, hk', he⟩
  case complete i e c =>
    have hc : (t.complete cfg i e c).HasGap hk seq := by
      cases c
      case cancel       => exact h.onFlow fun _ hg hk' => hg.cancelGap fun he => hs ⟨hk', he⟩
      case advance      =>
        exact h.onFlow fun _ hg _ => hg.answered FlowState.advanceEndpoint_answered
      case throttle     => exact h.onFlow fun _ hg _ => hg.answered FlowState.throttleGap_answered
      case lost         => exact h
      case probeMiss    => exact h.onFlow fun _ hg hk' => hg.of_erase (fun he => hr ⟨hk', he⟩) rfl
      case abandon r =>
        refine h.onFlow fun _ hg hk' => hg.of_erase ?_ FlowState.abandonGap_pending
        intro he
        cases hsp : e.speculative
        case true  => exact hr ⟨hsp, hk', he⟩
        case false => exact hs ⟨hsp, hk', he⟩
    exact hc

theorem not_hasGap_of_retires {op : Op} (h : Retires hk seq op) :
    ¬(t.step cfg op).HasGap hk seq := by
  have hp : ∀ (op : FlowState → Effect), (∀ fs, (op fs).flow.pending = fs.pending.erase seq) →
      ¬(t.onFlow hk op).HasGap hk seq := by
    intro op he ⟨fs, hl, hg⟩
    rw [lookup_onFlow, if_pos rfl] at hl
    have ⟨fs₀, _, hf⟩ := Option.map_eq_some_iff.mp hl
    exact FlowState.not_hasGap_of_erase (hf ▸ he fs₀) hg
  cases op
  case complete i e c =>
    cases c
    case probeMiss =>
      obtain ⟨rfl, rfl⟩ := h
      exact hp _ fun _ => rfl
    case abandon r =>
      obtain ⟨_, rfl, rfl⟩ := h
      exact hp _ fun _ => FlowState.abandonGap_pending
    all_goals exact h.elim
  all_goals exact h.elim

theorem mem_proves_observe {i : Instant} {a : Arrival}
    (h : (hk, seq) ∈ t.proves cfg (.observe i a)) : hk = a.hashKey ∧ a.seqNum ≠ 0 ∧
      ∃ fs, t.flows.lookup hk = some fs ∧ fs.verdictOf cfg i a = some .gap ∧
        fs.lastSeqNum < seq ∧ seq < a.seqNum := by
  simp only [proves] at h
  split at h
  case h_1 => cases h
  case h_2 fs hl =>
    split at h
    case isFalse => cases h
    case isTrue hv =>
      have ⟨_, hm, heq⟩ := List.mem_map.mp h
      cases heq
      exact ⟨rfl, hv.1, fs, hl, hv.2, List.mem_range'_between.mp hm⟩

theorem mem_proves_request {i : Instant} {room : Nat} {q : Request}
    (h : (hk, seq) ∈ t.proves cfg (.request i room q)) :
    hk = q.hashKey ∧ seq ∈ q.seqs ∧ q.seqs ≠ [] := by
  have ⟨_, hm, heq⟩ := List.mem_map.mp h
  cases heq
  exact ⟨rfl, hm, List.ne_nil_of_mem hm⟩

theorem exists_requestFlow (i : Instant) {q : Request}
    (h : ¬(t.flows.lookup q.hashKey = none ∧ t.full cfg)) (seq : SeqNum) :
    ∃ fs, t.requestFlow cfg i q = some fs ∧ (t.Probes q.hashKey seq ↔ fs.Probes seq) := by
  simp only [requestFlow, Probes]
  cases hl : t.flows.lookup q.hashKey
  case some fs => exact ⟨fs, rfl, by simp⟩
  case none =>
    rw [if_neg fun hf => h ⟨hl, hf⟩]
    exact ⟨_, rfl, by simp [FlowState.Probes, FlowState.new]⟩

-- A SeqNum that is proved missing is registered unless a probe is in its place.
theorem hasGap_of_proves {op : Op} (h : (hk, seq) ∈ t.proves cfg op) (hr : ¬t.Refused cfg op) :
    (t.step cfg op).HasGap hk seq ↔ ¬t.Probes hk seq := by
  cases op
  case observe i a =>
    obtain ⟨rfl, hz, fs, hl, hv, hs⟩ := mem_proves_observe h
    have ho := lookup_observeFrom cfg i t a.hashKey hz
    rw [if_pos rfl, flowFor, hl] at ho
    have hg := FlowState.hasGap_of_registered rfl
      (FlowState.observe_gap_lookup t.recorder.isSome hv hs)
    simpa [HasGap, Probes, Tracker.step, ho, hl] using hg
  case request i room q =>
    obtain ⟨rfl, hm, hq⟩ := mem_proves_request h
    obtain ⟨fs, hf, hb⟩ := exists_requestFlow i (fun h => hr ⟨hq, h⟩) seq
    obtain ⟨g, hg, hp⟩ := fs.request_lookup cfg i room q seq
    have ho := lookup_requestGapsFrom cfg i room t q.hashKey hq
    rw [if_pos rfl, hf] at ho
    rw [if_pos hm] at hp
    simpa [HasGap, hb, Tracker.step, ho] using FlowState.hasGap_of_registered hg hp
  all_goals cases h

theorem not_hasGap_of_refused {op : Op} (h : (hk, seq) ∈ t.proves cfg op) (hr : t.Refused cfg op) :
    ¬(t.step cfg op).HasGap hk seq := by
  cases op
  case request i room q =>
    obtain ⟨rfl, -, hq⟩ := mem_proves_request h
    have ⟨_, hl, hf⟩ := hr
    simp [HasGap, Tracker.step, lookup_requestGapsFrom cfg i room t q.hashKey hq,
      requestFlow, hl, hf]
  all_goals exact hr.elim

theorem exists_proves_of_refused {op : Op} (h : t.Refused cfg op) : ∃ p, p ∈ t.proves cfg op := by
  cases op
  case request i room q =>
    have ⟨s, hs⟩ := List.exists_mem_of_ne_nil _ h.1
    exact ⟨(q.hashKey, s), List.mem_map_of_mem hs⟩
  all_goals exact h.elim

theorem not_settles_of_retires {op : Op} (cfg : Config) (t : Tracker) (h : Retires hk seq op) :
    ¬t.Settles cfg hk seq op := by
  cases op
  case complete i e c =>
    cases c
    case abandon r => exact fun hs => Bool.noConfusion (hs.1.symm.trans h.1)
    all_goals first | exact id | exact h.elim
  all_goals exact h.elim

end Tracker

-- The tracker together with the SeqNums that are proved missing and not settled yet.
structure Watch where
  tracker : Tracker := .new
  owed    : List (HashKey × SeqNum) := []

namespace Watch

variable (cfg : Config)

def step (w : Watch) (op : Op) : Watch where
  tracker := w.tracker.step cfg op
  owed    := w.owed.filter (fun p => ¬w.tracker.Settles cfg p.1 p.2 op) ++ w.tracker.proves cfg op

-- Every loss that is proved is a pending real gap.
def Covered (w : Watch) : Prop :=
  ∀ p ∈ w.owed, w.tracker.HasGap p.1 p.2

instance {w : Watch} : Decidable w.Covered :=
  inferInstanceAs (Decidable (∀ p ∈ w.owed, _))

-- No SeqNum is proved missing while a probe for it is pending, no request is refused at the flow
-- cap, and no answer to a probe arrives for a SeqNum that is owed.
structure Sound (w : Watch) (op : Op) : Prop where
  unprobed  : ∀ p ∈ w.tracker.proves cfg op, ¬w.tracker.Probes p.1 p.2
  accepted  : ¬w.tracker.Refused cfg op
  unretired : ∀ p ∈ w.owed, ¬Tracker.Retires p.1 p.2 op

theorem covered_step_iff {w : Watch} (op : Op) (hc : w.Covered) :
    (w.step cfg op).Covered ↔ w.Sound cfg op := by
  constructor
  case mp =>
    intro hc'
    have hp : ∀ p ∈ w.tracker.proves cfg op, (w.tracker.step cfg op).HasGap p.1 p.2 :=
      fun p hp => hc' p (List.mem_append_right _ hp)
    have ha : ¬w.tracker.Refused cfg op := by
      intro hr
      have ⟨p, h⟩ := Tracker.exists_proves_of_refused hr
      exact Tracker.not_hasGap_of_refused h hr (hp p h)
    constructor
    case accepted => exact ha
    case unprobed => exact fun p h => (Tracker.hasGap_of_proves h ha).mp (hp p h)
    case unretired =>
      intro p h hr
      have hs := w.tracker.not_settles_of_retires cfg hr
      have ho : p ∈ (w.step cfg op).owed :=
        List.mem_append_left _ (List.mem_filter.mpr ⟨h, by simpa using hs⟩)
      exact Tracker.not_hasGap_of_retires hr (hc' p ho)
  case mpr =>
    intro ⟨hu, ha, hr⟩ p hp
    cases List.mem_append.mp hp
    case inl h =>
      have ⟨ho, hs⟩ := List.mem_filter.mp h
      exact (hc p ho).step (by simpa using hs) (hr p ho)
    case inr h => exact (Tracker.hasGap_of_proves h ha).mpr (hu p h)

-- Proved losses stay covered along a run exactly if all its steps are sound.
theorem covered_iff_sound (ops : List Op) :
    Run.Always (step cfg) Covered {} ops ↔
      Run.Along (step cfg) (fun w op => w.Sound cfg op) {} ops :=
  Run.always_iff_along (J := fun _ => True) (fun _ _ => id)
    (fun _ op _ hc => covered_step_iff cfg op hc) trivial (fun _ h => nomatch h)

-- A block flow falls silent after 17 frames and the sweep probes for SeqNum 18. Then frame 19
-- proves that 18 is lost, and the MISS for the probe arrives.
def missedProbe : List Op :=
  let at' (n : Int) : Instant := { now := Time.ms n, jitter := fun _ => 0 }
  let frame (seq : SeqNum) : Arrival :=
    { owner := 0, groupIdx := 0xFFFE, subtreeID := .zero, hashKey := 7, seqNum := seq
      source := some 1 }
  let probe : GapEntry :=
    { hashKey := 7, seqNum := 18, groupIdx := 0xFFFE, subtreeID := .zero, source := some 1
      nextAttempt := Time.ms 700, deadline := Time.ms 600700, speculative := true, owner := 0 }
  (List.range 17).map (fun n => .observe (at' (10 * n)) (frame (n + 1))) ++
    [.sweep (Time.ms 700) (fun _ _ => true), .observe (at' 710) (frame 19),
      .complete (at' 720) probe .probeMiss]

theorem missedProbe_not_covered :
    Run.Along (step .default) (fun w op => w.tracker.Enabled op) {} missedProbe ∧
      (Run.exec (step .default) {} missedProbe).owed = [(7, 18)] ∧
      (Run.exec (step .default) {} missedProbe).tracker.pending 7 [18] = false ∧
      ¬(Run.exec (step .default) {} missedProbe).Covered := by
  decide +kernel

end Watch
end Nack
