import ShardListener.Nack.Theorems.Tail

-- What becomes of a flow that falls silent.

theorem Time.sub_le_sub {t t' u u' : Time} (ht : t ≤ t') (hu : u' ≤ u) :
    Time.sub t u ≤ Time.sub t' u' :=
  max_le_max le_rfl (min_le_min le_rfl (Int.sub_le_sub ht hu))

namespace Nack

-- The same kind of entry, and with the same deadline.
structure GapEntry.Alike (e e' : GapEntry) : Prop where
  deadline    : e'.deadline = e.deadline
  speculative : e'.speculative = e.speculative

namespace GapEntry.Alike

variable {e e' e'' : GapEntry}

theorem refl : e.Alike e :=
  ⟨rfl, rfl⟩

theorem trans (h : e.Alike e') (h' : e'.Alike e'') : e.Alike e'' :=
  ⟨h'.deadline.trans h.deadline, h'.speculative.trans h.speculative⟩

theorem of_renewed (h : e.Renewed e') : e.Alike e' := by
  obtain ⟨_, _, _, _, rfl⟩ := h
  exact ⟨rfl, rfl⟩

theorem of_rescheduled (h : e.Rescheduled e') : e.Alike e' := by
  obtain ⟨_, rfl⟩ := h
  exact ⟨rfl, rfl⟩

end GapEntry.Alike

namespace FlowState

variable {cfg : Config} {i : Instant} {b now : Time} {fs f f' : FlowState} {seq : SeqNum}
variable {e e' : GapEntry}
variable {r : Effect} {hk : HashKey} {recorded : Bool}

-- What becomes of a flow up to the time `b`, when no frame of it arrives: nothing is added but
-- probes, as long as there are misses left, and a probe that is taken away is counted as a miss.
structure Ages (cfg : Config) (b : Time) (fs f : FlowState) : Prop where
  lastSeen : f.lastSeen = fs.lastSeen
  misses   : fs.probeMisses ≤ f.probeMisses
  pending  : ∀ seq e', f.pending.lookup seq = some e' →
    (∃ e, fs.pending.lookup seq = some e ∧ e.Alike e') ∨
      e'.speculative ∧ e'.deadline ≤ b + cfg.gapTTL ∧ fs.probeMisses < cfg.maxMisses
  spent    : ∀ seq e, fs.pending.lookup seq = some e → e.speculative →
    (∃ e', f.pending.lookup seq = some e' ∧ e.Alike e') ∨ fs.probeMisses < f.probeMisses

namespace Ages

theorem refl : Ages cfg b fs fs where
  lastSeen       := rfl
  misses         := le_rfl
  pending _ e' h := .inl ⟨e', h, .refl⟩
  spent _ e h _  := .inl ⟨e, h, .refl⟩

theorem trans (h : Ages cfg b fs f) (h' : Ages cfg b f f') : Ages cfg b fs f' where
  lastSeen := h'.lastSeen.trans h.lastSeen
  misses   := h.misses.trans h'.misses
  pending seq e'' he := by
    rcases h'.pending seq e'' he with ⟨e', he', ha'⟩ | ⟨hs, hd, hm⟩
    case inr => exact .inr ⟨hs, hd, h.misses.trans_lt hm⟩
    case inl =>
      rcases h.pending seq e' he' with ⟨e, he, ha⟩ | ⟨hs, hd, hm⟩
      case inl => exact .inl ⟨e, he, ha.trans ha'⟩
      case inr => exact .inr ⟨ha'.speculative.trans hs, ha'.deadline.le.trans hd, hm⟩
  spent seq e he hs := by
    rcases h.spent seq e he hs with ⟨e', he', ha⟩ | hm
    case inr => exact .inr (hm.trans_le h'.misses)
    case inl =>
      rcases h'.spent seq e' he' (ha.speculative.trans hs) with ⟨e'', he'', ha'⟩ | hm
      case inl => exact .inl ⟨e'', he'', ha.trans ha'⟩
      case inr => exact .inr (h.misses.trans_lt hm)

theorem of_eq (hp : f.pending = fs.pending) (hm : f.probeMisses = fs.probeMisses)
    (hl : f.lastSeen = fs.lastSeen) : Ages cfg b fs f where
  lastSeen       := hl
  misses         := hm.ge
  pending _ e' h := .inl ⟨e', hp ▸ h, .refl⟩
  spent _ e h _  := .inl ⟨e, hp ▸ h, .refl⟩

-- An entry is replaced by one of its kind.
theorem of_insert (he : fs.pending.lookup seq = some e) (ha : e.Alike e') :
    Ages cfg b fs { fs with pending := fs.pending.insert seq e' } where
  lastSeen := rfl
  misses   := le_rfl
  pending s g hg := by
    rw [AList.lookup_insert_eq_ite] at hg
    split at hg
    case isTrue hs => cases hg; exact .inl ⟨e, hs ▸ he, ha⟩
    case isFalse   => exact .inl ⟨g, hg, .refl⟩
  spent s g hg _ := by
    by_cases hs : s = seq
    case pos =>
      subst hs
      cases he.symm.trans hg
      exact .inl ⟨e', AList.lookup_insert _, ha⟩
    case neg => exact .inl ⟨g, (AList.lookup_insert_ne hs).trans hg, .refl⟩

-- An entry is taken away. If it was a probe, it is counted.
theorem of_erase (hp : f.pending = fs.pending.erase seq) (hl : f.lastSeen = fs.lastSeen)
    (hm : fs.probeMisses ≤ f.probeMisses)
    (hs : ∀ e, fs.pending.lookup seq = some e → e.speculative → fs.probeMisses < f.probeMisses) :
    Ages cfg b fs f where
  lastSeen := hl
  misses   := hm
  pending s g hg := by
    rw [hp, AList.lookup_erase_eq_ite] at hg
    split at hg
    case isTrue  => cases hg
    case isFalse => exact .inl ⟨g, hg, .refl⟩
  spent s g hg hspec := by
    by_cases h : s = seq
    case pos => exact .inr (hs g (h ▸ hg) hspec)
    case neg => exact .inl ⟨g, by rw [hp, AList.lookup_erase_ne h, hg], .refl⟩

theorem answered (h : fs.Answered seq r) : Ages cfg b fs r.flow := by
  cases h
  case unknown       => exact .refl
  case renewed he ha => exact .of_insert he (.of_renewed ha)

theorem probeMissed : Ages cfg b fs (fs.probeMissed e).flow :=
  .of_erase rfl rfl (le_add_of_nonneg_right zero_le_one) fun _ _ _ => lt_add_one fs.probeMisses

theorem evict {reason : AbandonReason} (he : fs.pending.lookup seq = some e) :
    Ages cfg b fs (fs.evict now seq e reason).flow := by
  refine .of_erase evict_pending ?lastSeen ?misses fun g hg hs => ?probe
  case lastSeen =>
    simp only [FlowState.evict]
    split
    case isTrue  => rfl
    case isFalse => exact bookAbandon_agrees.lastSeen
  case misses =>
    simp only [FlowState.evict]
    split
    case isTrue  => exact le_add_of_nonneg_right zero_le_one
    case isFalse => exact probeMisses_bookAbandon.ge
  case probe =>
    cases he.symm.trans hg
    rw [FlowState.evict, if_pos hs]
    exact lt_add_one fs.probeMisses

theorem sweptEntry (h : SweptEntry now fs seq r) : Ages cfg b fs r.flow := by
  cases h
  case kept                 => exact .refl
  case evicted he           => exact .evict he
  case rescheduled he ha _  => exact .of_insert he (.of_rescheduled ha)

theorem sweepEntries {room : SeqNum → Bool} {ss : List SeqNum} :
    Ages cfg b fs (fs.sweepEntries cfg now room ss).flow := by
  induction ss generalizing fs
  case nil          => exact .refl
  case cons s ss hi => exact (Ages.sweptEntry sweepEntry_swept).trans hi

-- There is a probe only if nothing is pending and misses are left.
theorem maybeProbeTail {room : Bool} (hn : fs.pending.size = 0) (hb : now ≤ b) :
    Ages cfg b fs (fs.maybeProbeTail cfg hk now room).flow := by
  have hempty (s : SeqNum) : fs.pending.lookup s = none := AList.size_eq_zero_iff.mp hn s
  simp only [FlowState.maybeProbeTail]
  split
  case isTrue => exact .refl
  case isFalse hw =>
    have hm : fs.probeMisses < cfg.maxMisses := by
      simp only [wantsProbe, Bool.and_eq_false_iff, not_or, decide_eq_false_iff_not, not_not] at hw
      exact hw.1.2
    split
    case isTrue =>
      refine ⟨rfl, le_rfl, fun s g hg => ?_, fun s g hg => by cases (hempty s).symm.trans hg⟩
      rw [AList.lookup_insert_eq_ite] at hg
      split at hg
      case isTrue  => cases hg; exact .inr ⟨rfl, Int.add_le_add_right hb _, hm⟩
      case isFalse => exact .inl ⟨g, hg, .refl⟩
    case isFalse =>
      exact .of_erase rfl rfl le_rfl fun g hg => by cases (hempty _).symm.trans hg

theorem sweep {room : SeqNum → Bool} (hb : now ≤ b) :
    Ages cfg b fs (fs.sweep cfg hk now room).flow := by
  have hp : Ages cfg b fs (fs.purgeAbandoned now) := .of_eq rfl rfl rfl
  have hr : Ages cfg b fs ((fs.purgeAbandoned now).sweepEntries cfg now room
      (fs.purgeAbandoned now).pending.keys).flow := hp.trans .sweepEntries
  simp only [FlowState.sweep]
  split
  case isTrue hn => exact hr.trans (.maybeProbeTail hn hb)
  case isFalse   => exact hr

end Ages

-- The flow has seen nothing after the time `b`, and waits for nothing longer than a gap of that
-- time.
structure Timely (cfg : Config) (b : Time) (fs : FlowState) : Prop where
  lastSeen : fs.lastSeen ≤ b
  pending  : ∀ seq e, fs.pending.lookup seq = some e → e.deadline ≤ b + cfg.gapTTL

namespace Timely

theorem ages (hf : Timely cfg b fs) (h : Ages cfg b fs f) : Timely cfg b f where
  lastSeen := h.lastSeen.le.trans hf.lastSeen
  pending seq e' he' := by
    rcases h.pending seq e' he' with ⟨e, he, ha⟩ | ⟨_, hd, _⟩
    case inl => exact ha.deadline.le.trans (hf.pending seq e he)
    case inr => exact hd

theorem of_erase (hf : Timely cfg b fs) (hp : f.pending = fs.pending.erase seq)
    (hl : f.lastSeen = fs.lastSeen) : Timely cfg b f where
  lastSeen := hl.le.trans hf.lastSeen
  pending s e he := by
    rw [hp, AList.lookup_erase_eq_ite] at he
    split at he
    case isTrue  => cases he
    case isFalse => exact hf.pending s e he

theorem observe {a : Arrival} (hb : i.now ≤ b)
    (hp : ∀ seq e, fs.pending.lookup seq = some e → e.deadline ≤ b + cfg.gapTTL) :
    Timely cfg b (fs.observe cfg i recorded a).flow where
  lastSeen := (observe_observed cfg i recorded fs a).lastSeen.le.trans hb
  pending s e he := by
    rcases observe_pending he with he | rfl
    case inl => exact hp s e he
    case inr => exact Int.add_le_add_right hb _

theorem request {q : Request} {room : Nat} (hf : Timely cfg b fs) (hb : i.now ≤ b) :
    Timely cfg b (fs.request cfg i room q).flow where
  lastSeen := by
    rw [FlowState.request, requestGaps_flow]
    exact hf.lastSeen
  pending s e he := by
    rw [FlowState.request, requestGaps_lookup] at he
    rcases Option.or_eq_some_iff.mp he with he | ⟨_, he⟩
    case inl => exact hf.pending s e he
    case inr =>
      split at he
      case isTrue  => cases he; exact Int.add_le_add_right hb _
      case isFalse => cases he

theorem autoFill (hf : Timely cfg b fs) (hr : fs.autoFill recorded seq = some r) :
    Timely cfg b r.flow :=
  have ⟨ha, _⟩ := autoFill_some hr
  hf.of_erase ha.pending ha.lastSeen

theorem fill (hf : Timely cfg b fs) : Timely cfg b (fs.fill recorded seq).flow := by
  cases fs.fill_or recorded seq
  case inl e =>
    have ha : Agrees (fs.noteLateFill seq).flow fs := noteLateFill_agrees
    rw [e]
    exact ⟨ha.lastSeen.le.trans hf.lastSeen, ha.pending ▸ hf.pending⟩
  case inr hr => exact hf.autoFill hr

theorem cancelGap (hf : Timely cfg b fs) : Timely cfg b (fs.cancelGap recorded e).flow := by
  cases fs.cancelGap_or recorded e
  case inl e  => rwa [e]
  case inr hr => exact hf.autoFill hr

theorem abandonGap {reason : AbandonReason} (hf : Timely cfg b fs) :
    Timely cfg b (fs.abandonGap now e reason).flow := by
  refine hf.of_erase abandonGap_pending ?_
  simp only [FlowState.abandonGap]
  split
  case isTrue  => rfl
  case isFalse => exact bookAbandon_agrees.lastSeen

end Timely

-- A sweep leaves nothing that is past its deadline.

theorem sweepEntry_not_expired {room : Bool}
    (h : (fs.sweepEntry cfg now room seq).flow.pending.lookup seq = some e) : now ≤ e.deadline := by
  simp only [sweepEntry] at h
  split at h
  case h_1 hn => cases hn.symm.trans h
  case h_2 g hg =>
    split at h
    case isTrue => rw [evict_pending, AList.lookup_erase] at h; cases h
    case isFalse hd =>
      have hd := not_lt.mp hd
      split at h
      case isTrue => rw [evict_pending, AList.lookup_erase] at h; cases h
      case isFalse =>
        split at h
        case isFalse => cases hg.symm.trans h; exact hd
        case isTrue =>
          split at h
          all_goals
            cases (AList.lookup_insert _).symm.trans h
            exact hd

theorem sweepEntries_not_expired {room : SeqNum → Bool} {ss : List SeqNum} (hs : seq ∈ ss)
    (h : (fs.sweepEntries cfg now room ss).flow.pending.lookup seq = some e) :
    now ≤ e.deadline := by
  induction ss generalizing fs
  case nil => cases hs
  case cons s ss hi =>
    by_cases hm : seq ∈ ss
    case pos => exact hi hm h
    case neg =>
      obtain rfl := (List.mem_cons.mp hs).resolve_right hm
      have hrest : ((fs.sweepEntry cfg now (room seq) seq).flow.sweepEntries
          cfg now room ss).flow.pending.lookup seq = some e := h
      obtain ⟨g, hg, hr⟩ := sweepEntries_pending hrest
      exact (sweepEntry_not_expired hg).trans_eq (GapEntry.Alike.of_rescheduled hr).deadline.symm

theorem sweep_not_expired {room : SeqNum → Bool} (ht : 0 ≤ cfg.gapTTL)
    (h : (fs.sweep cfg hk now room).flow.pending.lookup seq = some e) : now ≤ e.deadline := by
  have hr {e : GapEntry} (h : ((fs.purgeAbandoned now).sweepEntries cfg now room
      (fs.purgeAbandoned now).pending.keys).flow.pending.lookup seq = some e) :
      now ≤ e.deadline := by
    obtain ⟨g, hg, _⟩ := sweepEntries_pending h
    refine sweepEntries_not_expired ?_ h
    exact AList.mem_keys.mpr (AList.mem_iff_lookup.mpr ⟨g, hg⟩)
  simp only [FlowState.sweep] at h
  split at h
  case isFalse => exact hr h
  case isTrue =>
    rcases maybeProbeTail_pending h with h | ⟨_, rfl⟩
    case inl => exact hr h
    case inr => exact le_add_of_nonneg_right ht

-- The flow is alive for its probes only, all of them sent up to the time `b`.
structure Waning (cfg : Config) (b : Time) (f : FlowState) : Prop where
  nonempty : ∃ seq e, f.pending.lookup seq = some e
  probes   : ∀ seq e, f.pending.lookup seq = some e → e.speculative ∧ e.deadline ≤ b + cfg.gapTTL

-- A time that ends with a sweep, after all that was pending at its begin has expired. A flow that
-- survives had a miss left, and has used one if it had a probe under way.
theorem Ages.round {b' : Time} {room : SeqNum → Bool} (ht : 0 ≤ cfg.gapTTL) (h : Ages cfg b' fs f)
    (hd : ∀ seq e, fs.pending.lookup seq = some e → e.deadline ≤ b + cfg.gapTTL)
    (hb : b + cfg.gapTTL < b') (hidle : cfg.flowTTL < Time.sub b' fs.lastSeen)
    (hs : f.swept cfg hk b' room = some f') :
    f'.Waning cfg b' ∧ f'.lastSeen = fs.lastSeen ∧ fs.probeMisses ≤ f'.probeMisses ∧
      fs.probeMisses < cfg.maxMisses ∧
      ((∃ seq e, fs.pending.lookup seq = some e ∧ e.speculative) →
        fs.probeMisses < f'.probeMisses) := by
  unfold swept at hs
  dsimp only at hs
  split at hs
  case isTrue => cases hs
  case isFalse hnot =>
    obtain rfl := Option.some_inj.mp hs
    have ha : Ages cfg b' fs (f.sweep cfg hk b' room).flow := h.trans (.sweep le_rfl)
    -- Nothing is left of what was pending.
    have hfresh (seq : SeqNum) (e e' : GapEntry) (he : fs.pending.lookup seq = some e)
        (he' : (f.sweep cfg hk b' room).flow.pending.lookup seq = some e') :
        ¬e.Alike e' := fun halike =>
      absurd ((sweep_not_expired ht he').trans_eq halike.deadline)
        (not_le.mpr ((hd seq e he).trans_lt hb))
    have hprobe (seq : SeqNum) (e' : GapEntry)
        (he' : (f.sweep cfg hk b' room).flow.pending.lookup seq = some e') :
        e'.speculative ∧ e'.deadline ≤ b' + cfg.gapTTL ∧ fs.probeMisses < cfg.maxMisses := by
      rcases ha.pending seq e' he' with ⟨e, he, halike⟩ | hp
      case inl => exact absurd halike (hfresh seq e e' he he')
      case inr => exact hp
    have hne : ∃ seq e, (f.sweep cfg hk b' room).flow.pending.lookup seq = some e := by
      by_contra hno
      refine hnot ⟨AList.size_eq_zero_iff.mpr fun k => ?_, by rw [ha.lastSeen]; exact hidle⟩
      exact Option.eq_none_iff_forall_ne_some.mpr fun e he => hno ⟨k, e, he⟩
    obtain ⟨seq, e, he⟩ := hne
    refine ⟨⟨⟨seq, e, he⟩, fun s g hg => ⟨(hprobe s g hg).1, (hprobe s g hg).2.1⟩⟩,
      ha.lastSeen, ha.misses, (hprobe seq e he).2.2, ?_⟩
    rintro ⟨s, g, hg, hspec⟩
    rcases ha.spent s g hg hspec with ⟨g', hg', halike⟩ | hm
    case inl => exact absurd halike (hfresh s g g' hg hg')
    case inr => exact hm

end FlowState
end Nack
