import ShardListener.Nack.Theorems.Aging
import ShardListener.Nack.Theorems.Isolation

-- A flow that falls silent is forgotten.
namespace Nack

open FlowState

variable {cfg : Config} {b : Time} {hk : HashKey} {t : Tracker} {recorded : Bool} {l : Lane}
variable {op : Op}

-- No frame of the flow arrives up to the time `b`, and no NACK of it is answered with the frame or
-- given up. The other flows do what they want.
def Op.Unanswered (hk : HashKey) (b : Time) : Op → Prop
  | observe _ a                => a.hashKey ≠ hk
  | request _ _ q              => q.hashKey ≠ hk
  | fill hashKey _             => hashKey ≠ hk
  | sweep now _                => now ≤ b
  | complete _ e .cancel       => e.hashKey ≠ hk
  | complete _ e (.abandon _)  => e.hashKey ≠ hk
  | complete ..                => True

instance : DecidablePred (Op.Unanswered hk b)
  | .observe ..                 => inferInstanceAs (Decidable (_ ≠ _))
  | .request ..                 => inferInstanceAs (Decidable (_ ≠ _))
  | .fill ..                    => inferInstanceAs (Decidable (_ ≠ _))
  | .sweep ..                   => inferInstanceAs (Decidable (_ ≤ _))
  | .complete _ _ .cancel       => inferInstanceAs (Decidable (_ ≠ _))
  | .complete _ _ (.abandon _)  => inferInstanceAs (Decidable (_ ≠ _))
  | .complete _ _ (.advance ..) => .isTrue trivial
  | .complete _ _ (.throttle _) => .isTrue trivial
  | .complete _ _ .probeMiss    => .isTrue trivial
  | .complete _ _ .lost         => .isTrue trivial

-- The flow is gone, or it is older.
def Fades (cfg : Config) (b : Time) (o o' : Option FlowState) : Prop :=
  ∀ f, o' = some f → ∃ fs : FlowState, o = some fs ∧ fs.Ages cfg b f

theorem Fades.refl {o : Option FlowState} : Fades cfg b o o :=
  fun f h => ⟨f, h, .refl⟩

theorem Fades.trans {o o' o'' : Option FlowState} (h : Fades cfg b o o') (h' : Fades cfg b o' o'') :
    Fades cfg b o o'' := by
  intro f'' hf''
  obtain ⟨f', hf', ha'⟩ := h' f'' hf''
  obtain ⟨f, hf, ha⟩ := h f' hf'
  exact ⟨f, hf, ha.trans ha'⟩

theorem Fades.of_map {o : Option FlowState} {g : FlowState → FlowState}
    (h : ∀ fs : FlowState, fs.Ages cfg b (g fs)) : Fades cfg b o (o.map g) := by
  intro f hf
  obtain ⟨fs, hfs, rfl⟩ := Option.map_eq_some_iff.mp hf
  exact ⟨fs, hfs, h fs⟩

theorem Lane.fades_step (h : op.Unanswered hk b) :
    Fades cfg b l.flow (l.step cfg recorded hk op).flow := by
  unfold Lane.step
  split
  case isFalse => exact .refl
  case isTrue hc =>
    cases op
    case observe => exact absurd hc h
    case request => exact absurd hc h
    case fill    => exact absurd hc h
    case sweep now room =>
      intro f hf
      simp only [Lane.act] at hf
      cases hl : l.flow
      case none => rw [hl] at hf; cases hl.symm.trans hf
      case some fs =>
        rw [hl] at hf
        dsimp only at hf
        split at hf
        case isTrue  => cases hf
        case isFalse => cases hf; exact ⟨fs, rfl, .sweep h⟩
    case complete i e c =>
      refine .of_map fun fs => ?_
      cases c
      case cancel    => exact absurd hc h
      case abandon   => exact absurd hc h
      case advance   => exact .answered advanceEndpoint_answered
      case throttle  => exact .answered throttleGap_answered
      case probeMiss => exact .probeMissed
      case lost      => exact .refl

theorem Lane.fades_exec {ops : List Op} (h : ∀ op ∈ ops, op.Unanswered hk b) :
    Fades cfg b l.flow (Run.exec (Lane.step cfg recorded hk) l ops).flow := by
  induction ops generalizing l
  case nil => exact .refl
  case cons op ops hi =>
    exact (Lane.fades_step (h op List.mem_cons_self)).trans
      (hi fun o ho => h o (List.mem_cons_of_mem _ ho))

-- A time that ends with a sweep.
structure Round where
  ops    : List Op
  finish : Time
  room   : HashKey → SeqNum → Bool

def Round.run (r : Round) : List Op :=
  r.ops ++ [.sweep r.finish r.room]

-- One round after the other, each of them longer than a gap lives, and the flow is silent.
def Silence (cfg : Config) (hk : HashKey) (b : Time) : List Round → Prop
  | []      => True
  | r :: rs =>
    b + cfg.gapTTL < r.finish ∧ (∀ op ∈ r.ops, op.Unanswered hk r.finish) ∧
      Silence cfg hk r.finish rs

instance decidableSilence : ∀ b rs, Decidable (Silence cfg hk b rs)
  | _, []      => .isTrue trivial
  | _, r :: rs =>
    have : Decidable (Silence cfg hk r.finish rs) := decidableSilence r.finish rs
    inferInstanceAs (Decidable (_ ∧ (∀ op ∈ _, _) ∧ _))

theorem Lane.step_sweep_flow {now : Time} {room : HashKey → SeqNum → Bool} :
    (l.step cfg recorded hk (.sweep now room)).flow =
      l.flow.bind (FlowState.swept cfg hk now (room hk)) := by
  have hc : (Op.sweep now room).Concerns hk := trivial
  rw [Lane.step, if_pos hc, Lane.act]
  cases hl : l.flow
  case none   => exact hl
  case some f => rfl

-- A flow that is there after a round was there before it.
theorem Lane.exec_round {r : Round} {f' : FlowState} (hr : ∀ op ∈ r.ops, op.Unanswered hk r.finish)
    (hf' : (Run.exec (Lane.step cfg recorded hk) l r.run).flow = some f') :
    ∃ fs f : FlowState, l.flow = some fs ∧ fs.Ages cfg r.finish f ∧
      f.swept cfg hk r.finish (r.room hk) = some f' := by
  rw [Round.run, Run.exec_append, Run.exec_cons, Run.exec_nil, Lane.step_sweep_flow] at hf'
  obtain ⟨f, hf, hs⟩ := Option.bind_eq_some_iff.mp hf'
  obtain ⟨fs, hfs, ha⟩ := Lane.fades_exec hr f hf
  exact ⟨fs, f, hfs, ha, hs⟩

-- Each round takes a miss, so the flow does not outlive its misses.
theorem Lane.forgotten_of_waning {rs : List Round} (ht : 0 ≤ cfg.gapTTL) (hs : Silence cfg hk b rs)
    (hw : ∀ fs, l.flow = some fs → fs.Waning cfg b ∧ cfg.flowTTL < Time.sub b fs.lastSeen ∧
      rs ≠ [] ∧ cfg.maxMisses < fs.probeMisses + rs.length) :
    (Run.exec (Lane.step cfg recorded hk) l (rs.flatMap Round.run)).flow = none := by
  induction rs generalizing l b
  case nil =>
    cases hl : l.flow
    case none    => exact hl
    case some fs => exact absurd rfl (hw fs hl).2.2.1
  case cons r rs hi =>
    rw [List.flatMap_cons, Run.exec_append]
    refine hi hs.2.2 fun f' hf' => ?_
    obtain ⟨fs, f, hl, ha, hswept⟩ := Lane.exec_round hs.2.1 hf'
    obtain ⟨hwane, hidle, _, hm⟩ := hw fs hl
    have hlate : cfg.flowTTL < Time.sub r.finish fs.lastSeen :=
      hidle.trans_le (Time.sub_le_sub ((le_add_of_nonneg_right ht).trans hs.1.le) le_rfl)
    obtain ⟨hwane', hseen, _, hleft, hspent⟩ :=
      ha.round ht (fun seq e he => (hwane.probes seq e he).2) hs.1 hlate hswept
    obtain ⟨seq, e, he⟩ := hwane.nonempty
    have hmiss := hspent ⟨seq, e, he, (hwane.probes seq e he).1⟩
    rw [List.length_cons, Nat.cast_succ] at hm
    refine ⟨hwane', hseen ▸ hlate, ?_, ?_⟩
    case refine_1 => rintro rfl; simp at hm; omega
    case refine_2 => omega

-- The clock has not passed the time `b`.
def Op.By (b : Time) : Op → Prop
  | observe i _   => i.now ≤ b
  | request i _ _ => i.now ≤ b
  | sweep now _   => now ≤ b
  | _             => True

instance : DecidablePred (Op.By b)
  | .observe ..  => inferInstanceAs (Decidable (_ ≤ _))
  | .request ..  => inferInstanceAs (Decidable (_ ≤ _))
  | .sweep ..    => inferInstanceAs (Decidable (_ ≤ _))
  | .fill ..     => .isTrue trivial
  | .complete .. => .isTrue trivial

def Tracker.Timely (cfg : Config) (b : Time) (t : Tracker) : Prop :=
  t.Flows (FlowState.Timely cfg b)

namespace Tracker.Timely

theorem observeFrom {i : Instant} {a : Arrival} (ht : t.Timely cfg b) (hb : i.now ≤ b) :
    (t.observeFrom cfg i a).Timely cfg b := by
  refine Flows.iff_each.mpr <| (Flows.iff_each.mp ht).observeFrom fun fs hf => Flows.meets ?_
  refine .observe hb fun seq e he => ?_
  rcases flowFor_cases hf with hl | ⟨_, rfl⟩
  case inl => exact (ht _ fs hl).pending seq e he
  case inr => cases he

theorem requestGapsFrom {i : Instant} {q : Request} {room : Nat} (ht : t.Timely cfg b)
    (hb : i.now ≤ b) : (t.requestGapsFrom cfg i room q).Timely cfg b := by
  refine Flows.iff_each.mpr <| (Flows.iff_each.mp ht).requestGapsFrom fun fs hf => Flows.meets ?_
  refine FlowState.Timely.request ?_ hb
  rcases requestFlow_cases hf with hl | ⟨_, rfl⟩
  case inl => exact ht _ fs hl
  case inr => exact ⟨hb, nofun⟩

theorem complete {i : Instant} {e : GapEntry} {c : Completion} (ht : t.Timely cfg b) :
    (t.complete cfg i e c).Timely cfg b := by
  cases c
  case cancel    => exact Flows.onFlow ht fun _ hf => hf.cancelGap
  case abandon   => exact Flows.onFlow ht fun _ hf => hf.abandonGap
  case advance   => exact Flows.onFlow ht fun _ hf => hf.ages (.answered advanceEndpoint_answered)
  case throttle  => exact Flows.onFlow ht fun _ hf => hf.ages (.answered throttleGap_answered)
  case probeMiss => exact Flows.onFlow ht fun _ hf => hf.ages .probeMissed
  case lost      => exact ht

theorem step (ht : t.Timely cfg b) (hb : op.By b) : (t.step cfg op).Timely cfg b := by
  have he := Flows.iff_each.mp ht
  cases op
  case observe i a      => exact ht.observeFrom hb
  case request i room q => exact ht.requestGapsFrom hb
  case fill hk s        => exact Flows.iff_each.mpr <| he.fill fun _ hf => Flows.meets hf.fill
  case sweep now room   =>
    exact Flows.iff_each.mpr <| he.sweepOnce fun _ _ hf => Flows.meets (hf.ages (.sweep hb))
  case complete i e c   => exact ht.complete

end Tracker.Timely

-- What the run up to the time `b` leaves.
structure Tracker.Settled (cfg : Config) (b : Time) (t : Tracker) : Prop where
  timely : t.Timely cfg b
  funded : t.Funded
  marked : t.Marked Keyed

theorem Tracker.Settled.exec {ops : List Op} (ht : t.Settled cfg b) (hb : ∀ op ∈ ops, op.By b) :
    (Run.exec (Tracker.step cfg) t ops).Settled cfg b := by
  induction ops generalizing t
  case nil => exact ht
  case cons op ops hi =>
    refine hi ⟨ht.timely.step (hb op List.mem_cons_self), ht.funded.step,
      ht.marked.step Keyed.suits⟩ ?_
    exact fun o ho => hb o (List.mem_cons_of_mem _ ho)

theorem Op.Unanswered.roomy (h : op.Unanswered hk b) : Roomy cfg hk t op := by
  cases op
  case observe  => exact fun e => absurd e h
  case request  => exact fun e => absurd e h
  case fill     => trivial
  case sweep    => trivial
  case complete => trivial

theorem Silence.roomy {rs : List Round} (hs : Silence cfg hk b rs) :
    Run.Along (Tracker.step cfg) (Roomy cfg hk) t (rs.flatMap Round.run) := by
  induction rs generalizing t b
  case nil => trivial
  case cons r rs hi =>
    rw [List.flatMap_cons, Round.run]
    refine Run.Along.append.mpr ⟨Run.Along.append.mpr ⟨?_, trivial, trivial⟩, hi hs.2.2⟩
    exact (Run.Along.of_forall hs.2.1).mono fun _ _ h => h.roomy

-- The first round ends when the flow is idle. From then on each of the rounds takes a miss.
theorem Lane.forgotten {r : Round} {rs : List Round} (ht : 0 ≤ cfg.gapTTL)
    (hs : Silence cfg hk b (r :: rs))
    (hl : ∀ fs, l.flow = some fs → fs.Timely cfg b ∧ 0 ≤ fs.probeMisses)
    (hidle : cfg.flowTTL < Time.sub r.finish b) (hn : cfg.maxMisses < rs.length) :
    (Run.exec (Lane.step cfg recorded hk) l ((r :: rs).flatMap Round.run)).flow = none := by
  rw [List.flatMap_cons, Run.exec_append]
  refine Lane.forgotten_of_waning ht hs.2.2 fun f' hf' => ?_
  obtain ⟨fs, f, hfs, ha, hswept⟩ := Lane.exec_round hs.2.1 hf'
  obtain ⟨hf, hz⟩ := hl fs hfs
  have hlate : cfg.flowTTL < Time.sub r.finish fs.lastSeen :=
    hidle.trans_le (Time.sub_le_sub le_rfl hf.lastSeen)
  obtain ⟨hwane, hseen, hmiss, hleft, _⟩ := ha.round ht hf.pending hs.1 hlate hswept
  refine ⟨hwane, hseen ▸ hlate, ?_, ?_⟩
  case refine_1 => rintro rfl; simp at hn; omega
  case refine_2 => omega

-- A flow that falls silent is forgotten after the rounds that its probes need, whatever the other
-- flows do.
theorem silent_flow_forgotten {before : List Op} {r : Round} {rs : List Round} (ht : 0 ≤ cfg.gapTTL)
    (hb : ∀ op ∈ before, op.By b) (hs : Silence cfg hk b (r :: rs))
    (hidle : cfg.flowTTL < Time.sub r.finish b) (hn : cfg.maxMisses < rs.length) :
    (Run.exec (Tracker.step cfg) .new (before ++ (r :: rs).flatMap Round.run)).flows.lookup hk =
      none := by
  have hset : (Run.exec (Tracker.step cfg) .new before).Settled cfg b :=
    Tracker.Settled.exec ⟨nofun, nofun, .new⟩ hb
  rw [Run.exec_append]
  generalize Run.exec (Tracker.step cfg) .new before = t at hset ⊢
  have hlane := congrArg Lane.flow (lane_exec hset.marked hs.roomy)
  refine hlane.trans ?_
  exact Lane.forgotten ht hs (fun fs hl => ⟨hset.timely hk fs hl, hset.funded hk fs hl⟩) hidle hn

-- A round in which another flow goes on.
def roundAt (sec : Int) : Round where
  ops    := [frameAt 6 1 (sec - 1), sweepAt sec]
  finish := Time.ms (1000 * sec)
  room   := fun _ _ => true

-- The flow loses frames, and nothing is heard of it any more.
theorem lossy_flow_forgotten :
    (Run.exec (Tracker.step .default) .new ([frameAt 5 1 0, frameAt 5 5 1, sweepAt 2] ++
      [roundAt 700, roundAt 1400, roundAt 2100, roundAt 2800,
        roundAt 3500].flatMap Round.run)).flows.lookup 5 =
      none :=
  silent_flow_forgotten (b := Time.ms 2000) (by decide) (by decide +kernel) (by decide +kernel)
    (by decide +kernel) (by decide)

end Nack
