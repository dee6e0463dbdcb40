import ShardListener.Nack.Theorems.Budget
import ShardListener.Nack.Theorems.Each

namespace Nack
namespace Tracker

variable {cfg : Config} {i : Instant} {t : Tracker} {hk : HashKey} {now : Time} {n : Nat} {op : Op}

-- The probes that an operation issues for a flow.
def probes (cfg : Config) (hk : HashKey) (t : Tracker) : Op → List GapEntry
  | .sweep now room => (t.flows.lookup hk).elim [] (·.probes cfg hk now (room hk))
  | _               => []

-- No frame of the flow is observed.
def Quiet (hk : HashKey) : Op → Prop
  | .observe _ a => a.hashKey ≠ hk
  | _            => True

instance : DecidablePred (Quiet hk)
  | .observe _ a   => inferInstanceAs (Decidable (a.hashKey ≠ hk))
  | .request ..    => .isTrue trivial
  | .fill ..       => .isTrue trivial
  | .sweep ..      => .isTrue trivial
  | .complete ..   => .isTrue trivial

-- Neither a fill nor the end of a NACK takes the probe away without counting it.
def Counts (hk : HashKey) (t : Tracker) : Op → Prop
  | .fill hk' seq => hk' = hk → ∀ fs ∈ t.flows.lookup hk, ∀ e ∈ fs.pending.lookup seq,
      e.speculative = false ∧ fs.probing ≠ e.seqNum
  | .complete _ e .cancel => e.hashKey = hk → ∀ fs ∈ t.flows.lookup hk,
      ∀ g ∈ fs.pending.lookup e.seqNum, g.speculative = false ∧ fs.probing ≠ g.seqNum
  | .complete _ e (.abandon _) => e.hashKey = hk → ∀ fs ∈ t.flows.lookup hk,
      fs.probing ≠ e.seqNum ∧ ¬fs.Probes e.seqNum
  | _ => True

instance : DecidablePred (t.Counts hk)
  | .fill ..                    => inferInstanceAs (Decidable (_ → ∀ fs ∈ _, ∀ e ∈ _, _ ∧ _))
  | .complete _ _ .cancel       => inferInstanceAs (Decidable (_ → ∀ fs ∈ _, ∀ e ∈ _, _ ∧ _))
  | .complete _ _ (.abandon _)  => inferInstanceAs (Decidable (_ → ∀ fs ∈ _, _ ∧ _))
  | .complete _ _ (.advance ..) => .isTrue trivial
  | .complete _ _ (.throttle _) => .isTrue trivial
  | .complete _ _ .probeMiss    => .isTrue trivial
  | .complete _ _ .lost         => .isTrue trivial
  | .observe ..                 => .isTrue trivial
  | .request ..                 => .isTrue trivial
  | .sweep ..                   => .isTrue trivial

-- The counts of the misses are not negative.
def Funded (t : Tracker) : Prop :=
  ∀ hk fs, t.flows.lookup hk = some fs → 0 ≤ fs.probeMisses

theorem invariant_probeMisses :
    FlowState.Invariant cfg (fun _ _ _ => True) fun fs => 0 ≤ fs.probeMisses where
  new _ _ _             := le_rfl
  observe _ _ _ _ _ _   := FlowState.probeMisses_observe
  request _ _ _ _ hz    := hz.trans FlowState.Accounts.request.probeMisses
  late _ _ hz           := hz.trans FlowState.Accounts.noteLateFill.probeMisses
  closed _ _ _ _ hr hz  := FlowState.probeMisses_autoFill hr hz
  sweep _ _ _ _ hz      := hz.trans FlowState.probeMisses_sweep
  abandonGap _ _ _ _ hz := FlowState.probeMisses_abandonGap.symm ▸ hz
  answered _ _ _ h hz   := hz.trans (FlowState.Accounts.answered h).probeMisses
  probeMissed _ _ hz    := hz.trans FlowState.Accounts.probeMissed.probeMisses

theorem Funded.step (ht : t.Funded) : (t.step cfg op).Funded :=
  Flows.step invariant_probeMisses ht (by cases op <;> simp [Admits])

-- The flow has a budget for `n` probes, if it is there.
structure Within (cfg : Config) (hk : HashKey) (n : Nat) (t : Tracker) : Prop where
  limit : (n : Int) ≤ cfg.maxMisses
  flow  : ∀ fs, t.flows.lookup hk = some fs → fs.Within cfg n

namespace Within

theorem of_lookup_eq {t' : Tracker} (hw : t.Within cfg hk n)
    (hl : t'.flows.lookup hk = t.flows.lookup hk) : t'.Within cfg hk n :=
  ⟨hw.limit, fun fs hfs => hw.flow fs (hl ▸ hfs)⟩

theorem onFlow {hk' : HashKey} {op : FlowState → Effect} (hw : t.Within cfg hk n)
    (hop : hk' = hk → ∀ fs, t.flows.lookup hk = some fs → fs.Accounts (op fs).flow) :
    (t.onFlow hk' op).Within cfg hk n := by
  by_cases e : hk = hk'
  case neg => exact hw.of_lookup_eq (by rw [lookup_onFlow, if_neg e])
  case pos =>
    subst e
    refine ⟨hw.limit, fun f hf => ?_⟩
    rw [lookup_onFlow, if_pos rfl] at hf
    have ⟨fs, hfs, e⟩ := Option.map_eq_some_iff.mp hf
    exact e ▸ (hw.flow fs hfs).accounts (hop rfl fs hfs)

theorem observeFrom {a : Arrival} (hw : t.Within cfg hk n) (hq : a.hashKey ≠ hk) :
    (t.observeFrom cfg i a).Within cfg hk n := by
  by_cases hz : a.seqNum = 0
  case pos => rwa [Tracker.observeFrom, if_pos hz]
  case neg => exact hw.of_lookup_eq (by rw [lookup_observeFrom cfg i t hk hz, if_neg hq.symm])

-- A flow that a request creates has no estimate of its rate, and does not probe.
theorem requestGapsFrom {room : Nat} {q : Request} (hw : t.Within cfg hk n) :
    (t.requestGapsFrom cfg i room q).Within cfg hk n := by
  by_cases hq : q.seqs = []
  case pos => rwa [Tracker.requestGapsFrom, if_pos hq]
  case neg =>
    have hl := lookup_requestGapsFrom cfg i room t hk hq
    by_cases e : hk = q.hashKey
    case neg => exact hw.of_lookup_eq (by rw [hl, if_neg e])
    case pos =>
      refine ⟨hw.limit, fun f hf => ?_⟩
      rw [hl, if_pos e] at hf
      obtain ⟨fs, hfs, ef⟩ := Option.map_eq_some_iff.mp hf
      have hflow : fs.Within cfg n := by
        rcases Option.or_eq_some_iff.mp hfs with hfs | ⟨_, hfs⟩
        case inl => exact hw.flow fs (e ▸ hfs)
        case inr =>
          split at hfs
          case isTrue => cases hfs
          case isFalse =>
            cases hfs
            exact ⟨hw.limit, fun hs => absurd hs.1 (lt_irrefl _)⟩
      exact ef ▸ hflow.accounts .request

theorem sweepOnce {room : HashKey → SeqNum → Bool} (hw : t.Within cfg hk n) :
    (t.sweepOnce cfg now room).Within cfg hk (n + (t.probes cfg hk (.sweep now room)).length) := by
  cases hl : t.flows.lookup hk
  case none =>
    have hgone : (t.sweepOnce cfg now room).flows.lookup hk = none := by
      rw [lookup_sweepOnce, hl]
      rfl
    refine ⟨?_, fun f hf => nomatch hgone.symm.trans hf⟩
    simpa [probes, hl] using hw.limit
  case some fs =>
    have hs : (fs.sweep cfg hk now (room hk)).flow.Within cfg
      (n + (fs.probes cfg hk now (room hk)).length) := (hw.flow fs hl).sweep
    have hp : t.probes cfg hk (.sweep now room) = fs.probes cfg hk now (room hk) := by
      simp [probes, hl]
    rw [hp]
    refine ⟨hs.limit, fun f hf => ?_⟩
    rw [lookup_sweepOnce, hl, Option.bind_some, FlowState.swept] at hf
    split at hf
    case isTrue  => cases hf
    case isFalse => cases hf; exact hs

theorem complete {e : GapEntry} {c : Completion} (hw : t.Within cfg hk n)
    (hc : t.Counts hk (.complete i e c)) : (t.complete cfg i e c).Within cfg hk n := by
  cases c
  case cancel =>
    refine hw.onFlow fun ek fs hl => ?_
    cases fs.cancelGap_or t.recorder.isSome e
    case inl e  => rw [e]; exact .refl
    case inr hr => exact .autoFill hr (hc ek fs hl)
  case abandon reason =>
    refine hw.onFlow fun ek fs hl => ?_
    have ⟨hn, hs⟩ := hc ek fs hl
    exact .abandonGap hn hs
  case advance   => exact hw.onFlow fun _ _ _ => .answered FlowState.advanceEndpoint_answered
  case throttle  => exact hw.onFlow fun _ _ _ => .answered FlowState.throttleGap_answered
  case probeMiss => exact hw.onFlow fun _ _ _ => .probeMissed
  case lost      => exact hw

theorem step (hw : t.Within cfg hk n) (hq : Quiet hk op) (hc : t.Counts hk op) :
    (t.step cfg op).Within cfg hk (n + (t.probes cfg hk op).length) := by
  cases op
  case observe i a      => exact hw.observeFrom hq
  case request i room q => exact hw.requestGapsFrom
  case sweep now room   => exact hw.sweepOnce
  case complete i e c =>
    have h := hw.complete hc
    exact ⟨h.limit, h.flow⟩
  case fill hk' seq =>
    simp only [Tracker.step, Tracker.fill]
    split
    case isTrue => exact hw
    case isFalse =>
      refine hw.onFlow fun ek fs hl => ?_
      cases fs.fill_or t.recorder.isSome seq
      case inl e  => rw [e]; exact .noteLateFill
      case inr hr => exact .autoFill hr (hc ek fs hl)

end Within

-- A step, with the record of the probes that are issued for a flow.
def probed (cfg : Config) (hk : HashKey) (p : Tracker × List GapEntry) (op : Op) :
    Tracker × List GapEntry :=
  (p.1.step cfg op, p.2 ++ p.1.probes cfg hk op)

-- The flow has a budget for the probes on record.
def Covered (cfg : Config) (hk : HashKey) (p : Tracker × List GapEntry) : Prop :=
  p.1.Within cfg hk p.2.length

theorem Covered.step {p : Tracker × List GapEntry} (hp : Covered cfg hk p) (hq : Quiet hk op)
    (hc : p.1.Counts hk op) : Covered cfg hk (probed cfg hk p op) := by
  have hw : p.1.Within cfg hk p.2.length := hp
  have hs := hw.step hq hc
  rwa [← List.length_append] at hs

theorem maxMisses_pos : 0 < cfg.maxMisses := by
  simp only [Config.maxMisses]
  split <;> omega

-- In a stretch of a run without a frame of the flow, in which every probe that ends is counted, no
-- more probes are issued than the limit allows.
theorem probes_le_maxMisses {before ops : List Op} (hq : ∀ op ∈ ops, Quiet hk op)
    (hc : Run.Along (probed cfg hk) (fun p op => p.1.Counts hk op)
      (Run.exec (step cfg) .new before, []) ops) :
    Run.Always (probed cfg hk) (fun p => (p.2.length : Int) ≤ cfg.maxMisses)
      (Run.exec (step cfg) .new before, []) ops := by
  have hfunded : (Run.exec (step cfg) .new before).Funded :=
    Run.exec_of_step Funded (fun _ _ h => h.step) nofun
  have h₀ : (Run.exec (step cfg) .new before).Within cfg hk 0 := by
    refine ⟨maxMisses_pos.le, fun fs hl => ⟨maxMisses_pos.le, fun _ => ?_⟩⟩
    have hz := hfunded hk fs hl
    simp only [FlowState.spent]
    split <;> omega
  have hall :
      Run.Always (probed cfg hk) (Covered cfg hk) (Run.exec (step cfg) .new before, []) ops :=
    Run.always_of_preserved (fun p op hp h => hp.step h.1 h.2) h₀ ((Run.Along.of_forall hq).and hc)
  exact hall.mono fun p hp => hp.limit

-- A flow with a frame every ten milliseconds, and its probes once it is idle.

def steadyFlow : List Op :=
  (List.range 17).map fun k : Nat =>
    .observe ⟨Time.ms (10 * k), fun _ => 0⟩ ⟨0, 0xFFFE, .zero, 7, k + 1, some 1⟩

def probeAt (ms : Int) : GapEntry where
  hashKey     := 7
  seqNum      := 18
  groupIdx    := 0xFFFE
  subtreeID   := .zero
  source      := some 1
  nextAttempt := Time.ms ms
  deadline    := Time.ms (ms + 600000)
  speculative := true
  owner       := 0

-- A sweep that issues a probe, and the end of its NACK.
def probedAt (c : Completion) (ms : Int) : List Op :=
  [.sweep (Time.ms ms) fun _ _ => true, .complete ⟨Time.ms (ms + 50), fun _ => 0⟩ (probeAt ms) c]

theorem probes_missed :
    Run.Always (probed .default 7) (fun p => (p.2.length : Int) ≤ 3)
      (Run.exec (step .default) .new steadyFlow, [])
        ([1000, 2000, 3000, 4000].flatMap (probedAt .probeMiss)) :=
  probes_le_maxMisses (by decide +kernel) (by decide +kernel)

-- An ACK for a multicast closes the probe as if its frame had come, and the misses are forgotten.
theorem acked_probes_exceed :
    let t := Run.exec (step .default) .new steadyFlow
    let ops := [1000, 2000, 3000, 4000].flatMap (probedAt .cancel)
    (∀ op ∈ ops, Quiet 7 op) ∧ Run.Along (step .default) Enabled t ops ∧
      ¬Run.Always (probed .default 7)
        (fun p => (p.2.length : Int) ≤ Config.maxMisses .default) (t, []) ops := by
  refine ⟨by decide +kernel, by decide +kernel, fun h => ?_⟩
  exact absurd h.last (by decide +kernel)

end Tracker
end Nack
