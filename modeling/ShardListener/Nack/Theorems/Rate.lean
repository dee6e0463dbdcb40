import ShardListener.Nack.Theorems.Each

-- A step from `x` towards `y` of a truncated part of the way does not pass either of them.
theorem Int.add_tdiv_between {x y n : Int} (hn : 0 ≤ n) :
    min x y ≤ x + (y - x).tdiv n ∧ x + (y - x).tdiv n ≤ max x y := by
  rcases Int.le_total x y with h | h
  case inl =>
    have h₀ : 0 ≤ (y - x).tdiv n := Int.tdiv_nonneg (Int.sub_nonneg_of_le h) hn
    have h₁ : (y - x).tdiv n ≤ y - x := Int.tdiv_le_self _ (Int.sub_nonneg_of_le h)
    omega
  case inr =>
    have e : (y - x).tdiv n = -(x - y).tdiv n := by rw [← Int.neg_tdiv, Int.neg_sub]
    have h₀ : 0 ≤ (x - y).tdiv n := Int.tdiv_nonneg (Int.sub_nonneg_of_le h) hn
    have h₁ : (x - y).tdiv n ≤ x - y := Int.tdiv_le_self _ (Int.sub_nonneg_of_le h)
    omega

-- On the way between two positive values of an `int64`, nothing wraps around.
theorem toInt64_add_tdiv {x y n : Int} (hn : 0 ≤ n) (hx : 0 ≤ x ∧ x ≤ Time.maxInt64)
    (hy : 0 ≤ y ∧ y ≤ Time.maxInt64) :
    toInt64 (x + (toInt64 (y - x)).tdiv n) = x + (y - x).tdiv n := by
  have ⟨hlo, hhi⟩ := Int.add_tdiv_between (x := x) (y := y) hn
  simp only [Time.maxInt64] at hx hy
  have hd : toInt64 (y - x) = y - x := Int.bmod_eq_of_le (by omega) (by omega)
  rw [hd]
  exact Int.bmod_eq_of_le (by omega) (by omega)

namespace Nack

variable {cfg : Config} {i : Instant} {a : Arrival} {samples : List Duration}
variable {ipg elapsed : Duration}

-- The estimate is not set, or it lies between two of the samples, all of which are positive.
structure Estimates (samples : List Duration) (ipg : Duration) : Prop where
  sampled : ∀ x ∈ samples, 0 < x ∧ x ≤ Time.maxInt64
  between : ipg = 0 ∨ (∃ x ∈ samples, x ≤ ipg) ∧ ∃ y ∈ samples, ipg ≤ y

namespace Estimates

theorem unset : Estimates [] 0 :=
  ⟨by simp, .inl rfl⟩

theorem nonneg (h : Estimates samples ipg) : 0 ≤ ipg ∧ ipg ≤ Time.maxInt64 := by
  rcases h.between with rfl | ⟨⟨x, hx, hl⟩, y, hy, hu⟩
  case inl => decide
  case inr => exact ⟨(h.sampled x hx).1.le.trans hl, hu.trans (h.sampled y hy).2⟩

theorem pos (h : Estimates samples ipg) (hne : ipg ≠ 0) : 0 < ipg :=
  lt_of_le_of_ne h.nonneg.1 hne.symm

theorem min_max (h : Estimates samples ipg) (hne : ipg ≠ 0) :
    ∃ lo hi, samples.min? = some lo ∧ samples.max? = some hi ∧ lo ≤ ipg ∧ ipg ≤ hi := by
  have ⟨⟨x, hx, hl⟩, y, hy, hu⟩ := h.between.resolve_left hne
  have hs : samples ≠ [] := List.ne_nil_of_mem hx
  have ⟨lo, hlo⟩ := Option.isSome_iff_exists.mp (List.isSome_min?_of_ne_nil hs)
  have ⟨hi, hhi⟩ := Option.isSome_iff_exists.mp (List.isSome_max?_of_ne_nil hs)
  exact ⟨lo, hi, hlo, hhi, ((List.min?_eq_some_iff.mp hlo).2 x hx).trans hl,
    hu.trans ((List.max?_eq_some_iff.mp hhi).2 y hy)⟩

end Estimates

namespace FlowState

variable {fs : FlowState} {recorded : Bool}

-- A contiguous frame feeds the time since the frame before it to the estimate, if it is positive.
-- An emitter change puts the estimate back to zero, and what was fed to it before no longer counts.
def samplesAfter (i : Instant) (fs : FlowState) (samples : List Duration) :
    Option Verdict → List Duration
  | some .contiguous    =>
    if 0 < Time.sub i.now fs.lastSeen then samples ++ [Time.sub i.now fs.lastSeen] else samples
  | some .emitterChange => []
  | _                   => samples

-- The update in the arithmetic of the source: every difference and every sum is an `int64`.
def nextIPG64 (ewmaIPG elapsed : Duration) : Duration :=
  if elapsed > 0 then
    if ewmaIPG = 0 then elapsed else toInt64 (ewmaIPG + (toInt64 (elapsed - ewmaIPG)).tdiv 8)
  else ewmaIPG

end FlowState

namespace Estimates

theorem nextIPG_between (h : Estimates samples ipg) (he : 0 < elapsed)
    (hm : elapsed ≤ Time.maxInt64) :
    Estimates (samples ++ [elapsed]) (FlowState.nextIPG ipg elapsed) where
  sampled x hx := by
    rcases List.mem_append.mp hx with hx | hx
    case inl => exact h.sampled x hx
    case inr => rw [List.mem_singleton.mp hx]; exact ⟨he, hm⟩
  between := by
    have hself : elapsed ∈ samples ++ [elapsed] := by simp
    have hold {x : Duration} (hx : x ∈ samples) : x ∈ samples ++ [elapsed] :=
      List.mem_append_left _ hx
    right
    simp only [FlowState.nextIPG, gt_iff_lt, he, if_true]
    split
    case isTrue => exact ⟨⟨elapsed, hself, le_rfl⟩, elapsed, hself, le_rfl⟩
    case isFalse hne =>
      have ⟨⟨x, hx, hl⟩, y, hy, hu⟩ := h.between.resolve_left hne
      have ⟨hlo, hhi⟩ := Int.add_tdiv_between (x := ipg) (y := elapsed) (n := 8) (by decide)
      constructor
      case left =>
        rcases min_choice ipg elapsed with e | e
        case inl => exact ⟨x, hold hx, hl.trans (e.ge.trans hlo)⟩
        case inr => exact ⟨elapsed, hself, e.ge.trans hlo⟩
      case right =>
        rcases max_choice ipg elapsed with e | e
        case inl => exact ⟨y, hold hy, (hhi.trans e.le).trans hu⟩
        case inr => exact ⟨elapsed, hself, hhi.trans e.le⟩

-- None of the differences and sums leaves the range of an `int64`.
theorem nextIPG64_eq (h : Estimates samples ipg) (hm : elapsed ≤ Time.maxInt64) :
    FlowState.nextIPG64 ipg elapsed = FlowState.nextIPG ipg elapsed := by
  simp only [FlowState.nextIPG64, FlowState.nextIPG]
  split
  case isFalse => rfl
  case isTrue he =>
    split
    case isTrue => rfl
    case isFalse => exact toInt64_add_tdiv (by decide) h.nonneg ⟨he.le, hm⟩

end Estimates

namespace FlowState

variable {fs : FlowState} {recorded : Bool}

theorem estimates_observe (h : Estimates samples fs.ewmaIPG) :
    Estimates (fs.samplesAfter i samples (fs.verdictOf cfg i a))
      (fs.observe cfg i recorded a).flow.ewmaIPG := by
  rw [(observe_observed ..).ewmaIPG]
  generalize fs.verdictOf cfg i a = v
  cases v
  case none => exact h
  case some v =>
    cases v
    case contiguous =>
      simp only [samplesAfter, ipgAfter]
      split
      case isTrue he  => exact h.nextIPG_between he (max_le (by decide) (min_le_left _ _))
      case isFalse he => rw [nextIPG, if_neg he]; exact h
    case emitterChange => exact .unset
    all_goals exact h

end FlowState

-- The tracker under a run of `ObserveFrom` calls, with the samples that were fed to the estimate of
-- one flow since it was last put to zero.
structure Rating where
  tracker : Tracker
  samples : List Duration := []

namespace Rating

variable {hk : HashKey} {x : Rating}

def step (cfg : Config) (hk : HashKey) (x : Rating) (c : Instant × Arrival) : Rating where
  tracker := x.tracker.observeFrom cfg c.1 c.2
  samples :=
    match x.tracker.flowFor cfg c.2 with
    | none    => x.samples
    | some fs =>
      if c.2.hashKey = hk ∧ c.2.seqNum ≠ 0 then
        fs.samplesAfter c.1 x.samples (fs.verdictOf cfg c.1 c.2)
      else x.samples

-- The samples are those of the flow, and there are none before it is there.
structure Sound (hk : HashKey) (x : Rating) : Prop where
  tracked : ∀ fs, x.tracker.flows.lookup hk = some fs → Estimates x.samples fs.ewmaIPG
  fresh   : x.tracker.flows.lookup hk = none → x.samples = []

theorem Sound.step {c : Instant × Arrival} (hx : x.Sound hk) : (x.step cfg hk c).Sound hk := by
  obtain ⟨i, a⟩ := c
  by_cases hz : a.seqNum = 0
  case pos =>
    have e : x.step cfg hk (i, a) = x := by
      simp only [Rating.step, hz, ne_eq, not_true, and_false, if_false,
        Tracker.observeFrom, if_true]
      split <;> rfl
    rwa [e]
  case neg =>
    have hl := Tracker.lookup_observeFrom cfg i x.tracker hk hz
    by_cases e : hk = a.hashKey
    case neg =>
      rw [if_neg e] at hl
      have es : (x.step cfg hk (i, a)).samples = x.samples := by
        simp only [Rating.step, Ne.symm e, false_and, if_false]
        split <;> rfl
      exact ⟨fun fs hf => es ▸ hx.tracked fs (hl ▸ hf), fun hn => es ▸ hx.fresh (hl ▸ hn)⟩
    case pos =>
      subst e
      rw [if_pos rfl] at hl
      simp only [Rating.step, true_and, if_pos hz]
      cases hf : x.tracker.flowFor cfg a
      case none =>
        rw [hf] at hl
        refine ⟨fun fs hfs => absurd (hl.symm.trans hfs) (by simp), fun _ => hx.fresh ?_⟩
        exact (Option.or_eq_none_iff.mp hf).1
      case some fs =>
        rw [hf] at hl
        refine ⟨fun f hfs => ?_, fun hn => absurd (hl.symm.trans hn) (by simp)⟩
        cases hl.symm.trans hfs
        refine FlowState.estimates_observe ?_
        rcases Tracker.flowFor_cases hf with hfs | ⟨hn, rfl⟩
        case inl => exact hx.tracked fs hfs
        case inr => rw [hx.fresh hn]; exact .unset

-- In every run of `ObserveFrom` calls the estimate of a flow is zero, or it lies between the
-- smallest and the largest of its samples. No difference or sum on the way leaves the range of an
-- `int64`.
theorem ewmaIPG_between_samples (cfg : Config) (hk : HashKey) (recorder : Option (List Metric))
    (calls : List (Instant × Arrival)) :
    let x := Run.exec (step cfg hk) { tracker := { recorder := recorder } } calls
    ∀ fs, x.tracker.flows.lookup hk = some fs →
      (∀ s ∈ x.samples, 0 < s) ∧
      (fs.ewmaIPG ≠ 0 → 0 < fs.ewmaIPG ∧ ∃ lo hi, x.samples.min? = some lo ∧
        x.samples.max? = some hi ∧ lo ≤ fs.ewmaIPG ∧ fs.ewmaIPG ≤ hi) ∧
      ∀ t u, FlowState.nextIPG64 fs.ewmaIPG (Time.sub t u) =
        FlowState.nextIPG fs.ewmaIPG (Time.sub t u) := by
  intro x fs hf
  have h₀ : Sound hk { tracker := { recorder := recorder } } := ⟨nofun, fun _ => rfl⟩
  have hx : x.Sound hk := Run.exec_of_step (Sound hk) (fun _ _ => Sound.step) h₀
  have he := hx.tracked fs hf
  refine ⟨fun s hs => (he.sampled s hs).1, fun hne => ⟨he.pos hne, he.min_max hne⟩, fun t u => ?_⟩
  exact he.nextIPG64_eq (max_le (by decide) (min_le_left _ _))

-- Three frames in a row: the samples are 10 and 20 ms, and the estimate goes an eighth of the way.
def threeFrames : List (Instant × Arrival) :=
  [(0, 1), (10, 2), (30, 3)].map fun (ms, seq) =>
    (⟨Time.ms ms, fun _ => 0⟩, ⟨0, 0xFFFE, .zero, 7, seq, some 1⟩)

theorem ewmaIPG_between_two :
    let x := Run.exec (step .default 7) { tracker := { recorder := none } } threeFrames
    ∃ fs, x.tracker.flows.lookup 7 = some fs ∧ x.samples = [Time.ms 10, Time.ms 20] ∧
      0 < fs.ewmaIPG ∧ ∃ lo hi, x.samples.min? = some lo ∧ x.samples.max? = some hi ∧
        lo ≤ fs.ewmaIPG ∧ fs.ewmaIPG ≤ hi := by
  have ⟨fs, hf, hne, hs⟩ : ∃ fs ∈ (Run.exec (step .default 7) { tracker := { recorder := none } }
      threeFrames).tracker.flows.lookup 7, fs.ewmaIPG ≠ 0 ∧
        (Run.exec (step .default 7) { tracker := { recorder := none } } threeFrames).samples =
          [Time.ms 10, Time.ms 20] := by
    decide +kernel
  exact ⟨fs, hf, hs, (ewmaIPG_between_samples .default 7 none threeFrames fs hf).2.1 hne⟩

end Rating
end Nack
