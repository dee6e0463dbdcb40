import ShardListener.Extensions.Shift
import ShardListener.Nack.Theorems.Retry

namespace Nack

-- The exponential backoff and its cap, over the integers.
def Config.delay (cfg : Config) (failRounds : Nat) : Duration :=
  min (cfg.backoffBase * 2 ^ (failRounds - 1)) cfg.backoffMax

-- The parameters of the backoff are positive, and their product fits into an `int64`.
structure Config.Representable (cfg : Config) : Prop where
  base    : 0 < cfg.backoffBase
  max     : 0 < cfg.backoffMax
  product : cfg.backoffBase * cfg.backoffMax < 2 ^ 63

namespace FlowState

variable {cfg : Config} {i : Instant} {fs : FlowState} {e g : GapEntry} {immediate : Bool} {n : Nat}

theorem backoff_eq_capped {failRounds : Nat} :
    backoff cfg failRounds = Shift.capped 64 cfg.backoffBase cfg.backoffMax (failRounds - 1) :=
  rfl

theorem backoff_eq_delay (hc : cfg.Representable) {failRounds : Nat} :
    backoff cfg failRounds = cfg.delay failRounds := by
  rw [backoff_eq_capped]
  exact Shift.capped_eq_min (by decide) hc.base hc.max hc.product

theorem delay_mono (hc : cfg.Representable) {r r' : Nat} (h : r ≤ r') :
    cfg.delay r ≤ cfg.delay r' := by
  rw [← backoff_eq_delay hc, ← backoff_eq_delay hc]
  exact Shift.capped_mono (by decide) hc.base hc.max hc.product (Nat.sub_le_sub_right h 1)

theorem delay_pos (hc : cfg.Representable) {r : Nat} : 0 < cfg.delay r := by
  have hbase := hc.base
  exact lt_min (by positivity) hc.max

-- What `rand.Int64N` draws for the round that the entry is to fail: up to half of the backoff.
def Drawn (cfg : Config) (i : Instant) (g : GapEntry) : Prop :=
  0 ≤ i.jitter g.seqNum ∧ i.jitter g.seqNum ≤ (backoff cfg (g.failRounds + 1)).tdiv 2

instance : Decidable (Drawn cfg i g) :=
  inferInstanceAs (Decidable (_ ∧ _))

-- The next attempt comes between half of the delay and all of it from now.
def Delayed (cfg : Config) (i : Instant) (g : GapEntry) : Prop :=
  i.now + cfg.delay g.failRounds / 2 ≤ g.nextAttempt ∧
    g.nextAttempt ≤ i.now + cfg.delay g.failRounds

theorem delayed_advanceEntry (hc : cfg.Representable) (hd : Drawn cfg i g)
    (hf : (advanceEntry cfg i immediate n g).failRounds ≠ 0) :
    Delayed cfg i (advanceEntry cfg i immediate n g) := by
  have ⟨hpos, hle⟩ := hd
  have hd := delay_pos hc (r := g.failRounds + 1)
  rw [backoff_eq_delay hc, Int.tdiv_eq_ediv_of_nonneg hd.le] at hle
  simp only [advanceEntry] at hf ⊢
  split
  case isTrue h => rw [if_pos h] at hf; exact absurd rfl hf
  case isFalse h =>
    simp only [Delayed, backoff_eq_delay hc, Int.tdiv_eq_ediv_of_nonneg hd.le]
    have hsum (now d j : Int) (h₀ : 0 ≤ j) (hj : j ≤ d / 2) :
        now + d / 2 ≤ now + (d / 2 + j) ∧ now + (d / 2 + j) ≤ now + d := by
      omega
    exact hsum i.now _ _ hpos hle

-- The delay that `advanceEndpoint` derives in 64-bit arithmetic is the capped exponential, it does
-- not decrease with the failed rounds, and the next attempt after a failed round keeps to it.
theorem backoff_exact (hc : cfg.Representable) :
    (∀ r, 1 ≤ r → backoff cfg r = cfg.delay r) ∧
      (∀ r r', 1 ≤ r → r ≤ r' → backoff cfg r ≤ backoff cfg r') ∧
        ∀ i (fs : FlowState) (e : GapEntry) immediate n, ∀ g ∈ fs.pending.lookup
          e.seqNum, Drawn cfg i g →
          ∃ g' ∈ (fs.advanceEndpoint cfg i e immediate n).flow.pending.lookup e.seqNum,
            g'.failRounds ≠ 0 → Delayed cfg i g' := by
  refine ⟨fun r _ => backoff_eq_delay hc, fun r r' _ h => ?_, fun i fs e immediate n g hg hd => ?_⟩
  case refine_1 =>
    rw [backoff_eq_delay hc, backoff_eq_delay hc]
    exact delay_mono hc h
  case refine_2 =>
    refine ⟨advanceEntry cfg i immediate n g, ?_, delayed_advanceEntry hc hd⟩
    rw [lookup_advanceEndpoint, if_pos rfl, Option.mem_def.mp hg]
    rfl

theorem backoff_exact_default :
    (∀ r, 1 ≤ r → backoff .default r = Config.delay .default r) ∧
      ∃ fs ∈ Tracker.gappedTracker.flows.lookup 7, ∃ e : GapEntry,
        ∃ g' ∈ (fs.advanceEndpoint .default ⟨0, fun _ => Time.ms 100⟩ e false 0).flow.pending.lookup
          e.seqNum, g'.failRounds ≠ 0 → Delayed .default ⟨0, fun _ => Time.ms 100⟩ g' := by
  have ⟨fs, hf, g, hg, hs, hd⟩ :
      ∃ fs ∈ Tracker.gappedTracker.flows.lookup 7, ∃ g ∈ fs.pending.lookup 2, g.seqNum = 2 ∧
      Drawn .default ⟨0, fun _ => Time.ms 100⟩ g := by
    decide +kernel
  have ⟨hexact, _, hdelay⟩ :=
    backoff_exact ⟨(by decide : 0 < Config.backoffBase .default), by decide, by decide⟩
  exact ⟨hexact, fs, hf, g, hdelay _ fs g false 0 g (hs.symm ▸ hg) hd⟩

end FlowState
end Nack
