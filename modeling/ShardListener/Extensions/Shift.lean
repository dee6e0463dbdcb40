import Mathlib.Tactic

-- Shifts of a signed machine word of `w` bits, which wrap around.
namespace Shift

variable {w k : Nat} {base cap : Int}

def shl (w : Nat) (base : Int) (k : Nat) : Int :=
  (base * 2 ^ k).bmod (2 ^ w)

-- An exponential that is capped, with the guard against an overflow: what has wrapped around to a
-- value that is not positive counts as too large.
def capped (w : Nat) (base cap : Int) (k : Nat) : Int :=
  if shl w base k > cap ∨ shl w base k ≤ 0 then cap else shl w base k

theorem shl_of_lt (h₀ : 0 ≤ base) (h : base * 2 ^ k < 2 ^ (w - 1)) (hw : 0 < w) :
    shl w base k = base * 2 ^ k := by
  have hpow : (2 : Int) ^ w = 2 * 2 ^ (w - 1) := by
    rw [← pow_succ', Nat.sub_add_cancel hw]
  have hpos : (0 : Int) ≤ base * 2 ^ k := by positivity
  refine Int.bmod_eq_of_le ?_ ?_
  case refine_1 => push_cast; omega
  case refine_2 => push_cast; omega

-- The bits that are shifted in are zero, whatever is shifted out.
theorem pow_dvd_shl (hk : k ≤ w) : (2 : Int) ^ k ∣ shl w base k := by
  have hm : ((2 ^ w : Nat) : Int) ∣ base * 2 ^ k - shl w base k := Int.dvd_self_sub_bmod
  have hw : (2 : Int) ^ k ∣ ((2 ^ w : Nat) : Int) := by
    push_cast
    exact pow_dvd_pow 2 hk
  have hb : (2 : Int) ^ k ∣ base * 2 ^ k := Dvd.intro_left base rfl
  exact (Int.dvd_iff_dvd_of_dvd_sub (hw.trans hm)).mp hb

theorem shl_of_le (hk : w ≤ k) : shl w base k = 0 := by
  have hd : ((2 ^ w : Nat) : Int) ∣ base * 2 ^ k := by
    push_cast
    exact Dvd.dvd.mul_left (pow_dvd_pow 2 hk) base
  exact Int.bmod_eq_zero_of_dvd hd

-- A shift that overflows does not land on a small positive value.
theorem shl_overflow (hb : 0 < base) (hp : base * cap < 2 ^ (w - 1))
    (h : 2 ^ (w - 1) ≤ base * 2 ^ k) : shl w base k > cap ∨ shl w base k ≤ 0 := by
  by_contra hn
  have ⟨hcap, hpos⟩ := not_or.mp hn
  have hk : k ≤ w := by
    by_contra hk
    exact hpos (shl_of_le (Nat.le_of_not_le hk)).le
  have hle : (2 : Int) ^ k ≤ shl w base k := Int.le_of_dvd (not_le.mp hpos) (pow_dvd_shl hk)
  have hlt : cap < 2 ^ k := lt_of_mul_lt_mul_left (hp.trans_le h) hb.le
  exact hcap (hlt.trans_le hle)

-- The guarded shift is the capped exponential over the integers.
theorem capped_eq_min (hw : 0 < w) (hb : 0 < base) (hc : 0 < cap) (hp : base * cap < 2 ^ (w - 1)) :
    capped w base cap k = min (base * 2 ^ k) cap := by
  simp only [capped]
  by_cases h : base * 2 ^ k < 2 ^ (w - 1)
  case pos =>
    have hpos : 0 < base * 2 ^ k := by positivity
    rw [shl_of_lt hb.le h hw]
    by_cases hcap : base * 2 ^ k > cap
    case pos => rw [if_pos (.inl hcap), min_eq_right hcap.le]
    case neg => rw [if_neg (not_or.mpr ⟨hcap, not_le.mpr hpos⟩), min_eq_left (not_lt.mp hcap)]
  case neg =>
    have h := not_lt.mp h
    have hcap : cap ≤ base * cap := le_mul_of_one_le_left hc.le hb
    rw [if_pos (shl_overflow hb hp h), min_eq_right ((hcap.trans_lt hp).le.trans h)]

theorem capped_mono {l : Nat} (hw : 0 < w) (hb : 0 < base) (hc : 0 < cap)
    (hp : base * cap < 2 ^ (w - 1)) (h : k ≤ l) : capped w base cap k ≤ capped w base cap l := by
  rw [capped_eq_min hw hb hc hp, capped_eq_min hw hb hc hp]
  have hpow : base * 2 ^ k ≤ base * 2 ^ l :=
    mul_le_mul_of_nonneg_left (pow_le_pow_right₀ one_le_two h) hb.le
  exact min_le_min_right cap hpow

end Shift
