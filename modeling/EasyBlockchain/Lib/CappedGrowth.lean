/-
Geometric growth up to a cap.

`min (a * b ^ k) cap` does not change when the exponent is cut at a power that has
reached the cap, which keeps the powers small. Over the reals such an exponent is read
off a quotient of logarithms.
-/
import Mathlib.Analysis.SpecialFunctions.Log.Basic

set_option autoImplicit false

namespace EasyBlockchain.Lib.CappedGrowth

section Field

variable {R : Type*} [Field R] [LinearOrder R] [IsStrictOrderedRing R] {a b cap : R}

/-- The `k`-th value of a growth by the factor `b` that starts at `a`. -/
def capped (a b cap : R) (k : ℕ) : R := min (a * b ^ k) cap

omit [IsStrictOrderedRing R] in
theorem capped_le (a b cap : R) (k : ℕ) : capped a b cap k ≤ cap := min_le_right _ _

theorem monotone_growth (ha : 0 ≤ a) (hb : 1 ≤ b) : Monotone fun k : ℕ => a * b ^ k := by
  intro k m hkm
  exact mul_le_mul_of_nonneg_left (pow_le_pow_right₀ hb hkm) ha

theorem monotone_capped (ha : 0 ≤ a) (hb : 1 ≤ b) (cap : R) : Monotone (capped a b cap) := by
  intro k m hkm
  exact min_le_min_right cap (monotone_growth ha hb hkm)

/-- Cutting the exponent where the cap is reached leaves the value. -/
theorem capped_min (ha : 0 ≤ a) (hb : 1 ≤ b) {m : ℕ} (hreach : cap ≤ a * b ^ m) (k : ℕ) :
    capped a b cap (min k m) = capped a b cap k := by
  rcases le_total k m with hkm | hmk
  · rw [min_eq_left hkm]
  · rw [min_eq_right hmk, capped, capped, min_eq_right hreach,
      min_eq_right (hreach.trans (monotone_growth ha hb hmk))]

end Field

/-- The quotient of the logarithms says which power reaches the cap. -/
theorem le_mul_pow_of_log_le {a b cap : ℝ} (ha : 0 < a) (hb : 1 < b) (hcap : 0 < cap) {m : ℕ}
    (h : Real.log (cap / a) / Real.log b ≤ m) : cap ≤ a * b ^ m := by
  have hlog : Real.log (cap / a) ≤ Real.log (b ^ m) := by
    rw [Real.log_pow]
    exact (div_le_iff₀ (Real.log_pos hb)).mp h
  have hpos : 0 < b ^ m := pow_pos (zero_lt_one.trans hb) m
  rw [Real.log_le_log_iff (div_pos hcap ha) hpos, div_le_iff₀ ha] at hlog
  rw [mul_comm]
  exact hlog

end EasyBlockchain.Lib.CappedGrowth
