/-
The numbers in `get_difficulty`: when an adjustment is defined, how far it moves,
and when its result is a difficulty some hash can meet.

A block is retargeted against the first block of the window before it, the block
`adjustment_interval` positions earlier. The bound of `max_adjustment_factor` is a
bound against that block, not against the parent. There is no bound at the length
of a hash.
-/
import EasyBlockchain.PowWork
import EasyBlockchain.Py.FloatRounding
import Mathlib.Algebra.Group.Action.Defs

set_option autoImplicit false

namespace EasyBlockchain

open Py Lib

/-! ## Times -/

theorem Py.DateTime.ordinal_le (t : DateTime) : t.ordinal ≤ 3660000 := by
  obtain ⟨⟨hyear, hyear'⟩, ⟨hmonth, hmonth'⟩, ⟨hday, hday'⟩, -⟩ := t.valid
  have hdays : ∀ month, daysInMonth t.year month ≤ 31 := by
    intro month
    unfold daysInMonth
    split_ifs <;> omega
  have hsum : ((List.range t.month).tail.map (daysInMonth t.year)).sum ≤ 31 * 12 := by
    have hle := List.sum_le_card_nsmul ((List.range t.month).tail.map (daysInMonth t.year)) 31
      (by
        intro x hx
        obtain ⟨month, -, rfl⟩ := List.mem_map.mp hx
        exact hdays month)
    simp only [List.length_map, List.length_tail, List.length_range, smul_eq_mul] at hle
    omega
  have hlast := hdays t.month
  unfold DateTime.ordinal
  dsimp only
  omega

/-- Two times are less than `2 ^ 39` seconds apart. -/
theorem Py.DateTime.seconds_sub_lt (t u : DateTime) : u.seconds - t.seconds < 2 ^ 39 := by
  have hu := u.ordinal_le
  obtain ⟨-, -, -, hhour, hminute, hsecond⟩ := u.valid
  unfold DateTime.seconds
  omega

namespace ProofOfWork

section Elapsed

variable {settings : PowSettings} {start final : Block} {t u : DateTime}

/-- Between two blocks with times, `_elapsed_seconds` measures at least one second. -/
theorem elapsed_seconds_of_times (ht : HasTime start t) (hu : HasTime final u) :
    elapsed_seconds settings start final = .ok (max 1 (u.seconds - t.seconds)) := by
  obtain ⟨text, htext, htime⟩ := ht
  obtain ⟨text', htext', htime'⟩ := hu
  rw [elapsed_seconds, PyVal.get_of_item htext, PyVal.get_of_item htext']
  simp [htime, htime']

end Elapsed

/-! ## One adjustment -/

/-- The float exists and is a number of at most `bound`. -/
def AtMost (x : PyM PyFloat) (bound : ℚ) : Prop :=
  ∃ f r, x = .ok f ∧ f.value = some r ∧ r ≤ bound

/-- The float exists and is a number below `bound`. -/
def Below (x : PyM PyFloat) (bound : ℚ) : Prop :=
  ∃ f r, x = .ok f ∧ f.value = some r ∧ r < bound

theorem toInt_of_value {f : PyFloat} {r : ℚ} (h : f.value = some r) :
    f.toInt = .ok (if 0 ≤ r then ⌊r⌋ else ⌈r⌉) := by
  cases f with
  | nan => cases h
  | inf s => cases h
  | negZero =>
      obtain rfl := Option.some.inj h
      rfl
  | fin q =>
      obtain rfl := Option.some.inj h
      rfl

theorem ceil_of_value {f : PyFloat} {r : ℚ} (h : f.value = some r) : f.ceil = .ok ⌈r⌉ := by
  cases f with
  | nan => cases h
  | inf s => cases h
  | negZero =>
      obtain rfl := Option.some.inj h
      rfl
  | fin q =>
      obtain rfl := Option.some.inj h
      rfl

theorem value_of_toInt {f : PyFloat} {n : ℤ} (h : f.toInt = .ok n) : ∃ r, f.value = some r := by
  cases f with
  | nan => cases h
  | inf s => cases h
  | negZero => exact ⟨_, rfl⟩
  | fin q => exact ⟨_, rfl⟩

theorem value_of_ceil {f : PyFloat} {n : ℤ} (h : f.ceil = .ok n) : ∃ r, f.value = some r := by
  cases f with
  | nan => cases h
  | inf s => cases h
  | negZero => exact ⟨_, rfl⟩
  | fin q => exact ⟨_, rfl⟩

/-- A float that is not above an integer is not above it when truncated. -/
theorem trunc_le {r : ℚ} {n : ℤ} (hn : 0 ≤ n) (h : r < n + 1) :
    (if 0 ≤ r then ⌊r⌋ else ⌈r⌉) ≤ n := by
  split_ifs with hr
  · have : ⌊r⌋ < n + 1 := Int.floor_lt.mpr (by push_cast; exact h)
    omega
  · exact le_trans (Int.ceil_le.mpr (by push_cast; linarith)) hn

theorem lt_of_trunc_le {r : ℚ} {n : ℤ} (hn : 0 ≤ n) (h : (if 0 ≤ r then ⌊r⌋ else ⌈r⌉) ≤ n) :
    r < n + 1 := by
  split_ifs at h with hr
  · have := Int.lt_floor_add_one r
    have hcast : (⌊r⌋ : ℚ) ≤ n := by exact_mod_cast h
    linarith
  · have hcast : (0 : ℚ) ≤ n := by exact_mod_cast hn
    linarith

/-- Floats with a value are compared by it. -/
theorem lt_iff_of_value {f g : PyFloat} {r s : ℚ} (hf : f.value = some r) (hg : g.value = some s) :
    f.lt g = true ↔ r < s := by
  cases f <;> cases g <;> cases hf <;> cases hg
  · exact decide_eq_true_iff (p := (0 : ℚ) < 0)
  · exact decide_eq_true_iff (p := (0 : ℚ) < s)
  · exact decide_eq_true_iff (p := r < (0 : ℚ))
  · exact decide_eq_true_iff (p := r < s)

/-- Difficulties, factors and their products are far inside the normal range. -/
theorem small_le : (64 : ℚ) ≤ 2 ^ 1000 ∧ (2 : ℚ) * (64 * 64) ≤ 2 ^ 1000 := by
  constructor
  · calc (64 : ℚ) = 2 ^ 6 := by norm_num
      _ ≤ 2 ^ 1000 := pow_le_pow_right₀ (by norm_num) (by norm_num)
  · calc (2 : ℚ) * (64 * 64) = 2 ^ 13 := by norm_num
      _ ≤ 2 ^ 1000 := pow_le_pow_right₀ (by norm_num) (by norm_num)

section Adjustment

variable [Runtime] {ε : ℚ}

/-- The float of a quotient by a number. -/
theorem div_of_value {d : ℤ} (hd : 1 ≤ d) {f : PyFloat} {r : ℚ} (hf : f.value = some r)
    (hr : 0 < r) : (PyFloat.fin d).div f = .ok (Runtime.round ((d : ℚ) / r)) := by
  have hne : (d : ℚ) ≠ 0 := by
    have : (0 : ℚ) < d := by exact_mod_cast hd
    exact this.ne'
  cases f with
  | nan => cases hf
  | inf s => cases hf
  | negZero =>
      obtain rfl := Option.some.inj hf
      exact absurd hr (lt_irrefl 0)
  | fin q =>
      obtain rfl := Option.some.inj hf
      simp [PyFloat.div, PyFloat.value, hr.ne', hne]

omit [Runtime] in
/-- Where `min` and `max` choose between two floats. -/
theorem min_eq_or (x y : PyFloat) :
    (y.lt x = true ∧ x.min y = y) ∨ (y.lt x = false ∧ x.min y = x) := by
  unfold PyFloat.min
  cases y.lt x <;> simp

omit [Runtime] in
theorem max_eq_or (x y : PyFloat) :
    (x.lt y = true ∧ x.max y = y) ∨ (x.lt y = false ∧ x.max y = x) := by
  unfold PyFloat.max
  cases x.lt y <;> simp

variable (hround : RoundsWithin ε) {settings : PowSettings} {d a e : ℤ}
include hround

/-- Small integers are floats. -/
theorem ofInt_eq {n : ℤ} (hn : |n| ≤ 2 ^ 53) : PyFloat.ofInt n = .ok (.fin n) := by
  rw [PyFloat.ofInt, hround.intCast hn]

/-- The ratio of two times is a number on the same side of one as the quotient. -/
theorem ratio_spec (ha : 1 ≤ a) (ha' : a < 2 ^ 39) (he : 1 ≤ e) :
    ∃ r, PyFloat.divInt a e = .ok (Runtime.round ((a : ℚ) / e)) ∧
      (Runtime.round ((a : ℚ) / e)).value = some r ∧ 0 ≤ r ∧
      (a = e → r = 1) ∧ (e < a → 1 < r) ∧ (a < e → r < 1) := by
  have heq : (0 : ℚ) < e := by exact_mod_cast he
  have haq : (0 : ℚ) < a := by exact_mod_cast ha
  have hzero : Runtime.round (0 : ℚ) = .fin 0 := by simpa using hround.intCast (n := 0) (by simp)
  have htop := hround.intCast (n := a) (by rw [abs_of_pos (by omega)]; omega)
  have hle : (a : ℚ) / e ≤ a := div_le_self haq.le (by exact_mod_cast he)
  obtain ⟨r, hr, hr0, -⟩ := hround.between hzero htop (div_nonneg haq.le heq.le) hle
  refine ⟨r, ?_, hr, hr0, ?_, ?_, ?_⟩
  · rw [PyFloat.divInt, if_neg (by omega)]
    cases hx : Runtime.round ((a : ℚ) / e) with
    | nan => rfl
    | inf s => rw [hx] at hr; cases hr
    | negZero => rfl
    | fin q => rfl
  · rintro rfl
    have hone := hround.intCast (n := 1) (by norm_num)
    push_cast at hone
    rw [div_self haq.ne', hone] at hr
    exact (Option.some.inj hr).symm
  · -- the next float above one that matters is `1 + 2 ^ -39`
    intro hlt
    have hnext := hround.exact (2 ^ 39 + 1) 39 (by norm_num) (by norm_num)
    have habove : (((2 ^ 39 + 1 : ℤ) : ℚ)) / 2 ^ 39 ≤ (a : ℚ) / e := by
      rw [div_le_div_iff₀ (by positivity) heq]
      have hstep : (e : ℚ) + 1 ≤ a := by exact_mod_cast hlt
      have hbig : (e : ℚ) ≤ 2 ^ 39 := by exact_mod_cast (by omega : e ≤ 2 ^ 39)
      push_cast
      nlinarith
    obtain ⟨r', hr', hlo, -⟩ := hround.between hnext htop habove hle
    rw [hr] at hr'
    obtain rfl := Option.some.inj hr'
    refine lt_of_lt_of_le ?_ hlo
    norm_num
  · intro hlt
    have hnext := hround.exact (2 ^ 40 - 1) 40 (by norm_num) (by norm_num)
    have hbelow : (a : ℚ) / e ≤ (((2 ^ 40 - 1 : ℤ) : ℚ)) / 2 ^ 40 := by
      rw [div_le_div_iff₀ heq (by positivity)]
      have hstep : (a : ℚ) + 1 ≤ e := by exact_mod_cast hlt
      have hbig : (a : ℚ) ≤ 2 ^ 39 := by exact_mod_cast ha'.le
      push_cast
      nlinarith
    obtain ⟨r', hr', -, hhi⟩ := hround.between hzero hnext (div_nonneg haq.le heq.le) hbelow
    rw [hr] at hr'
    obtain rfl := Option.some.inj hr'
    refine lt_of_le_of_lt hhi ?_
    norm_num

/-! ### On time, late, early -/

theorem adjusted_on_time (ha : 1 ≤ a) (ha' : a < 2 ^ 39) :
    adjusted_difficulty settings d a a = .ok d := by
  obtain ⟨r, hdiv, hr, -, hone, -, -⟩ := ratio_spec hround ha ha' ha
  obtain rfl := hone rfl
  have hnot : ¬ (PyFloat.fin 1).lt (Runtime.round ((a : ℚ) / a)) = true := by
    rw [lt_iff_of_value rfl hr]
    exact lt_irrefl 1
  have hnot' : ¬ (Runtime.round ((a : ℚ) / a)).lt (PyFloat.fin 1) = true := by
    rw [lt_iff_of_value hr rfl]
    exact lt_irrefl 1
  rw [adjusted_difficulty, hdiv, ok_bind, if_neg hnot, if_neg hnot']
  rfl

/-- A window that took too long: the two quotients, and the larger of their integers. -/
theorem adjusted_late (hd : |d| ≤ 2 ^ 53) (he : 1 ≤ e) (hlate : e < a) (ha' : a < 2 ^ 39) :
    adjusted_difficulty settings d a e = (do
      let quotient ← (PyFloat.fin d).div
        ((Runtime.round ((a : ℚ) / e)).min settings.max_adjustment_factor)
      let truncated ← quotient.toInt
      let bound ← (PyFloat.fin d).div settings.max_adjustment_factor
      let lower_bound ← bound.ceil
      return max (max 1 truncated) lower_bound) := by
  obtain ⟨r, hdiv, hr, -, -, hlt, -⟩ := ratio_spec hround (by omega) ha' he
  rw [adjusted_difficulty, hdiv, ok_bind, if_pos ((lt_iff_of_value rfl hr).mpr (hlt hlate))]
  simp only [ofInt_eq hround hd, ok_bind]

/-- A window that was too short. -/
theorem adjusted_early (hd : |d| ≤ 2 ^ 53) (ha : 1 ≤ a) (ha' : a < 2 ^ 39) (hearly : a < e) :
    adjusted_difficulty settings d a e = (do
      let inverse ← (PyFloat.fin 1).div settings.max_adjustment_factor
      let quotient ← (PyFloat.fin d).div ((Runtime.round ((a : ℚ) / e)).max inverse)
      let truncated ← quotient.toInt
      return max 1 truncated) := by
  obtain ⟨r, hdiv, hr, -, -, -, hlt⟩ := ratio_spec (e := e) hround ha ha' (by omega)
  have hnot : ¬ (PyFloat.fin 1).lt (Runtime.round ((a : ℚ) / e)) = true := by
    rw [lt_iff_of_value rfl hr]
    exact not_lt.mpr (hlt hearly).le
  rw [adjusted_difficulty, hdiv, ok_bind, if_neg hnot, if_pos ((lt_iff_of_value hr rfl).mpr (hlt hearly))]
  simp only [ofInt_eq hround hd, ok_bind]

/-- The quotient by a ratio above one stays within the dividend. -/
theorem div_ratio_spec (hd : 1 ≤ d) (hd' : d ≤ 2 ^ 53) {f : PyFloat} {r : ℚ}
    (hf : f.value = some r) (hr : 1 ≤ r) :
    ∃ x q, (PyFloat.fin d).div f = .ok x ∧ x.value = some q ∧ 0 ≤ q ∧ q ≤ d := by
  have hdq : (0 : ℚ) < d := by exact_mod_cast hd
  have hzero : Runtime.round (0 : ℚ) = .fin 0 := by simpa using hround.intCast (n := 0) (by simp)
  have htop := hround.intCast (n := d) (by rwa [abs_of_pos (by omega)])
  have hrpos : 0 < r := lt_of_lt_of_le one_pos hr
  obtain ⟨q, hq, hlo, hhi⟩ := hround.between hzero htop (div_nonneg hdq.le hrpos.le)
    (div_le_self hdq.le hr)
  exact ⟨_, q, div_of_value hd hf hrpos, hq, hlo, hhi⟩

/-! ### When the result is a difficulty some hash can meet -/

theorem late_minable_iff (hd : 1 ≤ d) (hd' : d ≤ 64) (he : 1 ≤ e) (hlate : e < a)
    (ha' : a < 2 ^ 39) :
    (∃ n, adjusted_difficulty settings d a e = .ok n ∧ 1 ≤ n ∧ n ≤ 64) ↔
      AtMost ((PyFloat.fin d).div settings.max_adjustment_factor) 64 := by
  have hsmall : |d| ≤ 2 ^ 53 := by rw [abs_of_pos (by omega)]; omega
  rw [adjusted_late hround hsmall he hlate ha']
  constructor
  · rintro ⟨n, hn, -, hn64⟩
    simp only [bind_eq_ok, pure_eq, Except.ok.injEq] at hn
    obtain ⟨_, -, _, -, bound, hbound, lower, hlower, rfl⟩ := hn
    obtain ⟨r, hr⟩ := value_of_ceil hlower
    rw [ceil_of_value hr] at hlower
    obtain rfl := Except.ok.inj hlower
    have hceil : ⌈r⌉ ≤ 64 := le_trans (le_max_right _ _) hn64
    exact ⟨bound, r, hbound, hr, by exact_mod_cast Int.ceil_le.mp hceil⟩
  · rintro ⟨bound, r, hbound, hr, hr64⟩
    have hceil : ⌈r⌉ ≤ 64 := Int.ceil_le.mpr (by exact_mod_cast hr64)
    -- whichever divisor `min` selects, its quotient is at most 64
    obtain ⟨quotient, q, hquotient, hq, hq64⟩ : ∃ x q, (PyFloat.fin d).div
        ((Runtime.round ((a : ℚ) / e)).min settings.max_adjustment_factor) = .ok x ∧
        x.value = some q ∧ q ≤ 64 := by
      obtain ⟨ratio, -, hratio, -, -, hlt, -⟩ := ratio_spec hround (by omega) ha' he
      rcases min_eq_or (Runtime.round ((a : ℚ) / e)) settings.max_adjustment_factor with
        ⟨-, hmin⟩ | ⟨-, hmin⟩
      · exact ⟨bound, r, by rw [hmin, hbound], hr, hr64⟩
      · obtain ⟨x, q, hx, hq, -, hqd⟩ := div_ratio_spec hround hd (by omega) hratio (hlt hlate).le
        have hd64 : (d : ℚ) ≤ 64 := by exact_mod_cast hd'
        exact ⟨x, q, by rw [hmin, hx], hq, le_trans hqd hd64⟩
    refine ⟨_, by rw [hquotient, ok_bind, toInt_of_value hq, ok_bind, hbound, ok_bind,
      ceil_of_value hr, ok_bind, pure_eq], ?_, ?_⟩
    · exact le_trans (le_max_left _ _) (le_max_left _ _)
    · have htrunc : (if 0 ≤ q then ⌊q⌋ else ⌈q⌉) ≤ 64 :=
        trunc_le (by norm_num) (by push_cast; linarith)
      exact max_le (max_le (by norm_num) htrunc) hceil

theorem early_minable_iff (hd : 1 ≤ d) (hd' : d ≤ 64) (ha : 1 ≤ a) (ha' : a < 2 ^ 39)
    (hearly : a < e) :
    (∃ n, adjusted_difficulty settings d a e = .ok n ∧ 1 ≤ n ∧ n ≤ 64) ↔
      ∃ inverse, (PyFloat.fin 1).div settings.max_adjustment_factor = .ok inverse ∧
        Below ((PyFloat.fin d).div ((Runtime.round ((a : ℚ) / e)).max inverse)) 65 := by
  have hsmall : |d| ≤ 2 ^ 53 := by rw [abs_of_pos (by omega)]; omega
  rw [adjusted_early hround hsmall ha ha' hearly]
  constructor
  · rintro ⟨n, hn, -, hn64⟩
    simp only [bind_eq_ok, pure_eq, Except.ok.injEq] at hn
    obtain ⟨inverse, hinverse, quotient, hquotient, truncated, htruncated, rfl⟩ := hn
    obtain ⟨q, hq⟩ := value_of_toInt htruncated
    rw [toInt_of_value hq] at htruncated
    obtain rfl := Except.ok.inj htruncated
    have hlt := lt_of_trunc_le (r := q) (n := 64) (by norm_num) (le_trans (le_max_right _ _) hn64)
    exact ⟨inverse, hinverse, quotient, q, hquotient, hq, by push_cast at hlt; linarith⟩
  · rintro ⟨inverse, hinverse, quotient, q, hquotient, hq, hq65⟩
    refine ⟨_, by rw [hinverse, ok_bind, hquotient, ok_bind, toInt_of_value hq, ok_bind, pure_eq],
      le_max_left _ _, ?_⟩
    exact max_le (by norm_num) (trunc_le (by norm_num) (by push_cast; linarith))

/-! ### How far an adjustment moves -/

variable {F : ℚ} (hF : settings.max_adjustment_factor = .fin F) (hF1 : 1 ≤ F)
include hF hF1

/-- Rounded division by the factor. -/
theorem div_factor_spec (hd : 1 ≤ d) (hd' : d ≤ 64) (hF64 : F ≤ 64) :
    ∃ x q, (PyFloat.fin d).div settings.max_adjustment_factor = .ok x ∧ x.value = some q ∧
      |q - d / F| ≤ ε * (d / F) ∧ q ≤ d := by
  have hdq : (1 : ℚ) ≤ d := by exact_mod_cast hd
  have hd64 : (d : ℚ) ≤ 64 := by exact_mod_cast hd'
  have hFpos : 0 < F := lt_of_lt_of_le one_pos hF1
  obtain ⟨x, q, hx, hq, -, hqd⟩ := div_ratio_spec (f := .fin F) hround hd (by omega) rfl hF1
  have hxround := div_of_value (f := .fin F) hd rfl hFpos
  rw [hx] at hxround
  obtain rfl := Except.ok.inj hxround
  have hpow := small_le.1
  have hlo : (1 : ℚ) / 2 ^ 1000 ≤ d / F := by
    calc (1 : ℚ) / 2 ^ 1000 ≤ 1 / 64 := one_div_le_one_div_of_le (by norm_num) hpow
      _ ≤ d / F := by
          rw [div_le_div_iff₀ (by norm_num) hFpos]
          linarith
  have hhi : d / F ≤ (2 : ℚ) ^ 1000 := by
    calc d / F ≤ d := div_le_self (by linarith) hF1
      _ ≤ 64 := hd64
      _ ≤ 2 ^ 1000 := hpow
  obtain ⟨r, hr, herr⟩ := hround.relative _ hlo hhi
  rw [hq] at hr
  obtain rfl := Option.some.inj hr
  exact ⟨_, q, by rw [hF]; exact hx, hq, herr, hqd⟩

/-- After a late window the difficulty does not rise, and falls by at most the
factor. -/
theorem adjusted_late_bounds (hd : 1 ≤ d) (hd' : d ≤ 64) (hF64 : F ≤ 64) (he : 1 ≤ e)
    (hlate : e < a) (ha' : a < 2 ^ 39) {n : ℤ} (hn : adjusted_difficulty settings d a e = .ok n) :
    n ≤ d ∧ (1 - ε) * d ≤ F * n := by
  have hsmall : |d| ≤ 2 ^ 53 := by rw [abs_of_pos (by omega)]; omega
  have hdq : (1 : ℚ) ≤ d := by exact_mod_cast hd
  have hFpos : 0 < F := lt_of_lt_of_le one_pos hF1
  obtain ⟨ratio, -, hratio, -, -, hlt, -⟩ := ratio_spec hround (by omega) ha' he
  obtain ⟨bound, q, hbound, hq, herr, hqd⟩ := div_factor_spec hround hF hF1 hd hd' hF64
  obtain ⟨quotient, p, hquotient, hp, hpd⟩ : ∃ x p, (PyFloat.fin d).div
      ((Runtime.round ((a : ℚ) / e)).min settings.max_adjustment_factor) = .ok x ∧
      x.value = some p ∧ p ≤ d := by
    rcases min_eq_or (Runtime.round ((a : ℚ) / e)) settings.max_adjustment_factor with
      ⟨-, hmin⟩ | ⟨-, hmin⟩
    · exact ⟨bound, q, by rw [hmin, hbound], hq, hqd⟩
    · obtain ⟨x, p, hx, hp, -, hpd⟩ := div_ratio_spec hround hd (by omega) hratio (hlt hlate).le
      exact ⟨x, p, by rw [hmin, hx], hp, hpd⟩
  rw [adjusted_late hround hsmall he hlate ha', hquotient, ok_bind, toInt_of_value hp, ok_bind,
    hbound, ok_bind, ceil_of_value hq, ok_bind, pure_eq] at hn
  obtain rfl := Except.ok.inj hn
  constructor
  · have htrunc : (if 0 ≤ p then ⌊p⌋ else ⌈p⌉) ≤ d := trunc_le (by omega) (by linarith)
    exact max_le (max_le hd htrunc) (Int.ceil_le.mpr hqd)
  · -- the lower bound is the rounded quotient by the factor
    have hceil : q ≤ ((max (max 1 (if 0 ≤ p then ⌊p⌋ else ⌈p⌉)) ⌈q⌉ : ℤ) : ℚ) :=
      le_trans (Int.le_ceil q) (by exact_mod_cast le_max_right _ _)
    have hlower := (abs_le.mp herr).1
    calc (1 - ε) * d = F * ((1 - ε) * (d / F)) := by field_simp
      _ ≤ F * q := mul_le_mul_of_nonneg_left (by linarith) hFpos.le
      _ ≤ _ := mul_le_mul_of_nonneg_left hceil hFpos.le

/-- After an early window the difficulty does not fall, and rises by at most the
factor. -/
theorem adjusted_early_bounds (hd : 1 ≤ d) (hd' : d ≤ 64) (hF64 : F ≤ 64) (ha : 1 ≤ a)
    (ha' : a < 2 ^ 39) (hearly : a < e) {n : ℤ}
    (hn : adjusted_difficulty settings d a e = .ok n) :
    d ≤ n ∧ (1 - ε) * n ≤ (1 + ε) * (F * d) := by
  have hsmall : |d| ≤ 2 ^ 53 := by rw [abs_of_pos (by omega)]; omega
  have hdq : (1 : ℚ) ≤ d := by exact_mod_cast hd
  have hd64 : (d : ℚ) ≤ 64 := by exact_mod_cast hd'
  have hFpos : 0 < F := lt_of_lt_of_le one_pos hF1
  have hε := hround.nonneg
  have hε' := hround.le_half
  obtain ⟨ratio, -, hratio, -, -, -, hlt⟩ := ratio_spec (e := e) hround ha ha' (by omega)
  obtain ⟨inverse, i, hinverse, hi, herr, hi1⟩ :=
    div_factor_spec (d := 1) hround hF hF1 le_rfl (by norm_num) hF64
  push_cast at hinverse herr hi1
  -- the divisor lies between the inverse of the factor and one
  obtain ⟨v, hv, hiv, hv1⟩ : ∃ v, ((Runtime.round ((a : ℚ) / e)).max inverse).value = some v ∧
      i ≤ v ∧ v ≤ 1 := by
    rcases max_eq_or (Runtime.round ((a : ℚ) / e)) inverse with ⟨-, hmax⟩ | ⟨hle, hmax⟩
    · exact ⟨i, by rw [hmax, hi], le_rfl, hi1⟩
    · refine ⟨ratio, by rw [hmax, hratio], ?_, (hlt hearly).le⟩
      by_contra hlt'
      rw [(lt_iff_of_value hratio hi).mpr (not_le.mp hlt')] at hle
      cases hle
  have hlow : (1 - ε) / F ≤ v := by
    have herr' := (abs_le.mp herr).1
    calc (1 - ε) / F = 1 / F - ε * (1 / F) := by ring
      _ ≤ i := by linarith
      _ ≤ v := hiv
  have hvpos : 0 < v := lt_of_lt_of_le (div_pos (by linarith) hFpos) hlow
  have hquotient := div_of_value hd hv hvpos
  have hdv : (d : ℚ) ≤ d / v := le_div_self (by linarith) hvpos hv1
  have hvd : (1 - ε) * (d / v) ≤ F * d := by
    rw [mul_div_assoc', div_le_iff₀ hvpos]
    rw [div_le_iff₀ hFpos] at hlow
    nlinarith
  -- the quotient is at least the dividend, and close to the exact one
  have hbig : d / v ≤ (2 : ℚ) ^ 1000 := by
    have hle : d / v ≤ 2 * (F * d) := by nlinarith
    have hFd : F * d ≤ 64 * 64 := mul_le_mul hF64 hd64 (by linarith) (by norm_num)
    calc d / v ≤ 2 * (F * d) := hle
      _ ≤ 2 * (64 * 64) := mul_le_mul_of_nonneg_left hFd (by norm_num)
      _ ≤ 2 ^ 1000 := small_le.2
  have hsmall' : (1 : ℚ) / 2 ^ 1000 ≤ d / v := by
    calc (1 : ℚ) / 2 ^ 1000 ≤ 1 := (div_le_one (by positivity)).mpr
          (le_trans (by norm_num) small_le.1)
      _ ≤ d / v := le_trans hdq hdv
  obtain ⟨q, hq, hqerr⟩ := hround.relative _ hsmall' hbig
  have hdround := hround.intCast (n := d) hsmall
  have hqd : (d : ℚ) ≤ q := by
    have hle := hround.monotone _ _ hdv
    rw [hdround, PyFloat.fin_le_iff] at hle
    rcases hle with htop | ⟨q', hq', hle⟩
    · rw [htop] at hq
      cases hq
    · rw [hq] at hq'
      obtain rfl := Option.some.inj hq'
      exact hle
  rw [adjusted_early hround hsmall ha ha' hearly, hinverse, ok_bind, hquotient, ok_bind,
    toInt_of_value hq, ok_bind, pure_eq, if_pos (by linarith)] at hn
  obtain rfl := Except.ok.inj hn
  have hfloor : d ≤ ⌊q⌋ := Int.le_floor.mpr hqd
  rw [max_eq_right (le_trans hd hfloor)]
  refine ⟨hfloor, ?_⟩
  have hqup := (abs_le.mp hqerr).2
  calc (1 - ε) * (⌊q⌋ : ℚ) ≤ (1 - ε) * q :=
        mul_le_mul_of_nonneg_left (Int.floor_le q) (by linarith)
    _ ≤ (1 - ε) * ((1 + ε) * (d / v)) := mul_le_mul_of_nonneg_left (by linarith) (by linarith)
    _ = (1 + ε) * ((1 - ε) * (d / v)) := by ring
    _ ≤ (1 + ε) * (F * d) := mul_le_mul_of_nonneg_left hvd (by linarith)

end Adjustment

/-! ## The window of a chain -/

section Window

variable [Runtime] {settings : PowSettings} {chain : List Block} {d a : ℤ}

/-- The window at the end of the chain starts with a block of difficulty
`first_difficulty` and spans `actual_time` seconds. -/
structure WindowIs (settings : PowSettings) (chain : List Block)
    (first_difficulty actual_time : ℤ) : Prop where
  first : ∃ block, (sliceFrom chain (-settings.adjustment_interval)).head? = some block ∧
    DifficultyIs block first_difficulty
  span : window_span settings chain = .ok actual_time

/-- `expected_time`. -/
def expected_time (settings : PowSettings) : ℤ :=
  settings.target_block_time_seconds * (settings.adjustment_interval - 1)

omit [Runtime] in
theorem WindowIs.unique {d' a' : ℤ} (h : WindowIs settings chain d a)
    (h' : WindowIs settings chain d' a') : d = d' ∧ a = a' := by
  obtain ⟨⟨block, hblock, v, hv, hd⟩, hspan⟩ := h
  obtain ⟨⟨block', hblock', v', hv', hd'⟩, hspan'⟩ := h'
  rw [hblock] at hblock'
  obtain rfl := Option.some.inj hblock'
  obtain rfl := hv.unique hv'
  rw [hd] at hd'
  rw [hspan] at hspan'
  exact ⟨Except.ok.inj hd', Except.ok.inj hspan'⟩

/-- Before the first window is complete, the difficulty is the parent's. -/
theorem get_difficulty_short {last : Block} (hlast : chain.getLast? = some last)
    (hshort : (chain.length : ℤ) < settings.adjustment_interval) (hd : DifficultyIs last d) :
    get_difficulty settings chain = .ok d := by
  rw [get_difficulty, hlast]
  dsimp only
  rw [if_pos hshort]
  exact header_difficulty_of hd

/-- With a complete window the difficulty is that of its first block, adjusted. -/
theorem get_difficulty_window (hne : chain ≠ [])
    (hfull : settings.adjustment_interval ≤ chain.length) (hwindow : WindowIs settings chain d a)
    (ha : 1 ≤ a) : get_difficulty settings chain =
      if expected_time settings ≤ 0 then .ok d
      else adjusted_difficulty settings d a (expected_time settings) := by
  obtain ⟨⟨first, hfirst, hd⟩, hspan⟩ := hwindow
  rw [window_span, hfirst] at hspan
  simp only [orRaise_some, ok_bind, bind_eq_ok] at hspan
  obtain ⟨final, hfinal, hspan⟩ := hspan
  unfold get_difficulty
  rw [List.getLast?_eq_some_getLast hne]
  dsimp only
  rw [if_neg (not_lt.mpr hfull), hfirst]
  simp only [orRaise_some, ok_bind]
  rw [← bind_assoc, header_difficulty_of hd, ok_bind, hfinal, ok_bind, hspan, ok_bind]
  have hor : (settings.target_block_time_seconds * (settings.adjustment_interval - 1) ≤ 0 ∨ a ≤ 0)
      ↔ expected_time settings ≤ 0 := by
    rw [expected_time]
    omega
  simp only [hor]
  rfl

/-- A negative interval can leave no block in the window. -/
theorem get_difficulty_no_window (hne : chain ≠ [])
    (hfull : settings.adjustment_interval ≤ chain.length)
    (hempty : sliceFrom chain (-settings.adjustment_interval) = []) :
    get_difficulty settings chain = .error .indexError := by
  unfold get_difficulty
  rw [List.getLast?_eq_some_getLast hne]
  dsimp only
  rw [if_neg (not_lt.mpr hfull), hempty]
  rfl

omit [Runtime] in
/-- With a positive interval the window begins `adjustment_interval` blocks before
the end. -/
theorem sliceFrom_neg {α : Type} {xs : List α} {n : ℕ} (hpos : 0 < n) :
    sliceFrom xs (-(n : ℤ)) = xs.drop (xs.length - n) := by
  unfold sliceFrom
  congr 1
  split_ifs <;> omega

end Window

/-! ## Chains that verify -/

section Chains

variable [Runtime] {pow : ProofOfWork} {g : Str} {C : List Block}

omit [Runtime] in
theorem leading_zeros_le (hash : Str) : leading_zeros hash ≤ hash.length := by
  unfold leading_zeros
  exact (List.takeWhile_sublist _).length_le

/-- An accepted block declares a difficulty that its hash meets, and a time. -/
theorem difficulty_and_time_of_step {seen : List Block} {block : Block}
    (h : PowStep pow g seen block) :
    ∃ d t, DifficultyIs block d ∧ HasTime block t ∧ get_difficulty pow.settings seen = .ok d ∧
      1 ≤ d ∧ d ≤ 64 := by
  obtain ⟨f, hof, hvalid⟩ := accepts_validate_block.mp h.2
  obtain ⟨hpos, hle⟩ := meets_difficulty_iff.mp hvalid.work
  obtain ⟨body_hash, -, hhash⟩ := hvalid.hash
  have hlen : f.tran_hash.length = 64 := by
    simp only [calc_pow_tran_hash, bind_eq_ok] at hhash
    obtain ⟨_, -, _, -, hhash⟩ := hhash
    exact sha256_hex_length hhash
  have hzeros := leading_zeros_le f.tran_hash
  exact ⟨f.difficulty, f.time, hof.difficulty, hof.time, hvalid.difficulty, by omega, by omega⟩

theorem difficulty_and_time_of_mem (hC : Grows (PowStep pow g) C) {block : Block}
    (hblock : block ∈ C) : ∃ d t, DifficultyIs block d ∧ HasTime block t ∧ 1 ≤ d ∧ d ≤ 64 := by
  obtain ⟨i, hi, rfl⟩ := List.getElem_of_mem hblock
  obtain ⟨d, t, hd, ht, -, hrange⟩ := difficulty_and_time_of_step (hC.getElem hi)
  exact ⟨d, t, hd, ht, hrange⟩

/-- The window of a valid chain, where it has one. -/
theorem window_of_valid (hC : Grows (PowStep pow g) C)
    (hslice : sliceFrom C (-pow.settings.adjustment_interval) ≠ []) :
    ∃ d a, WindowIs pow.settings C d a ∧ (1 ≤ d ∧ d ≤ 64) ∧ 1 ≤ a ∧ a < 2 ^ 39 := by
  have hmem : ∀ block ∈ sliceFrom C (-pow.settings.adjustment_interval), block ∈ C :=
    fun block hblock => List.mem_of_mem_drop hblock
  obtain ⟨d, t, hd, ht, hrange⟩ := difficulty_and_time_of_mem hC (hmem _ (List.head_mem hslice))
  obtain ⟨-, u, -, hu, -⟩ := difficulty_and_time_of_mem hC (hmem _ (List.getLast_mem hslice))
  have hfirst := List.head?_eq_some_head hslice
  have hfinal := List.getLast?_eq_some_getLast hslice
  refine ⟨d, max 1 (u.seconds - t.seconds), ⟨⟨_, hfirst, hd⟩, ?_⟩, hrange, le_max_left _ _, ?_⟩
  · rw [window_span, hfirst, hfinal]
    simp only [orRaise_some, ok_bind]
    exact elapsed_seconds_of_times ht hu
  · exact max_lt (by norm_num) (DateTime.seconds_sub_lt t u)

/-! ### The required difficulty can be met -/

omit [Runtime] in
/-- Some hash meets exactly the difficulties from one to its length. -/
theorem meets_difficulty_possible {d : ℤ} :
    (∃ hash : Str, hash.length = 64 ∧ meets_difficulty hash d = true) ↔ 1 ≤ d ∧ d ≤ 64 := by
  constructor
  · rintro ⟨hash, hlen, hmeets⟩
    obtain ⟨hpos, hle⟩ := meets_difficulty_iff.mp hmeets
    have hzeros := leading_zeros_le hash
    omega
  · rintro ⟨hpos, hle⟩
    refine ⟨List.replicate 64 (ofChar '0'), List.length_replicate, ?_⟩
    rw [meets_difficulty_iff]
    have hzeros : leading_zeros (List.replicate 64 (ofChar '0')) = 64 := by decide
    omega

/-- An adjustment ends within the length of a hash: the window was on time (or no
time is expected), or the first difficulty, divided by the factor or by the
larger of the ratio and its inverse, is a float that is small enough. -/
def AdjustsWithin (settings : PowSettings) (d a : ℤ) : Prop :=
  let e := expected_time settings
  e ≤ 0 ∨ a = e ∨
    (e < a ∧ AtMost ((PyFloat.fin d).div settings.max_adjustment_factor) 64) ∨
    (a < e ∧ ∃ inverse, (PyFloat.fin 1).div settings.max_adjustment_factor = .ok inverse ∧
      Below ((PyFloat.fin d).div ((Runtime.round ((a : ℚ) / e)).max inverse)) 65)

/-- The chain has no complete window yet, or the window is there and its
adjustment ends within the length of a hash. -/
def StaysMinable (settings : PowSettings) (chain : List Block) : Prop :=
  chain = [] ∨ (chain.length : ℤ) < settings.adjustment_interval ∨
    ∃ d a, WindowIs settings chain d a ∧ AdjustsWithin settings d a

/-- On a valid chain, `get_difficulty` returns a difficulty that some hash can
meet exactly where the chain stays minable. -/
theorem difficulty_minable_iff [Rsa] {ε : ℚ} (hround : RoundsWithin ε)
    (hinitial : 1 ≤ pow.settings.initial_difficulty ∧ pow.settings.initial_difficulty ≤ 64)
    {genesis_stakes : Option StakeMap}
    (hC : Verifies (verify_chain_integrity C (some (.pow pow)) g genesis_stakes)) :
    (∃ d, get_difficulty pow.settings C = .ok d ∧ 1 ≤ d ∧ d ≤ 64) ↔
      StaysMinable pow.settings C := by
  obtain ⟨-, hgrows⟩ := pow_verifies_iff.mp hC
  rcases eq_or_ne C [] with rfl | hne
  · exact ⟨fun _ => Or.inl rfl, fun _ => ⟨_, rfl, hinitial⟩⟩
  rcases lt_or_ge (C.length : ℤ) pow.settings.adjustment_interval with hshort | hfull
  · obtain ⟨d, t, hd, -, hrange⟩ := difficulty_and_time_of_mem hgrows (List.getLast_mem hne)
    have hlast := List.getLast?_eq_some_getLast hne
    exact ⟨fun _ => Or.inr (Or.inl hshort), fun _ => ⟨d, get_difficulty_short hlast hshort hd, hrange⟩⟩
  have hstays : StaysMinable pow.settings C ↔
      ∃ d a, WindowIs pow.settings C d a ∧ AdjustsWithin pow.settings d a := by
    simp [StaysMinable, hne, not_lt.mpr hfull]
  rw [hstays]
  rcases eq_or_ne (sliceFrom C (-pow.settings.adjustment_interval)) [] with hempty | hslice
  · -- an empty window raises
    rw [get_difficulty_no_window hne hfull hempty]
    constructor
    · rintro ⟨d, hd, -⟩
      cases hd
    · rintro ⟨d, a, ⟨⟨block, hblock, -⟩, -⟩, -⟩
      rw [hempty] at hblock
      cases hblock
  obtain ⟨d, a, hwindow, ⟨hd, hd64⟩, ha, ha'⟩ := window_of_valid hgrows hslice
  have hadjusts : (∃ d a, WindowIs pow.settings C d a ∧ AdjustsWithin pow.settings d a) ↔
      AdjustsWithin pow.settings d a := by
    constructor
    · rintro ⟨d', a', hwindow', h⟩
      obtain ⟨rfl, rfl⟩ := hwindow.unique hwindow'
      exact h
    · exact fun h => ⟨d, a, hwindow, h⟩
  rw [hadjusts, get_difficulty_window hne hfull hwindow ha, AdjustsWithin]
  by_cases he : expected_time pow.settings ≤ 0
  · simp [he, hd, hd64]
  rw [if_neg he]
  rcases lt_trichotomy a (expected_time pow.settings) with hlt | heq | hgt
  · rw [early_minable_iff hround hd hd64 ha ha' hlt]
    simp [he, hlt, hlt.ne, not_lt.mpr hlt.le]
  · rw [← heq, adjusted_on_time hround ha ha']
    simp [hd, hd64]
  · rw [late_minable_iff hround hd hd64 (by omega) hgt ha']
    simp [he, hgt, hgt.ne', not_lt.mpr hgt.le]

/-! ### How far the difficulty moves -/

omit [Runtime] in
theorem DifficultyIs.unique {block : Block} {d d' : ℤ} (h : DifficultyIs block d)
    (h' : DifficultyIs block d') : d = d' := by
  obtain ⟨v, hv, hd⟩ := h
  obtain ⟨v', hv', hd'⟩ := h'
  obtain rfl := hv.unique hv'
  rw [hd] at hd'
  exact Except.ok.inj hd'

/-- One adjustment, in either direction, stays within the factor. -/
theorem adjusted_within_factor {settings : PowSettings} {ε F : ℚ} (hround : RoundsWithin ε)
    (hF : settings.max_adjustment_factor = .fin F) (hF1 : 1 ≤ F) {d a e n : ℤ}
    (hd : 1 ≤ d ∧ d ≤ 64) (hn64 : 1 ≤ n ∧ n ≤ 64) (ha : 1 ≤ a) (ha' : a < 2 ^ 39) (he : 1 ≤ e)
    (hn : adjusted_difficulty settings d a e = .ok n) :
    (1 - ε) * n ≤ (1 + ε) * (F * d) ∧ (1 - ε) * d ≤ F * n := by
  have hε := hround.nonneg
  have hε' := hround.le_half
  -- shrinking the left side and growing the right one loses nothing
  have hweaken : ∀ x y : ℚ, 0 ≤ x → x ≤ y → (1 - ε) * x ≤ y ∧ (1 - ε) * x ≤ (1 + ε) * y := by
    intro x y hx hxy
    constructor <;> nlinarith
  have hdq : (1 : ℚ) ≤ d := by exact_mod_cast hd.1
  have hnq : (1 : ℚ) ≤ n := by exact_mod_cast hn64.1
  have hdF : (d : ℚ) ≤ F * d := le_mul_of_one_le_left (by linarith) hF1
  have hnF : (n : ℚ) ≤ F * n := le_mul_of_one_le_left (by linarith) hF1
  rcases le_or_gt F 64 with hF64 | hF64
  · rcases lt_trichotomy a e with hlt | rfl | hgt
    · obtain ⟨hdn, hbound⟩ := adjusted_early_bounds hround hF hF1 hd.1 hd.2 hF64 ha ha' hlt hn
      have hdn' : (d : ℚ) ≤ n := by exact_mod_cast hdn
      exact ⟨hbound, (hweaken d (F * n) (by linarith) (le_trans hdn' hnF)).1⟩
    · rw [adjusted_on_time hround ha ha'] at hn
      obtain rfl := Except.ok.inj hn
      obtain ⟨hone, htwo⟩ := hweaken d (F * d) (by linarith) hdF
      exact ⟨htwo, hone⟩
    · obtain ⟨hnd, hbound⟩ := adjusted_late_bounds hround hF hF1 hd.1 hd.2 hF64 he hgt ha' hn
      have hnd' : (n : ℚ) ≤ d := by exact_mod_cast hnd
      exact ⟨(hweaken n (F * d) (by linarith) (le_trans hnd' hdF)).2, hbound⟩
  · -- the factor exceeds every ratio of two difficulties
    have hd64 : (d : ℚ) ≤ 64 := by exact_mod_cast hd.2
    have hn64' : (n : ℚ) ≤ 64 := by exact_mod_cast hn64.2
    exact ⟨(hweaken n (F * d) (by linarith) (by nlinarith)).2,
      (hweaken d (F * n) (by linarith) (by nlinarith)).1⟩

/-- With a factor of at least one, every block before the first complete window
declares the initial difficulty, and two blocks that are `adjustment_interval`
apart declare difficulties within the factor of each other, up to the rounding
of floats. -/
theorem difficulty_follows_window [Rsa] {ε F : ℚ} (hround : RoundsWithin ε)
    (hF : pow.settings.max_adjustment_factor = .fin F) (hF1 : 1 ≤ F) {interval : ℕ}
    (hinterval : pow.settings.adjustment_interval = interval) (htwo : 2 ≤ interval)
    (htarget : 0 < pow.settings.target_block_time_seconds) {genesis_stakes : Option StakeMap}
    (hC : Verifies (verify_chain_integrity C (some (.pow pow)) g genesis_stakes)) :
    (∀ (i : ℕ) (hi : i < C.length), i < interval →
      DifficultyIs C[i] pow.settings.initial_difficulty) ∧
    ∀ (i : ℕ) (hi : i < C.length) (hj : i + interval < C.length), ∃ d d' : ℤ,
      DifficultyIs C[i] d ∧ DifficultyIs C[i + interval] d' ∧
      (1 - ε) * d' ≤ (1 + ε) * (F * d) ∧ (1 - ε) * d ≤ F * d' := by
  obtain ⟨-, hgrows⟩ := pow_verifies_iff.mp hC
  constructor
  · intro i hi hlt
    induction i with
    | zero =>
        obtain ⟨d, -, hd, -, hreq, -⟩ := difficulty_and_time_of_step (hgrows.getElem hi)
        obtain rfl := Except.ok.inj hreq
        exact hd
    | succ i ih =>
        have hparent := ih (by omega) (by omega)
        obtain ⟨d, -, hd, -, hreq, -⟩ := difficulty_and_time_of_step (hgrows.getElem hi)
        have hlast : (C.take (i + 1)).getLast? = some C[i] := by
          rw [List.take_succ_eq_append_getElem (by omega), List.getLast?_concat]
        rw [get_difficulty_short hlast (by rw [List.length_take_of_le hi.le]; omega) hparent] at hreq
        obtain rfl := Except.ok.inj hreq
        exact hd
  · intro i hi hj
    obtain ⟨d', -, hd', -, hreq, hrange'⟩ := difficulty_and_time_of_step (hgrows.getElem hj)
    have hlen : (C.take (i + interval)).length = i + interval := List.length_take_of_le hj.le
    -- the window in front of block `i + interval` begins with block `i`
    have hslice : sliceFrom (C.take (i + interval)) (-pow.settings.adjustment_interval)
        = (C.take (i + interval)).drop i := by
      rw [hinterval, sliceFrom_neg (by omega), hlen, Nat.add_sub_cancel]
    have hhead : (sliceFrom (C.take (i + interval)) (-pow.settings.adjustment_interval)).head?
        = some C[i] := by
      rw [hslice, List.head?_drop, List.getElem?_take_of_lt (by omega), List.getElem?_eq_getElem hi]
    have hne : sliceFrom (C.take (i + interval)) (-pow.settings.adjustment_interval) ≠ [] := by
      intro hnil
      rw [hnil] at hhead
      cases hhead
    obtain ⟨d, a, hwindow, hrange, ha, ha'⟩ :=
      window_of_valid (hgrows.prefix_closed (List.take_prefix _ _)) hne
    have hd : DifficultyIs C[i] d := by
      obtain ⟨block, hblock, hd⟩ := hwindow.first
      rw [hhead] at hblock
      obtain rfl := Option.some.inj hblock
      exact hd
    have hexpected : 1 ≤ expected_time pow.settings := by
      rw [expected_time, hinterval]
      have : (0 : ℤ) < interval - 1 := by omega
      have := Int.mul_pos htarget this
      omega
    have hnil : C.take (i + interval) ≠ [] := by
      intro h
      rw [h] at hlen
      simp at hlen
      omega
    rw [get_difficulty_window hnil (by rw [hlen, hinterval]; omega) hwindow ha,
      if_neg (by omega)] at hreq
    obtain ⟨hup, hdown⟩ :=
      adjusted_within_factor hround hF hF1 hrange hrange' ha ha' hexpected hreq
    exact ⟨d, d', hd, hd', hup, hdown⟩

end Chains

end ProofOfWork

/-! ## Windows that swing

With a window of two blocks every other block is retargeted against the same
ancestor. A slow pair and a fast pair of blocks next to each other move the
difficulty down and up by the whole factor, so neighbours are two factors apart.
With a large factor one fast pair of blocks asks for more zeros than a hash has. -/

namespace Retargeted

attribute [local instance] cpython letterRsa

theorem rounds : RoundsWithin (1 / 2 ^ 53) := roundsWithin_binary64 fun _ => rfl

/-- Difficulty 2 at first, factor 2, ten seconds from block to block. -/
def pow : ProofOfWork := ⟨⟨2, 2, .fin 2, 1000000, 10⟩, DEFAULT_GENESIS_PREV_HASH⟩

def hash₁ : Str := lit "00817756df0815628fa6213a634a14f502c72875e78aac0083ab21b84ebf28de"

def hash₂ : Str := lit "006e3ce9f5c9cbc7dc0a04795109de437f3af264da3ec6c7e05159d04a64866e"

def hash₃ : Str := lit "0129dd2a0ed167da056d9ef9f9591a50b4e42daff8457e4cef0c808398e274ca"

def hash₄ : Str := lit "0000d87555c01eb2d59dc322500ebe67865a30fc9fa303cc7521548c436fe3a1"

/-- A hundred seconds to the second block, one second to the third. -/
def swinging : List Block :=
  [Rewritten.block 1 "2024-01-01 00:00:00" DEFAULT_GENESIS_PREV_HASH hash₁ 542 2 "a" "b",
    Rewritten.block 2 "2024-01-01 00:01:40" hash₁ hash₂ 97 2 "c" "d",
    Rewritten.block 3 "2024-01-01 00:01:41" hash₂ hash₃ 21 1 "e" "f",
    Rewritten.block 4 "2024-01-01 00:01:51" hash₃ hash₄ 126603 4 "g" "h"]

theorem swinging_verifies :
    Verifies (verify_chain_integrity swinging (some (.pow pow)) DEFAULT_GENESIS_PREV_HASH none) :=
  ⟨.ok, by decide +kernel, rfl⟩

/-- Two neighbours of a valid chain whose difficulties differ by more than the
factor. -/
theorem neighbours_apart :
    Verifies (verify_chain_integrity swinging (some (.pow pow)) DEFAULT_GENESIS_PREV_HASH none) ∧
    pow.settings.max_adjustment_factor = .fin 2 ∧
    ∃ (hi : 2 < swinging.length) (hj : 3 < swinging.length),
      ProofOfWork.DifficultyIs swinging[2] 1 ∧ ProofOfWork.DifficultyIs swinging[3] 4 ∧
        ¬ (4 : ℚ) ≤ 2 * 1 :=
  ⟨swinging_verifies, rfl, by decide, by decide, ⟨_, ⟨_, rfl, rfl⟩, rfl⟩, ⟨_, ⟨_, rfl, rfl⟩, rfl⟩,
    by norm_num⟩

theorem swinging_follows_window :
    (∀ (i : ℕ) (hi : i < swinging.length), i < 2 → ProofOfWork.DifficultyIs swinging[i] 2) ∧
    ∀ (i : ℕ) (hi : i < swinging.length) (hj : i + 2 < swinging.length), ∃ d d' : ℤ,
      ProofOfWork.DifficultyIs swinging[i] d ∧ ProofOfWork.DifficultyIs swinging[i + 2] d' ∧
      (1 - 1 / 2 ^ 53) * (d' : ℚ) ≤ (1 + 1 / 2 ^ 53) * (2 * d) ∧
      (1 - 1 / 2 ^ 53) * (d : ℚ) ≤ 2 * d' :=
  ProofOfWork.difficulty_follows_window rounds rfl (by norm_num) rfl le_rfl
    (by decide) swinging_verifies

/-- Difficulty 1, factor 1000, a thousand seconds from block to block. -/
def unbounded : ProofOfWork := ⟨⟨1, 2, .fin 1000, 1000000, 1000⟩, DEFAULT_GENESIS_PREV_HASH⟩

/-- Two blocks one second apart. -/
def hurried : List Block := (Rewritten.chain "2024-01-01 00:00:01" 1).take 2

theorem hurried_verifies :
    Verifies (verify_chain_integrity hurried (some (.pow unbounded)) DEFAULT_GENESIS_PREV_HASH
      none) :=
  ⟨.ok, by decide +kernel, rfl⟩

/-- A valid chain that no block can extend. -/
theorem difficulty_out_of_reach :
    Verifies (verify_chain_integrity hurried (some (.pow unbounded)) DEFAULT_GENESIS_PREV_HASH
      none) ∧
    (1 ≤ unbounded.settings.initial_difficulty ∧ unbounded.settings.initial_difficulty ≤ 64) ∧
    ProofOfWork.get_difficulty unbounded.settings hurried = .ok 1000 ∧
    ¬ ∃ d, ProofOfWork.get_difficulty unbounded.settings hurried = .ok d ∧ 1 ≤ d ∧ d ≤ 64 := by
  have h : ProofOfWork.get_difficulty unbounded.settings hurried = .ok 1000 := by decide +kernel
  refine ⟨hurried_verifies, by decide, h, ?_⟩
  rintro ⟨d, hd, -, hle⟩
  rw [h] at hd
  obtain rfl := Except.ok.inj hd
  omega

/-- The last window of the swinging chain is on time. -/
theorem swinging_minable :
    ∃ d, ProofOfWork.get_difficulty pow.settings swinging = .ok d ∧ 1 ≤ d ∧ d ≤ 64 := by
  refine (ProofOfWork.difficulty_minable_iff rounds (by decide)
    swinging_verifies).mpr (Or.inr (Or.inr ⟨1, 10, ?_, Or.inr (Or.inl rfl)⟩))
  exact ⟨⟨_, rfl, _, ⟨_, rfl, rfl⟩, rfl⟩, by decide +kernel⟩

end Retargeted

end EasyBlockchain
