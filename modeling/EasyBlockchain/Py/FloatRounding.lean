/-
What the program's arithmetic needs of the rounding behind `float`.

`RoundsWithin ε` is a contract on `Runtime.round`: dyadic numbers of moderate
size are floats, rounding keeps the order, and in the normal range it moves a
number by at most the fraction `ε` of it. Exact rational arithmetic meets it with
`ε = 0` and binary64 with `ε = 2 ^ -53`; a bound that is proved from the contract
holds for both.
-/
import EasyBlockchain.Py.Float
import Mathlib.Tactic.FieldSimp

set_option autoImplicit false

namespace EasyBlockchain.Py

/-- `a <= b`. -/
def PyFloat.le (a b : PyFloat) : Bool := a.lt b || a.eq b

theorem PyFloat.fin_le_iff {a : ℚ} {x : PyFloat} :
    (PyFloat.fin a).le x = true ↔ x = .inf false ∨ ∃ r, x.value = some r ∧ a ≤ r := by
  cases x with
  | nan => simp [le, lt, eq, value]
  | inf s => cases s <;> simp [le, lt, eq, value]
  | negZero =>
      simp only [le, lt, eq, value, Option.getD_some, Bool.or_eq_true, beq_iff_eq, reduceCtorEq,
        false_or, Option.some.injEq, exists_eq_left', le_iff_lt_or_eq]
      exact or_congr_left decide_eq_true_iff
  | fin q =>
      simp only [le, lt, eq, value, Option.getD_some, Bool.or_eq_true, beq_iff_eq, reduceCtorEq,
        false_or, Option.some.injEq, exists_eq_left', le_iff_lt_or_eq]
      exact or_congr_left decide_eq_true_iff

theorem PyFloat.le_fin_iff {b : ℚ} {x : PyFloat} :
    x.le (.fin b) = true ↔ x = .inf true ∨ ∃ r, x.value = some r ∧ r ≤ b := by
  cases x with
  | nan => simp [le, lt, eq, value]
  | inf s => cases s <;> simp [le, lt, eq, value]
  | negZero =>
      simp only [le, lt, eq, value, Option.getD_some, Bool.or_eq_true, beq_iff_eq, reduceCtorEq,
        false_or, Option.some.injEq, exists_eq_left', le_iff_lt_or_eq]
      exact or_congr_left decide_eq_true_iff
  | fin q =>
      simp only [le, lt, eq, value, Option.getD_some, Bool.or_eq_true, beq_iff_eq, reduceCtorEq,
        false_or, Option.some.injEq, exists_eq_left', le_iff_lt_or_eq]
      exact or_congr_left decide_eq_true_iff

/-- The order through a number. -/
theorem PyFloat.le_of_fin {x y : PyFloat} (c : ℚ) (hx : x.le (.fin c) = true)
    (hy : (PyFloat.fin c).le y = true) : x.le y = true := by
  rcases PyFloat.le_fin_iff.mp hx with rfl | ⟨a, ha, hac⟩
  · rcases PyFloat.fin_le_iff.mp hy with rfl | ⟨b, hb, -⟩
    · rfl
    · cases y <;> first | rfl | cases hb
  · rcases PyFloat.fin_le_iff.mp hy with rfl | ⟨b, hb, hcb⟩
    · cases x <;> first | rfl | cases ha
    · have hle : (PyFloat.fin a).le y = true :=
        PyFloat.fin_le_iff.mpr (Or.inr ⟨b, hb, le_trans hac hcb⟩)
      cases x with
      | nan => cases ha
      | inf s => cases ha
      | negZero =>
          obtain rfl := Option.some.inj ha
          cases y <;> exact hle
      | fin q =>
          obtain rfl := Option.some.inj ha
          exact hle

/-! ## The contract -/

/-- Rounding is exact on dyadic numbers, keeps the order, and has relative error
`ε` on normal numbers. -/
structure RoundsWithin [Runtime] (ε : ℚ) : Prop where
  nonneg : 0 ≤ ε
  le_half : ε ≤ 1 / 2
  exact : ∀ (m : ℤ) (k : ℕ), |m| ≤ 2 ^ 53 → k ≤ 1000 →
    Runtime.round ((m : ℚ) / 2 ^ k) = .fin ((m : ℚ) / 2 ^ k)
  monotone : ∀ p q : ℚ, p ≤ q → (Runtime.round p).le (Runtime.round q) = true
  relative : ∀ q : ℚ, 1 / 2 ^ 1000 ≤ q → q ≤ 2 ^ 1000 →
    ∃ r, (Runtime.round q).value = some r ∧ |r - q| ≤ ε * q

namespace RoundsWithin

variable [Runtime] {ε : ℚ} (h : RoundsWithin ε)
include h

/-- Integers up to `2 ^ 53` are floats. -/
theorem intCast {n : ℤ} (hn : |n| ≤ 2 ^ 53) : Runtime.round (n : ℚ) = .fin n := by
  have := h.exact n 0 hn (by omega)
  simpa using this

/-- Rounding does not cross a float. -/
theorem between {lo hi q : ℚ} (hlo : Runtime.round lo = .fin lo)
    (hhi : Runtime.round hi = .fin hi) (hloq : lo ≤ q) (hqhi : q ≤ hi) :
    ∃ r, (Runtime.round q).value = some r ∧ lo ≤ r ∧ r ≤ hi := by
  have hlow := h.monotone lo q hloq
  have hhigh := h.monotone q hi hqhi
  rw [hlo] at hlow
  rw [hhi] at hhigh
  rcases PyFloat.fin_le_iff.mp hlow with htop | ⟨r, hr, hlor⟩
  · rw [htop] at hhigh
    cases hhigh
  rcases PyFloat.le_fin_iff.mp hhigh with hbot | ⟨r', hr', hrhi⟩
  · rw [hbot] at hr
    cases hr
  rw [hr] at hr'
  obtain rfl := Option.some.inj hr'
  exact ⟨r, hr, hlor, hrhi⟩

end RoundsWithin

/-- Exact rational arithmetic meets the contract without error. -/
theorem roundsWithin_exact [Runtime] (hround : ∀ q : ℚ, Runtime.round q = .fin q) :
    RoundsWithin 0 where
  nonneg := le_rfl
  le_half := by norm_num
  exact m k _ _ := hround _
  monotone p q hpq := by
    rw [hround, hround]
    rcases hpq.lt_or_eq with hlt | rfl
    · simp [PyFloat.le, PyFloat.lt, PyFloat.value, hlt]
    · simp [PyFloat.le, PyFloat.eq, PyFloat.value]
  relative q _ _ := ⟨q, by rw [hround]; rfl, by simp⟩

/-! ## Rounding to an integer -/

theorem floor_le_roundHalfEven (x : ℚ) : ⌊x⌋ ≤ roundHalfEven x := by
  unfold roundHalfEven
  dsimp only
  split_ifs <;> omega

theorem roundHalfEven_le_floor_add_one (x : ℚ) : roundHalfEven x ≤ ⌊x⌋ + 1 := by
  unfold roundHalfEven
  dsimp only
  split_ifs <;> omega

theorem roundHalfEven_mono {x y : ℚ} (hxy : x ≤ y) : roundHalfEven x ≤ roundHalfEven y := by
  rcases (Int.floor_le_floor hxy).lt_or_eq with hlt | heq
  · calc roundHalfEven x ≤ ⌊x⌋ + 1 := roundHalfEven_le_floor_add_one x
      _ ≤ ⌊y⌋ := hlt
      _ ≤ roundHalfEven y := floor_le_roundHalfEven y
  · -- within one unit only the fractional parts differ
    unfold roundHalfEven
    dsimp only
    rw [heq]
    split_ifs <;> first | omega | (exfalso; linarith)

/-- The nearest integer is at most one half away. -/
theorem abs_roundHalfEven_sub_le (x : ℚ) : |(roundHalfEven x : ℚ) - x| ≤ 1 / 2 := by
  have hfloor := Int.floor_le x
  have hlt := Int.lt_floor_add_one x
  rw [abs_le]
  unfold roundHalfEven
  dsimp only
  split_ifs <;> push_cast <;> constructor <;> linarith

/-! ## binary64 -/

/-- The multiple of the unit in the last place that is nearest to `a`. -/
def nearest (a : ℚ) : ℚ := roundHalfEven (a / 2 ^ ulpExponent a) * 2 ^ ulpExponent a

theorem ulp_pos (a : ℚ) : (0 : ℚ) < 2 ^ ulpExponent a := by positivity

theorem nearest_nonneg {a : ℚ} (ha : 0 ≤ a) : 0 ≤ nearest a := by
  have hint : (0 : ℤ) ≤ roundHalfEven (a / 2 ^ ulpExponent a) := by
    calc (0 : ℤ) = roundHalfEven ((0 : ℤ) : ℚ) := (roundHalfEven_intCast 0).symm
      _ ≤ _ := roundHalfEven_mono (by push_cast; exact div_nonneg ha (ulp_pos a).le)
  exact mul_nonneg (by exact_mod_cast hint) (ulp_pos a).le

/-- Rounding `a` to its units keeps a multiple of the unit below it below. -/
theorem le_nearest_of_multiple {a : ℚ} {m : ℤ} (h : (m : ℚ) * 2 ^ ulpExponent a ≤ a) :
    (m : ℚ) * 2 ^ ulpExponent a ≤ nearest a := by
  have hle : m ≤ roundHalfEven (a / 2 ^ ulpExponent a) := by
    rw [← roundHalfEven_intCast m]
    exact roundHalfEven_mono ((le_div_iff₀ (ulp_pos a)).mpr h)
  exact mul_le_mul_of_nonneg_right (by exact_mod_cast hle) (ulp_pos a).le

/-- Rounding `a` to its units keeps a multiple of the unit above it above. -/
theorem nearest_le_of_multiple {a : ℚ} {m : ℤ} (h : a ≤ (m : ℚ) * 2 ^ ulpExponent a) :
    nearest a ≤ (m : ℚ) * 2 ^ ulpExponent a := by
  have hle : roundHalfEven (a / 2 ^ ulpExponent a) ≤ m := by
    rw [← roundHalfEven_intCast m]
    exact roundHalfEven_mono ((div_le_iff₀ (ulp_pos a)).mpr h)
  exact mul_le_mul_of_nonneg_right (by exact_mod_cast hle) (ulp_pos a).le

/-- A power of two at or above the unit is a multiple of it. -/
theorem zpow_eq_multiple {e f : ℤ} (h : e ≤ f) : ∃ m : ℤ, (2 : ℚ) ^ f = m * 2 ^ e := by
  refine ⟨2 ^ (f - e).toNat, ?_⟩
  have hnat : ((f - e).toNat : ℤ) = f - e := Int.toNat_of_nonneg (by omega)
  push_cast
  rw [← zpow_natCast, hnat, ← zpow_add₀ (by norm_num : (2 : ℚ) ≠ 0)]
  congr 1
  omega

theorem ulpExponent_mono {p q : ℚ} (hp : 0 < p) (hpq : p ≤ q) : ulpExponent p ≤ ulpExponent q := by
  have := Int.log_mono_right (b := 2) hp hpq
  unfold ulpExponent
  omega

theorem nearest_mono {p q : ℚ} (hp : 0 < p) (hpq : p ≤ q) : nearest p ≤ nearest q := by
  have hq : 0 < q := lt_of_lt_of_le hp hpq
  rcases (ulpExponent_mono hp hpq).lt_or_eq with hlt | heq
  · -- the power of two below `q` lies between, and both roundings respect it
    have hqe : ulpExponent q = Int.log 2 q - 52 := by unfold ulpExponent at hlt ⊢; omega
    have hlog : Int.log 2 p < Int.log 2 q := by unfold ulpExponent at hlt; omega
    have hpow : p ≤ (2 : ℚ) ^ Int.log 2 q := by
      refine le_trans (Int.lt_zpow_succ_log_self (b := 2) (by norm_num) p).le ?_
      exact zpow_le_zpow_right₀ (by norm_num) (by omega)
    have hqpow : (2 : ℚ) ^ Int.log 2 q ≤ q := Int.zpow_log_le_self (by norm_num) hq
    obtain ⟨m, hm⟩ := zpow_eq_multiple (e := ulpExponent p) (f := Int.log 2 q) (by omega)
    obtain ⟨n, hn⟩ := zpow_eq_multiple (e := ulpExponent q) (f := Int.log 2 q) (by omega)
    calc nearest p ≤ m * 2 ^ ulpExponent p := nearest_le_of_multiple (hm ▸ hpow)
      _ = 2 ^ Int.log 2 q := hm.symm
      _ = n * 2 ^ ulpExponent q := hn
      _ ≤ nearest q := le_nearest_of_multiple (hn ▸ hqpow)
  · unfold nearest
    rw [heq]
    have hle : roundHalfEven (p / 2 ^ ulpExponent q) ≤ roundHalfEven (q / 2 ^ ulpExponent q) :=
      roundHalfEven_mono (div_le_div_of_nonneg_right hpq (ulp_pos q).le)
    exact mul_le_mul_of_nonneg_right (by exact_mod_cast hle) (ulp_pos q).le

/-- A multiple of its own unit is not moved. -/
theorem nearest_of_multiple {a : ℚ} {m : ℤ} (h : a = m * 2 ^ ulpExponent a) : nearest a = a := by
  apply le_antisymm
  · calc nearest a ≤ m * 2 ^ ulpExponent a := nearest_le_of_multiple h.le
      _ = a := h.symm
  · calc a = m * 2 ^ ulpExponent a := h
      _ ≤ nearest a := le_nearest_of_multiple h.ge

/-- In the normal range the error is at most `2 ^ -53` of the number. -/
theorem abs_nearest_sub_le {a : ℚ} (ha : (2 : ℚ) ^ (-1022 : ℤ) ≤ a) :
    |nearest a - a| ≤ (1 / 2 ^ 53) * a := by
  have hpos : 0 < a := lt_of_lt_of_le (by positivity) ha
  have hlog : -1022 ≤ Int.log 2 a := by
    have := Int.log_mono_right (b := 2) (by positivity) ha
    rwa [show Int.log 2 ((2 : ℚ) ^ (-1022 : ℤ)) = -1022 from
      Int.log_zpow (R := ℚ) (b := 2) (by norm_num) (-1022)] at this
  have hulp : ulpExponent a = Int.log 2 a - 52 := by unfold ulpExponent; omega
  have hhalf := abs_roundHalfEven_sub_le (a / 2 ^ ulpExponent a)
  have hsplit : nearest a - a
      = (roundHalfEven (a / 2 ^ ulpExponent a) - a / 2 ^ ulpExponent a) * 2 ^ ulpExponent a := by
    rw [sub_mul, div_mul_cancel₀ _ (ulp_pos a).ne']
    rfl
  rw [hsplit, abs_mul, abs_of_pos (ulp_pos a)]
  calc |(roundHalfEven (a / 2 ^ ulpExponent a) : ℚ) - a / 2 ^ ulpExponent a| * 2 ^ ulpExponent a
      ≤ 1 / 2 * 2 ^ ulpExponent a := mul_le_mul_of_nonneg_right hhalf (ulp_pos a).le
    _ = (1 / 2 ^ 53) * 2 ^ Int.log 2 a := by
        rw [hulp, zpow_sub₀ (by norm_num)]
        norm_num
        ring
    _ ≤ (1 / 2 ^ 53) * a := by
        apply mul_le_mul_of_nonneg_left (Int.zpow_log_le_self (by norm_num) hpos)
        positivity

/-! ### The contract of binary64 -/

theorem binary64_of_pos {q : ℚ} (hq : 0 < q) :
    binary64 q = if 2 ^ 1024 ≤ nearest q then .inf false else .fin (nearest q) := by
  have habs : |q| = q := abs_of_pos hq
  have hneg : ¬ q < 0 := not_lt.mpr hq.le
  unfold binary64
  dsimp only
  rw [if_neg hq.ne', habs]
  change (if 2 ^ 1024 ≤ nearest q then _ else if nearest q = 0 then _ else _) = _
  simp only [hneg, decide_false, if_false]
  split_ifs with hbig hzero
  · rfl
  · rw [hzero]
    rfl
  · rfl

theorem binary64_of_neg {q : ℚ} (hq : q < 0) :
    binary64 q = if 2 ^ 1024 ≤ nearest (-q) then .inf true
      else if nearest (-q) = 0 then .negZero else .fin (-nearest (-q)) := by
  have habs : |q| = -q := abs_of_neg hq
  unfold binary64
  dsimp only
  rw [if_neg hq.ne, habs]
  change (if 2 ^ 1024 ≤ nearest (-q) then _ else if nearest (-q) = 0 then _ else _) = _
  simp only [hq, decide_true, if_true]
  rfl

/-- A dyadic number is a multiple of its unit in the last place. -/
theorem dyadic_eq_multiple {m : ℤ} {k : ℕ} (hm : 0 < m) (hm' : m ≤ 2 ^ 53) (hk : k ≤ 1000) :
    ∃ n : ℤ, (m : ℚ) / 2 ^ k = n * 2 ^ ulpExponent ((m : ℚ) / 2 ^ k) := by
  have hdiv : (m : ℚ) / 2 ^ k = m * 2 ^ (-(k : ℤ)) := by
    rw [zpow_neg, zpow_natCast, div_eq_mul_inv]
  rcases hm'.lt_or_eq with hlt | rfl
  · have hupper : (m : ℚ) / 2 ^ k < (2 : ℚ) ^ (53 - k : ℤ) := by
      rw [hdiv, zpow_sub₀ (by norm_num), div_eq_mul_inv, ← zpow_neg]
      apply mul_lt_mul_of_pos_right _ (by positivity)
      exact_mod_cast hlt
    have hlog : Int.log 2 ((m : ℚ) / 2 ^ k) < 53 - k :=
      (Int.lt_zpow_iff_log_lt (by norm_num) (by positivity)).mp hupper
    obtain ⟨n, hn⟩ := zpow_eq_multiple (e := ulpExponent ((m : ℚ) / 2 ^ k)) (f := -(k : ℤ))
      (by unfold ulpExponent; omega)
    refine ⟨m * n, ?_⟩
    calc (m : ℚ) / 2 ^ k = m * 2 ^ (-(k : ℤ)) := hdiv
      _ = m * (n * 2 ^ ulpExponent ((m : ℚ) / 2 ^ k)) := by rw [hn]
      _ = ((m * n : ℤ) : ℚ) * 2 ^ ulpExponent ((m : ℚ) / 2 ^ k) := by push_cast; ring
  · have hpow : (((2 ^ 53 : ℤ) : ℚ)) / 2 ^ k = (2 : ℚ) ^ (53 - k : ℤ) := by
      rw [hdiv, zpow_sub₀ (by norm_num), div_eq_mul_inv, ← zpow_neg]
      norm_num
    rw [hpow]
    have hlog : Int.log 2 ((2 : ℚ) ^ (53 - k : ℤ)) = 53 - k := Int.log_zpow (by norm_num) _
    exact zpow_eq_multiple (by unfold ulpExponent; omega)

theorem binary64_dyadic {m : ℤ} {k : ℕ} (hm : 0 < m) (hm' : m ≤ 2 ^ 53) (hk : k ≤ 1000) :
    nearest ((m : ℚ) / 2 ^ k) = (m : ℚ) / 2 ^ k ∧ ¬ (2 : ℚ) ^ 1024 ≤ (m : ℚ) / 2 ^ k := by
  obtain ⟨n, hn⟩ := dyadic_eq_multiple hm hm' hk
  refine ⟨nearest_of_multiple hn, not_le.mpr ?_⟩
  have hone : (1 : ℚ) ≤ 2 ^ k := one_le_pow₀ (by norm_num)
  calc (m : ℚ) / 2 ^ k ≤ m := div_le_self (by exact_mod_cast hm.le) hone
    _ ≤ 2 ^ 53 := by exact_mod_cast hm'
    _ < 2 ^ 1024 := pow_lt_pow_right₀ (by norm_num) (by norm_num)

theorem binary64_exact {m : ℤ} {k : ℕ} (hm : |m| ≤ 2 ^ 53) (hk : k ≤ 1000) :
    binary64 ((m : ℚ) / 2 ^ k) = .fin ((m : ℚ) / 2 ^ k) := by
  have hpow : (0 : ℚ) < 2 ^ k := by positivity
  rcases lt_trichotomy m 0 with hneg | rfl | hpos
  · have hneg' : (0 : ℤ) < -m := by omega
    have hneg'' : (m : ℚ) / 2 ^ k < 0 := div_neg_of_neg_of_pos (by exact_mod_cast hneg) hpow
    obtain ⟨hnear, hsmall⟩ := binary64_dyadic hneg' (by rwa [abs_of_neg hneg] at hm) hk
    have hflip : -((m : ℚ) / 2 ^ k) = ((-m : ℤ) : ℚ) / 2 ^ k := by push_cast; ring
    rw [binary64_of_neg hneg'', hflip, hnear, if_neg hsmall, if_neg, ← hflip, neg_neg]
    rw [← hflip]
    exact (neg_pos.mpr hneg'').ne'
  · simp [binary64]
  · obtain ⟨hnear, hsmall⟩ := binary64_dyadic hpos (by rwa [abs_of_pos hpos] at hm) hk
    rw [binary64_of_pos (div_pos (by exact_mod_cast hpos) hpow), hnear, if_neg hsmall]

/-- What a negative number is rounded to. -/
theorem binary64_neg_cases {q : ℚ} (hq : q < 0) :
    (2 ^ 1024 ≤ nearest (-q) ∧ binary64 q = .inf true) ∨
      (binary64 q).value = some (-nearest (-q)) := by
  rw [binary64_of_neg hq]
  split_ifs with hbig hzero
  · exact Or.inl ⟨hbig, rfl⟩
  · exact Or.inr (by rw [hzero]; simp [PyFloat.value])
  · exact Or.inr rfl

theorem binary64_monotone {p q : ℚ} (hpq : p ≤ q) : (binary64 p).le (binary64 q) = true := by
  rcases lt_or_ge 0 p with hp | hp
  · -- both positive
    have hmono := nearest_mono hp hpq
    rw [binary64_of_pos hp, binary64_of_pos (lt_of_lt_of_le hp hpq)]
    split_ifs with hbigp hbigq hbigq
    · rfl
    · exact absurd (le_trans hbigp hmono) hbigq
    · exact PyFloat.fin_le_iff.mpr (Or.inl rfl)
    · exact PyFloat.fin_le_iff.mpr (Or.inr ⟨_, rfl, hmono⟩)
  rcases lt_or_ge q 0 with hq | hq
  · -- both negative: the sizes are in the other order
    have hmono := nearest_mono (p := -q) (q := -p) (by linarith) (by linarith)
    rcases binary64_neg_cases (lt_of_le_of_lt hpq hq) with ⟨-, hinf⟩ | hp
    · rw [hinf]
      rcases binary64_neg_cases hq with ⟨-, hinf'⟩ | hq
      · rw [hinf']
        rfl
      · exact PyFloat.le_of_fin _ (PyFloat.le_fin_iff.mpr (Or.inl rfl))
          (PyFloat.fin_le_iff.mpr (Or.inr ⟨_, hq, le_rfl⟩))
    · rcases binary64_neg_cases hq with ⟨hbig, hinf⟩ | hq
      · rw [binary64_of_neg (lt_of_le_of_lt hpq hq), if_pos (le_trans hbig hmono)] at hp
        cases hp
      · exact PyFloat.le_of_fin _ (PyFloat.le_fin_iff.mpr (Or.inr ⟨_, hp, le_rfl⟩))
          (PyFloat.fin_le_iff.mpr (Or.inr ⟨_, hq, neg_le_neg hmono⟩))
  · -- zero lies between
    apply PyFloat.le_of_fin 0
    · rw [PyFloat.le_fin_iff]
      rcases hp.lt_or_eq with hneg | rfl
      · rcases binary64_neg_cases hneg with ⟨-, hinf⟩ | hvalue
        · exact Or.inl hinf
        · exact Or.inr ⟨_, hvalue, neg_nonpos.mpr (nearest_nonneg (by linarith))⟩
      · exact Or.inr ⟨0, by simp [binary64, PyFloat.value], le_rfl⟩
    · rw [PyFloat.fin_le_iff]
      rcases hq.lt_or_eq with hpos | rfl
      · rw [binary64_of_pos hpos]
        split
        · exact Or.inl rfl
        · exact Or.inr ⟨_, rfl, nearest_nonneg hq⟩
      · exact Or.inr ⟨0, by simp [binary64, PyFloat.value], le_rfl⟩

theorem binary64_relative {q : ℚ} (hlo : 1 / 2 ^ 1000 ≤ q) (hhi : q ≤ 2 ^ 1000) :
    ∃ r, (binary64 q).value = some r ∧ |r - q| ≤ 1 / 2 ^ 53 * q := by
  have hpos : 0 < q := lt_of_lt_of_le (by positivity) hlo
  have hnormal : (2 : ℚ) ^ (-1022 : ℤ) ≤ q := by
    refine le_trans ?_ hlo
    rw [one_div, ← zpow_natCast, ← zpow_neg]
    exact zpow_le_zpow_right₀ (by norm_num) (by norm_num)
  have herr := abs_nearest_sub_le hnormal
  have hsmall : ¬ (2 : ℚ) ^ 1024 ≤ nearest q := by
    have hle : nearest q ≤ 2 * q := by
      have := (abs_le.mp herr).2
      have hfrac : (1 / 2 ^ 53 : ℚ) * q ≤ q := by
        apply mul_le_of_le_one_left hpos.le
        norm_num
      linarith
    have hlt : (2 : ℚ) * 2 ^ 1000 < 2 ^ 1024 := by
      rw [← pow_succ']
      exact pow_lt_pow_right₀ (by norm_num) (by norm_num)
    apply not_le.mpr
    calc nearest q ≤ 2 * q := hle
      _ ≤ 2 * 2 ^ 1000 := mul_le_mul_of_nonneg_left hhi (by norm_num)
      _ < 2 ^ 1024 := hlt
  refine ⟨nearest q, ?_, herr⟩
  rw [binary64_of_pos hpos, if_neg hsmall]
  rfl

/-- Double precision meets the contract with `ε = 2 ^ -53`. -/
theorem roundsWithin_binary64 [Runtime] (hround : ∀ q : ℚ, Runtime.round q = binary64 q) :
    RoundsWithin (1 / 2 ^ 53) where
  nonneg := by positivity
  le_half := by norm_num
  exact m k hm hk := by rw [hround, binary64_exact hm hk]
  monotone p q hpq := by
    rw [hround, hround]
    exact binary64_monotone hpq
  relative q hlo hhi := by
    rw [hround]
    exact binary64_relative hlo hhi

end EasyBlockchain.Py
