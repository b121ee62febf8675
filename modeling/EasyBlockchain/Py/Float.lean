/-
Python's `float`, kept apart from any one rounding.

A float is NaN, a signed infinity, negative zero, or the number it denotes.
Every operation computes the exact result over `ℚ` and hands it to
`Runtime.round`. With `binary64` for `round` this is CPython's arithmetic (IEEE
754 double precision, round to nearest, ties to even); with the identity it is
exact rational arithmetic, the reading under which bounds on a formula are
stated. `Runtime` also carries the two functions whose results the program only
compares and stores: SHA-256 and `repr(float)`.
-/
import EasyBlockchain.Py.Str
import EasyBlockchain.Py.Exceptions
import Mathlib.Data.Int.Log
import Mathlib.Data.Rat.Floor
import Mathlib.Tactic.NormNum
import Mathlib.Tactic.Linarith
import Mathlib.Tactic.Positivity
import Mathlib.Algebra.Order.Field.Power
import Mathlib.Tactic.Ring

set_option autoImplicit false

namespace EasyBlockchain.Py

/-- A Python `float`; `fin 0` is positive zero. -/
inductive PyFloat
  | nan
  | inf (negative : Bool)
  | negZero
  | fin (q : ℚ)
  deriving DecidableEq

/-- What the model takes from the Python runtime. -/
class Runtime where
  /-- The float nearest to an exact result. -/
  round : ℚ → PyFloat
  /-- `float.__repr__`. -/
  floatRepr : PyFloat → Str
  /-- The SHA-256 digest of a byte string, as a 256-bit number. -/
  sha256 : List UInt8 → BitVec 256

namespace PyFloat

/-- The number a float denotes, where it denotes one. -/
def value : PyFloat → Option ℚ
  | nan | inf _ => none
  | negZero => some 0
  | fin q => some q

/-- The sign bit. -/
def negative : PyFloat → Bool
  | nan => false
  | inf s => s
  | negZero => true
  | fin q => q < 0

/-- `a < b`; every comparison with NaN is false. -/
def lt : PyFloat → PyFloat → Bool
  | nan, _ | _, nan => false
  | inf s, inf t => s && !t
  | inf s, _ => s
  | _, inf t => !t
  | a, b => (a.value.getD 0) < (b.value.getD 0)

/-- `a == b`. -/
def eq : PyFloat → PyFloat → Bool
  | nan, _ | _, nan => false
  | inf s, inf t => s == t
  | inf _, _ | _, inf _ => false
  | a, b => a.value.getD 0 == b.value.getD 0

/-- `bool(x)`: only the two zeros are false. -/
def truthy : PyFloat → Bool
  | negZero => false
  | fin q => q != 0
  | _ => true

/-- `min(a, b)`: the first argument unless the second is smaller. -/
def min (a b : PyFloat) : PyFloat := if b.lt a then b else a

/-- `max(a, b)`: the first argument unless the second is larger. -/
def max (a b : PyFloat) : PyFloat := if a.lt b then b else a

/-- `int(x)`: towards zero; raises on NaN and on the infinities. -/
def toInt : PyFloat → PyM ℤ
  | nan => .error .valueError
  | inf _ => .error .overflowError
  | negZero => .ok 0
  | fin q => .ok (if 0 ≤ q then ⌊q⌋ else ⌈q⌉)

/-- `math.ceil(x)`. -/
def ceil : PyFloat → PyM ℤ
  | nan => .error .valueError
  | inf _ => .error .overflowError
  | negZero => .ok 0
  | fin q => .ok ⌈q⌉

/-- A zero with the given sign. -/
def zero (negative : Bool) : PyFloat := if negative then negZero else fin 0

section Arithmetic

variable [Runtime]

/-- `float(i)`, which raises where the integer is too large. -/
def ofInt (i : ℤ) : PyM PyFloat :=
  match Runtime.round i with
  | inf _ => .error .overflowError
  | f => .ok f

/-- `x + 1`. -/
def addOne : PyFloat → PyFloat
  | nan => nan
  | inf s => inf s
  | negZero => Runtime.round 1
  | fin q => Runtime.round (q + 1)

/-- `i / j` for integers: the exact quotient, rounded once. -/
def divInt (i j : ℤ) : PyM PyFloat :=
  if j = 0 then .error .zeroDivisionError
  else
    match Runtime.round ((i : ℚ) / j) with
    | inf _ => .error .overflowError
    | f => .ok f

/-- `a / b` for floats. -/
def div (a b : PyFloat) : PyM PyFloat :=
  let s := a.negative != b.negative
  match a, b with
  | nan, nan | nan, inf _ => .ok nan
  | inf _, nan | inf _, inf _ => .ok nan
  | _, nan => .ok nan
  | a, inf _ => .ok (if a = nan then nan else zero s)
  | a, b =>
    match a.value, b.value with
    | _, none => .ok nan
    | none, some y =>
      if y = 0 then .error .zeroDivisionError else .ok (if a = nan then nan else inf s)
    | some x, some y =>
      if y = 0 then .error .zeroDivisionError
      else if x = 0 then .ok (zero s)
      else .ok (Runtime.round (x / y))

end Arithmetic

end PyFloat

/-! ## IEEE 754 binary64 -/

/-- The integer nearest to `x`, ties to even. -/
def roundHalfEven (x : ℚ) : ℤ :=
  let f := ⌊x⌋
  if x - f < 1 / 2 then f
  else if 1 / 2 < x - f then f + 1
  else if f % 2 = 0 then f else f + 1

/-- The exponent of the unit in the last place of a binary64 of size `a`. -/
def ulpExponent (a : ℚ) : ℤ := Max.max (Int.log 2 a - 52) (-1074)

/-- The binary64 nearest to `q`. -/
def binary64 (q : ℚ) : PyFloat :=
  if q = 0 then .fin 0
  else
    let u : ℚ := 2 ^ ulpExponent |q|
    let r := roundHalfEven (|q| / u) * u
    if 2 ^ 1024 ≤ r then .inf (q < 0)
    else if r = 0 then .zero (q < 0)
    else .fin (if q < 0 then -r else r)

theorem roundHalfEven_intCast (n : ℤ) : roundHalfEven n = n := by
  simp [roundHalfEven]

/-- Integers up to `2 ^ 53` are floats. -/
theorem binary64_natCast {n : ℕ} (hn : n ≤ 2 ^ 53) : binary64 n = .fin n := by
  rcases Nat.eq_zero_or_pos n with rfl | hpos
  · simp [binary64]
  have hq : (0 : ℚ) < n := by exact_mod_cast hpos
  have habs : |(n : ℚ)| = n := abs_of_pos hq
  -- the unit in the last place divides `n`
  obtain ⟨m, hm⟩ : ∃ m : ℤ, (n : ℚ) / 2 ^ ulpExponent (n : ℚ) = m := by
    have hlog : Int.log 2 (n : ℚ) = Nat.log 2 n := Int.log_natCast 2 n
    rcases Nat.lt_or_ge n (2 ^ 53) with hlt | hge
    · have hle : Nat.log 2 n ≤ 52 := by
        have := Nat.log_lt_of_lt_pow (by omega : n ≠ 0) hlt
        omega
      have hulp : ulpExponent (n : ℚ) = -((52 - Nat.log 2 n : ℕ) : ℤ) := by
        simp only [ulpExponent, hlog]; omega
      refine ⟨n * 2 ^ (52 - Nat.log 2 n), ?_⟩
      rw [hulp, zpow_neg, zpow_natCast, div_inv_eq_mul]
      push_cast
      ring
    · have heq : n = 2 ^ 53 := by omega
      have hulp : ulpExponent (n : ℚ) = 1 := by
        have h53 : Nat.log 2 n = 53 := by rw [heq]; exact Nat.log_pow (by norm_num) 53
        simp only [ulpExponent, hlog, h53]
        norm_num
      refine ⟨2 ^ 52, ?_⟩
      rw [hulp, heq]
      norm_num
  have hu : (2 : ℚ) ^ ulpExponent (n : ℚ) ≠ 0 := by positivity
  have hr : (roundHalfEven ((n : ℚ) / 2 ^ ulpExponent (n : ℚ)) : ℚ) * 2 ^ ulpExponent (n : ℚ) = n := by
    rw [hm, roundHalfEven_intCast, ← hm, div_mul_cancel₀ _ hu]
  have hsmall : ¬ (2 : ℚ) ^ 1024 ≤ n := by
    have h1 : (n : ℚ) ≤ 2 ^ 53 := by exact_mod_cast hn
    have h2 : (2 : ℚ) ^ 53 < 2 ^ 1024 := pow_lt_pow_right₀ (by norm_num) (by norm_num)
    exact not_le.mpr (lt_of_le_of_lt h1 h2)
  have hneg : ¬ (n : ℚ) < 0 := not_lt.mpr hq.le
  simp only [binary64, habs, hr, if_neg hq.ne', if_neg hsmall, if_neg hneg]

/-- The first integer that is not a float goes to its even neighbour. -/
theorem binary64_two_pow_53_add_one : binary64 (2 ^ 53 + 1) = .fin (2 ^ 53) := by
  have hlog : Int.log 2 ((2 : ℚ) ^ 53 + 1) = 53 := by
    have h : ((2 : ℚ) ^ 53 + 1) = ((2 ^ 53 + 1 : ℕ) : ℚ) := by norm_num
    have hlog : Nat.log 2 (2 ^ 53 + 1) = 53 := by
      rw [Nat.log_eq_iff (Or.inl (by norm_num))]
      norm_num
    rw [h, Int.log_natCast, hlog]
    rfl
  have hulp : ulpExponent ((2 : ℚ) ^ 53 + 1) = 1 := by
    simp only [ulpExponent, hlog]
    norm_num
  have habs : |(2 : ℚ) ^ 53 + 1| = 2 ^ 53 + 1 := abs_of_pos (by norm_num)
  have hfloor : ⌊((2 : ℚ) ^ 53 + 1) / 2⌋ = 2 ^ 52 := by
    rw [Int.floor_eq_iff]
    norm_num
  have hround : roundHalfEven (((2 : ℚ) ^ 53 + 1) / 2 ^ (1 : ℤ)) = 2 ^ 52 := by
    rw [zpow_one]
    simp only [roundHalfEven, hfloor]
    norm_num
  have hsmall : ¬ (2 : ℚ) ^ 1024 ≤ 2 ^ 53 :=
    not_le.mpr (pow_lt_pow_right₀ (by norm_num) (by norm_num))
  have hr : ((2 ^ 52 : ℤ) : ℚ) * 2 ^ (1 : ℤ) = 2 ^ 53 := by norm_num
  have hpos : ¬ (2 : ℚ) ^ 53 + 1 < 0 := by norm_num
  simp only [binary64, habs, hulp, hround, hr, if_neg hsmall, if_neg hpos]
  norm_num

end EasyBlockchain.Py
