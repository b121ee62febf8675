/-
CPython's runtime: binary64 arithmetic, `float.__repr__` and SHA-256.

The results of the program hold for every `Runtime`; this is the one its runs
on concrete inputs use.
-/
import EasyBlockchain.Py.Float
import EasyBlockchain.Py.Sha256
import Mathlib.Data.List.MinMax

set_option autoImplicit false

namespace EasyBlockchain.Py

/-! ## `float.__repr__` -/

/-- The decimal `digits * 10 ^ scale` nearest to `a` with `n` significant digits
that reads back as `a`, where there is one. -/
def roundTrip (a : ℚ) (n : ℕ) : Option (ℕ × ℤ) :=
  let scale := Int.log 10 a - n + 1
  let unit : ℚ := 10 ^ scale
  let low := (a / unit).floor.toNat
  let candidates := [low, low + 1].filter fun m : ℕ => binary64 (m * unit) = .fin a
  (candidates.argmin fun m : ℕ => |m * unit - a|).map (·, scale)

/-- The shortest digits that read back as `a`, and their scale. -/
def shortest (a : ℚ) : ℕ × ℤ :=
  ((List.range 17).findSome? fun n => roundTrip a (n + 1)).getD (0, 0)

/-- Digits without their trailing zeros. -/
def dropTrailingZeros (ds : Str) : Str := (ds.reverse.dropWhile (· = ofChar '0')).reverse

/-- A positive number, as `repr` lays out its digits. -/
def positiveRepr (a : ℚ) : Str :=
  let (digits, scale) := shortest a
  let text := natDigits digits
  let point : ℤ := text.length + scale
  let ds := dropTrailingZeros text
  let zeros (n : ℤ) : Str := List.replicate n.toNat (ofChar '0')
  if 16 < point ∨ point ≤ -4 then
    let exponent := point - 1
    let mantissa := match ds with
      | [] => []
      | [d] => [d]
      | d :: rest => d :: ofChar '.' :: rest
    let size := natDigits exponent.natAbs
    mantissa ++ lit "e" ++ (if exponent < 0 then lit "-" else lit "+")
      ++ (if size.length < 2 then lit "0" else []) ++ size
  else if point ≤ 0 then lit "0." ++ zeros (-point) ++ ds
  else if ds.length ≤ point then ds ++ zeros (point - ds.length) ++ lit ".0"
  else ds.take point.toNat ++ lit "." ++ ds.drop point.toNat

/-- `float.__repr__`. -/
def floatRepr : PyFloat → Str
  | .nan => lit "nan"
  | .inf s => if s then lit "-inf" else lit "inf"
  | .negZero => lit "-0.0"
  | .fin q => if q = 0 then lit "0.0" else if q < 0 then lit "-" ++ positiveRepr (-q) else positiveRepr q

/-- The runtime of CPython. -/
@[reducible] def cpython : Runtime where
  round := binary64
  floatRepr := floatRepr
  sha256 := Sha256.digest

end EasyBlockchain.Py
