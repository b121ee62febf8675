/-
`types.py`: the records that cross module boundaries.

A block is a `PyVal`: the type annotations of `types.py` are not enforced at
run time, and every validator of the source starts from a decoded JSON value of
unknown shape. The settings are records of the types the settings parser
converts to, without bounds on their values, since none are checked.
-/
import EasyBlockchain.Py.Value

set_option autoImplicit false

namespace EasyBlockchain

open Py

/-- A block, as decoded from JSON. -/
abbrev Block : Type := PyVal

/-- `DEFAULT_GENESIS_PREV_HASH`. -/
def DEFAULT_GENESIS_PREV_HASH : Str := List.replicate 64 (ofChar '0')

structure ValidationResult where
  valid : Bool
  reason : Str
  deriving DecidableEq

/-- `ValidationResult(valid=True)`. -/
def ValidationResult.ok : ValidationResult := ⟨true, []⟩

/-- `ValidationResult(valid=False, reason=...)`. -/
def ValidationResult.fail (reason : Str) : ValidationResult := ⟨false, reason⟩

structure ChainVerificationResult where
  valid : Bool
  failed_at_index : Option ℕ
  reason : Str
  deriving DecidableEq

/-- `ChainVerificationResult(valid=True)`. -/
def ChainVerificationResult.ok : ChainVerificationResult := ⟨true, none, []⟩

/-- `ChainVerificationResult(valid=False, failed_at_index=..., reason=...)`. -/
def ChainVerificationResult.fail (failed_at_index : ℕ) (reason : Str) : ChainVerificationResult :=
  ⟨false, some failed_at_index, reason⟩

structure PowSettings where
  initial_difficulty : ℤ
  adjustment_interval : ℤ
  max_adjustment_factor : PyFloat
  max_mining_iterations : ℤ
  target_block_time_seconds : ℤ

structure PosSettings where
  epoch_length : ℤ
  min_stake : ℤ
  block_reward : ℤ

/-! ## Verdicts

A check accepts when it returns a valid result; an exception is a rejection.
The lemmas below read the acceptance of a `do` block statement by statement.
-/

/-- The check ran to its end and found the block valid. -/
def Accepts (r : PyM ValidationResult) : Prop := ∃ v, r = .ok v ∧ v.valid = true

section Accepts

variable {α : Type} {f : α → PyM ValidationResult} {x : PyM α} {e : PyErr}
  {a b : PyM ValidationResult} {v : ValidationResult} {c : Bool}

@[simp] theorem accepts_ok : Accepts (.ok v) ↔ v.valid = true := by
  simp [Accepts]

@[simp] theorem not_accepts_error : ¬ Accepts (.error e) := by
  simp [Accepts]

@[simp] theorem ValidationResult.ok_valid : ValidationResult.ok.valid = true := rfl

@[simp] theorem ValidationResult.fail_valid (reason : Str) :
    (ValidationResult.fail reason).valid = false := rfl

/-- A sequence of statements accepts when its last part does. -/
theorem accepts_bind : Accepts (x >>= f) ↔ ∃ a, x = .ok a ∧ Accepts (f a) := by
  cases x with
  | error e => simp
  | ok a => simp

/-- A guard that returns a failure lets through what does not trip it. -/
theorem accepts_guard {reason : Str} :
    Accepts (if c = true then .ok (.fail reason) else b) ↔ c = false ∧ Accepts b := by
  cases c <;> simp

end Accepts

end EasyBlockchain
