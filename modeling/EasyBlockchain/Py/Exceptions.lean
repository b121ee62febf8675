/-
Python computations that may raise.

`PyM α` is the value a statement produces or the class of the exception it
raises; texts of exceptions are not kept, the classes are, because `except`
clauses select by class. The lemmas below read a successful run of a `do`
block apart, one statement at a time.
-/
import Mathlib.Tactic.Common

set_option autoImplicit false

namespace EasyBlockchain.Py

/-- The exception classes the modelled code can meet. -/
inductive PyErr
  | typeError
  | valueError
  | unicodeEncodeError
  | unicodeDecodeError
  | jsonDecodeError
  | keyError
  | indexError
  | attributeError
  | overflowError
  | zeroDivisionError
  | runtimeError
  deriving DecidableEq, Repr

/-- `except ValueError` also catches the subclasses of `ValueError`. -/
def PyErr.isValueError : PyErr → Bool
  | .valueError | .unicodeEncodeError | .unicodeDecodeError | .jsonDecodeError => true
  | _ => false

/-- A Python computation: a result, or the class of the exception raised. -/
abbrev PyM (α : Type) : Type := Except PyErr α

/-- The value of an `Option`, or the exception `e`. -/
def orRaise {α : Type} (e : PyErr) : Option α → PyM α
  | some a => .ok a
  | none => .error e

section Inversion

variable {ε α β : Type}

@[simp] theorem pure_eq (a : α) : (pure a : Except ε α) = .ok a := rfl

@[simp] theorem ok_bind (a : α) (f : α → Except ε β) : ((.ok a : Except ε α) >>= f) = f a := rfl

@[simp] theorem error_bind (e : ε) (f : α → Except ε β) :
    ((.error e : Except ε α) >>= f) = .error e := rfl

/-- A sequence succeeds exactly when both of its parts do. -/
theorem bind_eq_ok {x : Except ε α} {f : α → Except ε β} {b : β} :
    (x >>= f) = .ok b ↔ ∃ a, x = .ok a ∧ f a = .ok b := by
  cases x with
  | error e => simp
  | ok a => simp

@[simp] theorem orRaise_eq_ok {e : PyErr} {o : Option α} {a : α} :
    orRaise e o = .ok a ↔ o = some a := by
  cases o with
  | none => simp [orRaise]
  | some b => simp [orRaise]

@[simp] theorem orRaise_some (e : PyErr) (a : α) : orRaise e (some a) = .ok a := rfl

/-- Two computations are equal when they succeed alike and raise alike. -/
theorem eq_ok_congr {x y : PyM α} (h : x = y) {a : α} : x = .ok a ↔ y = .ok a := by
  rw [h]

end Inversion

end EasyBlockchain.Py
