/-
`network/reconnect.py`: the backoff of a URL that could not be connected.

The state of a URL is the number of recorded failures and the time before which
it is not dialed again. The float functions that the delay is computed with are
parameters; an exception of one of them leaves the number increased and the time
as it was.
-/
import EasyBlockchain.Py.FloatRounding
import EasyBlockchain.Py.StrDict

set_option autoImplicit false

namespace EasyBlockchain

open Py

/-- The float functions of the backoff formula. -/
class FloatMath where
  add : PyFloat → PyFloat → PyFloat
  mul : PyFloat → PyFloat → PyFloat
  /-- `x ** n` -/
  pow : PyFloat → ℤ → PyM PyFloat
  /-- `math.log(x)` -/
  log : PyFloat → PyM PyFloat

/-- The exact results, rounded; the logarithm, of which a multiplier of 1 has no need,
is left out. -/
@[reducible] def FloatMath.rounded [Runtime] : FloatMath where
  add a b :=
    match a.value, b.value with
    | some x, some y => Runtime.round (x + y)
    | _, _ => .nan
  mul a b :=
    match a.value, b.value with
    | some x, some y => Runtime.round (x * y)
    | _, _ => .nan
  pow a n :=
    match a.value with
    | some x => .ok (Runtime.round (x ^ n))
    | none => .ok .nan
  log _ := .error .valueError

structure ReconnectSettings where
  enabled : Bool
  initial_delay_seconds : PyFloat
  max_delay_seconds : PyFloat
  max_attempts : ℤ
  backoff_multiplier : PyFloat

structure ReconnectManager where
  settings : ReconnectSettings
  attempts : StrDict ℕ
  next_retry_at : StrDict PyFloat

namespace ReconnectManager

def start (settings : ReconnectSettings) : ReconnectManager := ⟨settings, .empty, .empty⟩

/-- `self._attempts.get(url, 0)`. -/
def attempts_of (self : ReconnectManager) (url : Str) : ℕ := (self.attempts.find url).getD 0

section Delay

variable [Runtime] [FloatMath]

/-- The exponent of the backoff step, capped where a larger one would exceed
`max_delay_seconds`. -/
def backoff_exponent (settings : ReconnectSettings) (attempts : ℕ) : PyM ℤ :=
  let exponent : ℤ := attempts - 1
  let initial := settings.initial_delay_seconds
  let max_delay := settings.max_delay_seconds
  if (PyFloat.fin 1).lt settings.backoff_multiplier && (PyFloat.fin 0).lt initial then
    if initial.lt max_delay then do
      let ratio ← max_delay.div initial
      let log_ratio ← FloatMath.log ratio
      let log_multiplier ← FloatMath.log settings.backoff_multiplier
      let quotient ← log_ratio.div log_multiplier
      let max_exponent ← quotient.ceil
      return min exponent (max 0 max_exponent)
    else .ok 0
  else .ok exponent

/-- The time before which there is no retry after that many failures, the last of
them at `current`. -/
def retry_at (settings : ReconnectSettings) (attempts : ℕ) (current : PyFloat) : PyM PyFloat :=
  if 0 < settings.max_attempts ∧ settings.max_attempts ≤ attempts then .ok (.inf false)
  else do
    let exponent ← backoff_exponent settings attempts
    let power ← FloatMath.pow settings.backoff_multiplier exponent
    let delay := (FloatMath.mul settings.initial_delay_seconds power).min settings.max_delay_seconds
    return FloatMath.add current delay

/-- `record_failure`, and whether it raises. -/
def record_failure (self : ReconnectManager) (url : Str) (now : PyFloat) :
    ReconnectManager × Bool :=
  if !self.settings.enabled then (self, false)
  else
    let attempts := self.attempts_of url + 1
    let self := { self with attempts := self.attempts.set url attempts }
    match retry_at self.settings attempts now with
    | .ok at_time => ({ self with next_retry_at := self.next_retry_at.set url at_time }, false)
    | .error _ => (self, true)

end Delay

def record_success (self : ReconnectManager) (url : Str) : ReconnectManager :=
  { self with attempts := self.attempts.pop url, next_retry_at := self.next_retry_at.pop url }

def should_retry (self : ReconnectManager) (url : Str) (now : PyFloat) : Bool :=
  if !self.settings.enabled then true
  else
    match self.next_retry_at.find url with
    | none => true
    | some next_at => if next_at.eq (.inf false) then false else next_at.le now

/-! ## What the three methods leave -/

section Laws

variable {self : ReconnectManager} {url other : Str} {now : PyFloat}

@[simp] theorem record_success_settings :
    (self.record_success url).settings = self.settings := rfl

theorem attempts_of_record_success : (self.record_success url).attempts_of other =
    if other = url then 0 else self.attempts_of other := by
  unfold attempts_of record_success
  rw [StrDict.find_pop]
  split <;> rfl

theorem next_retry_at_record_success : (self.record_success url).next_retry_at.find other =
    if other = url then none else self.next_retry_at.find other := StrDict.find_pop _ _ _

variable [Runtime] [FloatMath]

@[simp] theorem record_failure_settings :
    (self.record_failure url now).1.settings = self.settings := by
  unfold record_failure
  split
  · rfl
  · dsimp only
    split <;> rfl

theorem attempts_of_record_failure (henabled : self.settings.enabled = true) :
    (self.record_failure url now).1.attempts_of other =
      if other = url then self.attempts_of url + 1 else self.attempts_of other := by
  have hset : ((self.attempts.set url (self.attempts_of url + 1)).find other).getD 0 =
      if other = url then self.attempts_of url + 1 else self.attempts_of other := by
    rw [StrDict.find_set]
    split <;> rfl
  unfold record_failure
  rw [henabled]
  simp only [Bool.not_true, Bool.false_eq_true, if_false]
  split <;> exact hset

/-- The time is the one of the new number of failures, where it can be computed. -/
theorem next_retry_at_record_failure (henabled : self.settings.enabled = true) {t : PyFloat}
    (ht : retry_at self.settings (self.attempts_of url + 1) now = .ok t) :
    (self.record_failure url now).1.next_retry_at.find url = some t := by
  unfold record_failure
  rw [henabled]
  simp only [Bool.not_true, Bool.false_eq_true, if_false, ht, StrDict.find_set, if_true]

/-- Another URL keeps its time. -/
theorem next_retry_at_record_failure_other (hne : other ≠ url) :
    (self.record_failure url now).1.next_retry_at.find other = self.next_retry_at.find other := by
  unfold record_failure
  split
  · rfl
  · dsimp only
    split
    · simp only [StrDict.find_set, if_neg hne]
    · rfl

/-- `record_failure` raises only where the time cannot be computed. -/
theorem record_failure_raises
    (h : ∀ attempts, ∃ t, retry_at self.settings attempts now = .ok t) :
    (self.record_failure url now).2 = false := by
  unfold record_failure
  split
  · rfl
  · obtain ⟨t, ht⟩ := h (self.attempts_of url + 1)
    simp only [ht]

omit [FloatMath] [Runtime] in
/-- With the last attempt used up there is no retry. -/
theorem should_retry_of_inf (henabled : self.settings.enabled = true)
    (h : self.next_retry_at.find url = some (.inf false)) : self.should_retry url now = false := by
  unfold should_retry
  rw [henabled, h]
  rfl

end Laws

end ReconnectManager

end EasyBlockchain
