/-
`network/reconnect.py` in exact arithmetic: the clamped exponent and the plain backoff.

`ReconnectManager` is written again over an ordered field, with the logarithm left to
the field; nothing overflows there and no call raises. Over the rationals it is the
model over floats with the identity for the rounding (`retry_at_exact`). Over the
reals, the field of the results here, the logarithm is the natural one: cutting the
exponent leaves the delay of the plain formula.
-/
import EasyBlockchain.Lib.CappedGrowth
import EasyBlockchain.Lib.Run
import EasyBlockchain.Reconnect

set_option autoImplicit false

namespace EasyBlockchain

open Py Lib Lib.CappedGrowth

/-- `math.log`. -/
class Logarithm (N : Type) where
  log : N → N

noncomputable instance : Logarithm ℝ := ⟨Real.log⟩

namespace Exact

/-! ## The code -/

structure ReconnectSettings (N : Type) where
  enabled : Bool
  initial_delay_seconds : N
  max_delay_seconds : N
  max_attempts : ℤ
  backoff_multiplier : N

/-- The times of retries are numbers or `float("inf")`. -/
structure ReconnectManager (N : Type) where
  settings : ReconnectSettings N
  attempts : StrDict ℕ
  next_retry_at : StrDict (WithTop N)

/-- The calls of the methods that write. -/
inductive ReconnectCall (N : Type)
  | record_failure (url : Str) (now : N)
  | record_success (url : Str)
  | clear (url : Str)

namespace ReconnectManager

variable {N : Type} [Field N] [LinearOrder N]

def init (settings : ReconnectSettings N) : ReconnectManager N := ⟨settings, .empty, .empty⟩

section Delay

variable [FloorRing N] [Logarithm N]

/-- The exponent of the delay: `attempts - 1`, cut where the power reaches `max_delay`. -/
def backoff_exponent (settings : ReconnectSettings N) (attempts : ℕ) : ℤ :=
  let exponent : ℤ := attempts - 1
  let initial := settings.initial_delay_seconds
  let max_delay := settings.max_delay_seconds
  if 1 < settings.backoff_multiplier ∧ 0 < initial then
    if initial < max_delay then
      let max_exponent :=
        ⌈Logarithm.log (max_delay / initial) / Logarithm.log settings.backoff_multiplier⌉
      min exponent (max 0 max_exponent)
    else 0
  else exponent

def delay (settings : ReconnectSettings N) (attempts : ℕ) : N :=
  min (settings.initial_delay_seconds *
    settings.backoff_multiplier ^ backoff_exponent settings attempts) settings.max_delay_seconds

/-- The time of the next retry after that many failures, the last of them at `current`. -/
def retry_at (settings : ReconnectSettings N) (attempts : ℕ) (current : N) : WithTop N :=
  if 0 < settings.max_attempts ∧ settings.max_attempts ≤ attempts then ⊤
  else ((current + delay settings attempts : N) : WithTop N)

def record_failure (self : ReconnectManager N) (url : Str) (now : N) : ReconnectManager N :=
  if !self.settings.enabled then self
  else
    let attempts := (self.attempts.find url).getD 0 + 1
    { self with
      attempts := self.attempts.set url attempts
      next_retry_at := self.next_retry_at.set url (retry_at self.settings attempts now) }

end Delay

omit [Field N] [LinearOrder N] in
/-- `record_success`, and `clear` word for word. -/
def clear (self : ReconnectManager N) (url : Str) : ReconnectManager N :=
  { self with attempts := self.attempts.pop url, next_retry_at := self.next_retry_at.pop url }

def should_retry (self : ReconnectManager N) (url : Str) (now : N) : Bool :=
  if !self.settings.enabled then true
  else
    match self.next_retry_at.find url with
    | none => true
    | some next_at => if next_at = ⊤ then false else next_at ≤ (now : WithTop N)

section Run

variable [FloorRing N] [Logarithm N]

def step (self : ReconnectManager N) : ReconnectCall N → ReconnectManager N
  | .record_failure url now => self.record_failure url now
  | .record_success url | .clear url => self.clear url

end Run

/-! ## The floats, read as exact numbers -/

section Floats

variable [Runtime] [Logarithm ℚ]

/-- The float functions of `Reconnect.lean`, with the logarithm of the field. -/
@[reducible] def float_math : FloatMath :=
  { FloatMath.rounded with
    log := fun a =>
      match a.value with
      | some x => .ok (Runtime.round (Logarithm.log x))
      | none => .ok .nan }

def floats (settings : ReconnectSettings ℚ) : EasyBlockchain.ReconnectSettings where
  enabled := settings.enabled
  initial_delay_seconds := .fin settings.initial_delay_seconds
  max_delay_seconds := .fin settings.max_delay_seconds
  max_attempts := settings.max_attempts
  backoff_multiplier := .fin settings.backoff_multiplier

def float_time : WithTop ℚ → PyFloat
  | none => .inf false
  | some q => .fin q

omit [Runtime] [Logarithm ℚ] in
theorem lt_fin (a b : ℚ) : (PyFloat.fin a).lt (.fin b) = decide (a < b) := rfl

omit [Runtime] [Logarithm ℚ] in
theorem min_fin (a b : ℚ) : (PyFloat.fin a).min (.fin b) = .fin (min a b) := by
  rw [PyFloat.min, lt_fin]
  by_cases h : b < a
  · rw [if_pos (by simpa using h), min_eq_right h.le]
  · rw [if_neg (by simpa using h), min_eq_left (not_lt.mp h)]

variable (hexact : ∀ q, Runtime.round q = .fin q)

omit [Logarithm ℚ] in
include hexact in
/-- A quotient, up to the sign of a zero. -/
theorem div_fin {a b : ℚ} (hb : b ≠ 0) : ∃ f, (PyFloat.fin a).div (.fin b) = .ok f ∧
    f.ceil = .ok ⌈a / b⌉ ∧ (a ≠ 0 → f = .fin (a / b)) := by
  by_cases ha : a = 0
  · subst ha
    refine ⟨.zero ((PyFloat.fin 0).negative != (PyFloat.fin b).negative), ?_, ?_,
      fun h => absurd rfl h⟩
    · simp [PyFloat.div, PyFloat.value, hb]
    · rw [zero_div, Int.ceil_zero, PyFloat.zero]
      split <;> simp [PyFloat.ceil]
  · refine ⟨.fin (a / b), ?_, rfl, fun _ => rfl⟩
    simp [PyFloat.div, PyFloat.value, hb, ha, hexact]

include hexact in
theorem backoff_exponent_exact (hlog : ∀ q : ℚ, 1 < q → Logarithm.log q ≠ 0)
    (settings : ReconnectSettings ℚ) (attempts : ℕ) :
    @EasyBlockchain.ReconnectManager.backoff_exponent _ float_math (floats settings) attempts
      = .ok (backoff_exponent settings attempts) := by
  unfold EasyBlockchain.ReconnectManager.backoff_exponent backoff_exponent
  simp only [floats, lt_fin, Bool.and_eq_true, decide_eq_true_eq]
  split_ifs with hgrows hcap
  · obtain ⟨hmultiplier, hinitial⟩ := hgrows
    obtain ⟨ratio, hratio, -, hvalue⟩ := div_fin hexact (a := settings.max_delay_seconds)
      (b := settings.initial_delay_seconds) hinitial.ne'
    obtain rfl := hvalue (hinitial.trans hcap).ne'
    obtain ⟨quotient, hquotient, hceil, -⟩ := div_fin hexact
      (a := Logarithm.log (settings.max_delay_seconds / settings.initial_delay_seconds))
      (hlog _ hmultiplier)
    have hlogs : ∀ q : ℚ, @FloatMath.log float_math (.fin q) = .ok (.fin (Logarithm.log q)) :=
      fun q => congrArg Except.ok (hexact _)
    simp only [hratio, ok_bind, hlogs, hquotient, hceil]
    rfl
  · rfl
  · rfl

include hexact in
/-- With nothing rounded the model over floats computes the time of this one. -/
theorem retry_at_exact (hlog : ∀ q : ℚ, 1 < q → Logarithm.log q ≠ 0)
    (settings : ReconnectSettings ℚ) (attempts : ℕ) (current : ℚ) :
    @EasyBlockchain.ReconnectManager.retry_at _ float_math (floats settings) attempts (.fin current)
      = .ok (float_time (retry_at settings attempts current)) := by
  unfold EasyBlockchain.ReconnectManager.retry_at retry_at
  rw [backoff_exponent_exact hexact hlog]
  change (if 0 < settings.max_attempts ∧ settings.max_attempts ≤ attempts then _ else _) = _
  by_cases hlimit : 0 < settings.max_attempts ∧ settings.max_attempts ≤ attempts
  · rw [if_pos hlimit, if_pos hlimit]
    rfl
  · rw [if_neg hlimit, if_neg hlimit]
    simp only [floats, ok_bind, FloatMath.pow, FloatMath.mul, FloatMath.add, PyFloat.value, hexact,
      min_fin, delay]
    rfl

end Floats

/-! ## Failures in a row -/

section Failures

omit [Field N] [LinearOrder N]

/-- The times of the failures of a URL since the last call that reset it. -/
def note (url : Str) (times : List N) : ReconnectCall N → List N
  | .record_failure k now => if k = url then times ++ [now] else times
  | .record_success k | .clear k => if k = url then [] else times

def failures (url : Str) (calls : List (ReconnectCall N)) : List N :=
  calls.foldl (note url) []

theorem failures_snoc (url : Str) (calls : List (ReconnectCall N)) (call : ReconnectCall N) :
    failures url (calls ++ [call]) = note url (failures url calls) call := by
  rw [failures, List.foldl_append, List.foldl_cons, List.foldl_nil, failures]

end Failures

section Tracking

variable [FloorRing N] [Logarithm N]

/-- What the two maps hold for a URL whose failures in a row were at these times. -/
structure Tracks (settings : ReconnectSettings N) (times : List N) (url : Str)
    (manager : ReconnectManager N) : Prop where
  same_settings : manager.settings = settings
  attempts_eq : (manager.attempts.find url).getD 0 = times.length
  next_retry_eq : manager.next_retry_at.find url
    = times.getLast?.map (retry_at settings times.length)

variable {settings : ReconnectSettings N} {times : List N} {url : Str} {self : ReconnectManager N}

theorem Tracks.step (henabled : settings.enabled = true) (htracks : Tracks settings times url self)
    (call : ReconnectCall N) : Tracks settings (note url times call) url (self.step call) := by
  have hclear : ∀ k, Tracks settings (if k = url then [] else times) url (self.clear k) := by
    intro k
    rw [clear]
    by_cases hk : k = url
    · rw [if_pos hk]
      refine ⟨htracks.same_settings, ?_, ?_⟩
      · rw [StrDict.find_pop, if_pos hk.symm]
        rfl
      · rw [StrDict.find_pop, if_pos hk.symm]
        rfl
    · rw [if_neg hk]
      refine ⟨htracks.same_settings, ?_, ?_⟩
      · rw [StrDict.find_pop, if_neg (Ne.symm hk)]
        exact htracks.attempts_eq
      · rw [StrDict.find_pop, if_neg (Ne.symm hk)]
        exact htracks.next_retry_eq
  cases call with
  | record_success k => exact hclear k
  | clear k => exact hclear k
  | record_failure k now =>
      have hon : (!self.settings.enabled) = false := by rw [htracks.same_settings, henabled]; rfl
      rw [ReconnectManager.step, record_failure, hon, if_neg Bool.false_ne_true, note]
      by_cases hk : k = url
      · subst hk
        rw [if_pos rfl, htracks.attempts_eq, htracks.same_settings]
        refine ⟨rfl, ?_, ?_⟩
        · rw [StrDict.find_set, if_pos rfl, Option.getD_some, List.length_append,
            List.length_singleton]
        · rw [StrDict.find_set, if_pos rfl, List.getLast?_concat, List.length_append,
            List.length_singleton, Option.map_some]
      · rw [if_neg hk]
        refine ⟨htracks.same_settings, ?_, ?_⟩
        · rw [StrDict.find_set, if_neg (Ne.symm hk)]
          exact htracks.attempts_eq
        · rw [StrDict.find_set, if_neg (Ne.symm hk)]
          exact htracks.next_retry_eq

/-- Any run of an enabled manager holds for each URL the time that its failures give. -/
theorem tracks_run (henabled : settings.enabled = true) (url : Str)
    (calls : List (ReconnectCall N)) :
    Tracks settings (failures url calls) url (run step (init settings) calls) := by
  induction calls using List.reverseRecOn with
  | nil => exact ⟨rfl, rfl, rfl⟩
  | append_singleton calls call ih =>
      rw [run_append, failures_snoc]
      exact ih.step henabled call

/-- A manager that is not enabled records nothing. -/
theorem step_settings (self : ReconnectManager N) (call : ReconnectCall N) :
    (self.step call).settings = self.settings := by
  cases call with
  | record_success k => rfl
  | clear k => rfl
  | record_failure k now =>
      rw [step, record_failure]
      split <;> rfl

theorem run_settings (settings : ReconnectSettings N) (calls : List (ReconnectCall N)) :
    (run step (init settings) calls).settings = settings := by
  induction calls using List.reverseRecOn with
  | nil => rfl
  | append_singleton calls call ih =>
      rw [run_append]
      exact (step_settings _ call).trans ih

end Tracking

/-! ## The delay over the reals -/

section Reals

variable {settings : ReconnectSettings ℝ}

/-- The exponent is cut at a power that has reached the cap, or not at all. -/
theorem backoff_exponent_succ (hinitial : 0 < settings.initial_delay_seconds)
    (hmultiplier : 1 < settings.backoff_multiplier) (n : ℕ) :
    ∃ m : ℕ, backoff_exponent settings (n + 1) = (min n m : ℕ) ∧
      settings.max_delay_seconds
        ≤ settings.initial_delay_seconds * settings.backoff_multiplier ^ m := by
  have hexponent : ((n + 1 : ℕ) : ℤ) - 1 = n := by
    push_cast
    ring
  simp only [backoff_exponent, if_pos (And.intro hmultiplier hinitial), hexponent]
  split_ifs with hcap
  · refine ⟨⌈Real.log (settings.max_delay_seconds / settings.initial_delay_seconds) /
      Real.log settings.backoff_multiplier⌉.toNat, ?_, ?_⟩
    · change min (n : ℤ) (max 0 ⌈Real.log _ / Real.log _⌉) = _
      omega
    · refine le_mul_pow_of_log_le hinitial hmultiplier (hinitial.trans hcap) ?_
      refine (Int.le_ceil _).trans ?_
      exact_mod_cast Int.self_le_toNat _
  · refine ⟨0, by rw [Nat.min_zero, Nat.cast_zero], ?_⟩
    rw [pow_zero, mul_one]
    exact not_lt.mp hcap

/-- The clamp leaves the plain delay. -/
theorem delay_succ (hinitial : 0 < settings.initial_delay_seconds)
    (hmultiplier : 1 < settings.backoff_multiplier) (n : ℕ) :
    delay settings (n + 1) = capped settings.initial_delay_seconds settings.backoff_multiplier
      settings.max_delay_seconds n := by
  obtain ⟨m, hm, hreach⟩ := backoff_exponent_succ hinitial hmultiplier n
  rw [delay, hm, zpow_natCast, ← capped_min hinitial.le hmultiplier.le hreach n, capped]

/-- Without a limit on the attempts the next retry is the delay after the last failure. -/
theorem retry_at_of_unlimited (hlimit : settings.max_attempts = 0) (n : ℕ) (current : ℝ) :
    retry_at settings n current = ((current + delay settings n : ℝ) : WithTop ℝ) := by
  rw [retry_at, hlimit, if_neg]
  rintro ⟨hpos, -⟩
  exact lt_irrefl _ hpos

theorem should_retry_iff {self : ReconnectManager ℝ} {url : Str} {next_at : ℝ}
    (henabled : self.settings.enabled = true)
    (hfind : self.next_retry_at.find url = some (next_at : WithTop ℝ)) (now : ℝ) :
    self.should_retry url now = true ↔ next_at ≤ now := by
  rw [should_retry, henabled, Bool.not_true, if_neg Bool.false_ne_true, hfind]
  simp

/-- The delay after `n` failures in a row is the plain one, for any `n`; it grows with
`n` up to `max_delay_seconds`. In every run the next retry of a URL is that long after
its last failure, and `should_retry` answers `True` exactly from that time on. A
manager that is not enabled computes no delay and always answers `True`. -/
theorem backoff_is_plain (hlimit : settings.max_attempts = 0)
    (hinitial : 0 < settings.initial_delay_seconds)
    (hmultiplier : 1 < settings.backoff_multiplier) :
    (∀ n, 1 ≤ n → delay settings n
      = min (settings.initial_delay_seconds * settings.backoff_multiplier ^ (n - 1))
          settings.max_delay_seconds) ∧
    (∀ n m, 1 ≤ n → n ≤ m → delay settings n ≤ delay settings m) ∧
    (∀ n, delay settings n ≤ settings.max_delay_seconds) ∧
    ∀ (calls : List (ReconnectCall ℝ)) (url : Str),
      (settings.enabled = true → ∀ last, (failures url calls).getLast? = some last →
        (run step (init settings) calls).next_retry_at.find url
            = some ((last + delay settings (failures url calls).length : ℝ) : WithTop ℝ) ∧
        ∀ now, (run step (init settings) calls).should_retry url now = true ↔
          last + delay settings (failures url calls).length ≤ now) ∧
      (settings.enabled = false →
        ∀ now, (run step (init settings) calls).should_retry url now = true) := by
  have hdelay : ∀ n, 1 ≤ n → delay settings n = capped settings.initial_delay_seconds
      settings.backoff_multiplier settings.max_delay_seconds (n - 1) := by
    intro n hn
    obtain ⟨k, rfl⟩ := Nat.exists_eq_add_of_le' hn
    rw [delay_succ hinitial hmultiplier, Nat.add_sub_cancel]
  refine ⟨hdelay, ?_, fun n => min_le_right _ _, ?_⟩
  · intro n m hn hnm
    rw [hdelay n hn, hdelay m (hn.trans hnm)]
    exact monotone_capped hinitial.le hmultiplier.le _ (Nat.sub_le_sub_right hnm 1)
  · intro calls url
    constructor
    · intro henabled last hlast
      have hfind := (tracks_run henabled url calls).next_retry_eq
      rw [hlast, Option.map_some, retry_at_of_unlimited hlimit] at hfind
      have hon : (run step (init settings) calls).settings.enabled = true := by
        rw [run_settings, henabled]
      exact ⟨hfind, should_retry_iff hon hfind⟩
    · intro hoff now
      rw [should_retry, run_settings, hoff]
      rfl

end Reals

/-! One second, doubled up to a minute. -/

/-- The settings of `test_reconnect_backoff_delay_capped_at_max_delay`. -/
def doubling : ReconnectSettings ℝ where
  enabled := true
  initial_delay_seconds := 1
  max_delay_seconds := 60
  max_attempts := 0
  backoff_multiplier := 2

theorem doubling_is_plain :
    (∀ n, 1 ≤ n → delay doubling n = min (1 * 2 ^ (n - 1)) 60) ∧
    (∀ n m, 1 ≤ n → n ≤ m → delay doubling n ≤ delay doubling m) ∧
    (∀ n, delay doubling n ≤ 60) ∧
    ∀ (calls : List (ReconnectCall ℝ)) (url : Str),
      (true = true → ∀ last, (failures url calls).getLast? = some last →
        (run step (init doubling) calls).next_retry_at.find url
            = some ((last + delay doubling (failures url calls).length : ℝ) : WithTop ℝ) ∧
        ∀ now, (run step (init doubling) calls).should_retry url now = true ↔
          last + delay doubling (failures url calls).length ≤ now) ∧
      (true = false → ∀ now, (run step (init doubling) calls).should_retry url now = true) :=
  @backoff_is_plain doubling rfl (by norm_num [doubling]) (by norm_num [doubling])

end ReconnectManager

end Exact

end EasyBlockchain
