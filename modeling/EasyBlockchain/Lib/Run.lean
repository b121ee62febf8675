/-
Runs of a deterministic system: a state, a list of inputs, and a condition that
each step may have to meet.

`run step s inputs` is the last state, `run step s (inputs.take k)` the state
after `k` steps. `AlwaysMeets C step s inputs` says that every step is taken
where the condition allows it. The one rule is that an invariant kept by the
steps that meet the condition holds in every state of such a run.
-/
import Mathlib.Tactic.Common

set_option autoImplicit false

namespace EasyBlockchain.Lib

variable {σ ι : Type*}

/-- The state after the inputs. -/
def run (step : σ → ι → σ) (s : σ) (inputs : List ι) : σ := inputs.foldl step s

/-- Every step of the run meets the condition in the state it is taken in. -/
def AlwaysMeets (C : σ → ι → Prop) (step : σ → ι → σ) : σ → List ι → Prop
  | _, [] => True
  | s, i :: inputs => C s i ∧ AlwaysMeets C step (step s i) inputs

instance decidableAlwaysMeets {C : σ → ι → Prop} {step : σ → ι → σ} [∀ s i, Decidable (C s i)]
    (s : σ) : (inputs : List ι) →
    Decidable (AlwaysMeets C step s inputs)
  | [] => .isTrue trivial
  | i :: inputs =>
    have : Decidable (AlwaysMeets C step (step s i) inputs) := decidableAlwaysMeets (step s i) inputs
    inferInstanceAs (Decidable (_ ∧ _))

theorem run_append (step : σ → ι → σ) (s : σ) (inputs more : List ι) :
    run step s (inputs ++ more) = run step (run step s inputs) more :=
  List.foldl_append

/-- One more input is one more step. -/
theorem run_take_succ (step : σ → ι → σ) (s : σ) {inputs : List ι} {k : ℕ} {i : ι}
    (h : inputs[k]? = some i) :
    run step s (inputs.take (k + 1)) = step (run step s (inputs.take k)) i := by
  rw [List.take_add_one, h, Option.toList_some, run_append]
  rfl

/-- The state at a later time is reached from the state at an earlier one. -/
theorem run_take_of_le (step : σ → ι → σ) (s : σ) (inputs : List ι) {i j : ℕ} (hij : i ≤ j) :
    run step s (inputs.take j)
      = run step (run step s (inputs.take i)) ((inputs.take j).drop i) := by
  have htake : inputs.take i = (inputs.take j).take i := by
    rw [List.take_take, Nat.min_eq_left hij]
  rw [htake, ← run_append, List.take_append_drop]

variable {C : σ → ι → Prop} {step : σ → ι → σ} {I : σ → Prop}

theorem alwaysMeets_true (step : σ → ι → σ) (s : σ) (inputs : List ι) :
    AlwaysMeets (fun _ _ => True) step s inputs := by
  induction inputs generalizing s with
  | nil => exact trivial
  | cons i inputs ih => exact ⟨trivial, ih (step s i)⟩

/-- The inputs of a run are inputs of the run. -/
theorem alwaysMeets_mem (step : σ → ι → σ) (s : σ) {inputs all : List ι}
    (h : ∀ i ∈ inputs, i ∈ all) : AlwaysMeets (fun _ i => i ∈ all) step s inputs := by
  induction inputs generalizing s with
  | nil => exact trivial
  | cons i inputs ih =>
      exact ⟨h i List.mem_cons_self, ih (step s i) fun j hj => h j (List.mem_cons_of_mem i hj)⟩

/-- A condition met along a run is met along its beginning. -/
theorem AlwaysMeets.take {s : σ} {inputs : List ι} (h : AlwaysMeets C step s inputs) (k : ℕ) :
    AlwaysMeets C step s (inputs.take k) := by
  induction inputs generalizing s k with
  | nil => simpa using h
  | cons i inputs ih =>
      cases k with
      | zero => exact trivial
      | succ k => exact ⟨h.1, ih h.2 k⟩

/-- The condition is met at every step of the run. -/
theorem AlwaysMeets.getElem? {s : σ} {inputs : List ι} (h : AlwaysMeets C step s inputs) {k : ℕ} {i : ι}
    (hk : inputs[k]? = some i) : C (run step s (inputs.take k)) i := by
  induction inputs generalizing s k with
  | nil => cases hk
  | cons j inputs ih =>
      cases k with
      | zero =>
          obtain rfl := Option.some.inj hk
          exact h.1
      | succ k => exact ih h.2 hk

theorem AlwaysMeets.and {D : σ → ι → Prop} {s : σ} {inputs : List ι}
    (h : AlwaysMeets C step s inputs) (h' : AlwaysMeets D step s inputs) :
    AlwaysMeets (fun s i => C s i ∧ D s i) step s inputs := by
  induction inputs generalizing s with
  | nil => exact trivial
  | cons i inputs ih => exact ⟨⟨h.1, h'.1⟩, ih h.2 h'.2⟩

theorem alwaysMeets_append {s : σ} {inputs more : List ι} :
    AlwaysMeets C step s (inputs ++ more) ↔
      AlwaysMeets C step s inputs ∧ AlwaysMeets C step (run step s inputs) more := by
  induction inputs generalizing s with
  | nil => exact (and_iff_right trivial).symm
  | cons i inputs ih =>
      rw [List.cons_append, AlwaysMeets, AlwaysMeets, ih, and_assoc]
      rfl

/-- The invariant rule for runs. -/
theorem run_invariant (hstep : ∀ s i, I s → C s i → I (step s i)) {s : σ} (hs : I s)
    {inputs : List ι} (h : AlwaysMeets C step s inputs) : I (run step s inputs) := by
  induction inputs generalizing s with
  | nil => exact hs
  | cons i inputs ih => exact ih (hstep s i hs h.1) h.2

/-- The invariant holds after every number of steps. -/
theorem run_invariant_take (hstep : ∀ s i, I s → C s i → I (step s i)) {s : σ} (hs : I s)
    {inputs : List ι} (h : AlwaysMeets C step s inputs) (k : ℕ) :
    I (run step s (inputs.take k)) :=
  run_invariant hstep hs (h.take k)

end EasyBlockchain.Lib
