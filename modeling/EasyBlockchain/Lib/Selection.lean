/-
Keeping the best of what arrives.

A state is replaced by an arrival that scores strictly higher, and by nothing
else. Whatever the order of the arrivals, the state ends with the highest score
among them and the start; where the highest score belongs to one of them only,
it ends at that one.
-/
import Mathlib.Data.List.Perm.Basic
import Mathlib.Order.Lattice
import Mathlib.Tactic.Common

set_option autoImplicit false

namespace EasyBlockchain.Lib

variable {α κ : Type*} [LinearOrder κ] {score : α → κ}

/-- The arrival, where it scores strictly higher than the state. -/
def keepBetter (score : α → κ) (state arrival : α) : α :=
  if score state < score arrival then arrival else state

theorem keepBetter_of_lt {a b : α} (h : score a < score b) : keepBetter score a b = b := if_pos h

theorem keepBetter_of_le {a b : α} (h : score b ≤ score a) : keepBetter score a b = a :=
  if_neg (not_lt.mpr h)

theorem le_keepBetter (a b : α) : score a ≤ score (keepBetter score a b) := by
  by_cases h : score a < score b
  · rw [keepBetter_of_lt h]
    exact le_of_lt h
  · rw [keepBetter_of_le (not_lt.mp h)]

/-- The last state is the start or an arrival. -/
theorem foldl_keepBetter_mem (a : α) (xs : List α) : xs.foldl (keepBetter score) a ∈ a :: xs := by
  induction xs generalizing a with
  | nil => simp
  | cons x xs ih =>
      rw [List.foldl_cons]
      by_cases h : score a < score x
      · rw [keepBetter_of_lt h]
        exact List.mem_cons_of_mem a (ih x)
      · rw [keepBetter_of_le (not_lt.mp h)]
        rcases List.mem_cons.mp (ih a) with hmem | hmem
        · rw [hmem]
          exact List.mem_cons_self
        · exact List.mem_cons_of_mem a (List.mem_cons_of_mem x hmem)

/-- Nothing seen on the way scores higher than the last state. -/
theorem le_foldl_keepBetter (a : α) (xs : List α) :
    ∀ x ∈ a :: xs, score x ≤ score (xs.foldl (keepBetter score) a) := by
  induction xs generalizing a with
  | nil => simp
  | cons y xs ih =>
      intro x hx
      rw [List.foldl_cons]
      have hstep : score (keepBetter score a y) ≤ score (xs.foldl (keepBetter score)
          (keepBetter score a y)) := ih _ _ List.mem_cons_self
      rcases List.mem_cons.mp hx with rfl | hx
      · exact (le_keepBetter x y).trans hstep
      rcases List.mem_cons.mp hx with rfl | hx
      · refine le_trans ?_ hstep
        by_cases h : score a < score x
        · rw [keepBetter_of_lt h]
        · rw [keepBetter_of_le (not_lt.mp h)]
          exact not_lt.mp h
      · exact ih _ x (List.mem_cons_of_mem _ hx)

/-- A start that nothing beats stays. -/
theorem foldl_keepBetter_of_le {a : α} {xs : List α} (h : ∀ x ∈ xs, score x ≤ score a) :
    xs.foldl (keepBetter score) a = a := by
  induction xs with
  | nil => rfl
  | cons x xs ih =>
      rw [List.foldl_cons, keepBetter_of_le (h x List.mem_cons_self)]
      exact ih fun y hy => h y (List.mem_cons_of_mem x hy)

/-- A maximum of the start and the arrivals has the score of the last state. -/
theorem score_foldl_keepBetter {a m : α} {xs : List α} (hmem : m ∈ a :: xs)
    (hmax : ∀ x ∈ a :: xs, score x ≤ score m) :
    score (xs.foldl (keepBetter score) a) = score m :=
  le_antisymm (hmax _ (foldl_keepBetter_mem a xs)) (le_foldl_keepBetter a xs m hmem)

/-- A maximum of the start and the arrivals that is the start, if the start is
one, and otherwise shares its score with no other arrival, is the last state. -/
theorem foldl_keepBetter_eq {a m : α} {xs : List α} (hmem : m ∈ a :: xs)
    (hmax : ∀ x ∈ a :: xs, score x ≤ score m) (hfirst : score a = score m → m = a)
    (hinj : ∀ x ∈ xs, ∀ y ∈ xs, score x = score y → x = y) :
    xs.foldl (keepBetter score) a = m := by
  have hscore := score_foldl_keepBetter hmem hmax
  by_cases ha : score a = score m
  · rw [hfirst ha]
    apply foldl_keepBetter_of_le
    intro x hx
    rw [ha]
    exact hmax x (List.mem_cons_of_mem a hx)
  · have hne : ∀ x ∈ a :: xs, score x = score m → x ∈ xs := by
      intro x hx hxm
      rcases List.mem_cons.mp hx with rfl | hx
      · exact absurd hxm ha
      · exact hx
    exact hinj _ (hne _ (foldl_keepBetter_mem a xs) hscore) _ (hne _ hmem rfl) hscore

end EasyBlockchain.Lib
