/-
Potentials.

A quantity that never falls, and rises whenever something happens, bounds how
often it happens. Pairs in lexicographic order become such a quantity when the
second component is never greater than the first.
-/
import Mathlib.Data.Nat.Count
import Mathlib.Data.Prod.Lex
import Mathlib.Tactic.Common
import Mathlib.Tactic.Ring

set_option autoImplicit false

namespace EasyBlockchain.Lib

/-- What happens is paid for by the rise of the potential. -/
theorem add_count_le (potential : ℕ → ℕ) {p : ℕ → Prop} [DecidablePred p]
    (hmono : ∀ k, potential k ≤ potential (k + 1))
    (hrise : ∀ k, p k → potential k < potential (k + 1)) (n : ℕ) :
    potential 0 + Nat.count p n ≤ potential n := by
  induction n with
  | zero => simp
  | succ n ih =>
      have hkept := hmono n
      by_cases hp : p n
      · have hrose := hrise n hp
        rw [Nat.count_succ_eq_succ_count hp]
        omega
      · rw [Nat.count_succ_eq_count hp]
        omega

/-- How many pairs below the diagonal come before a pair. -/
def pairRank (p : ℕ ×ₗ ℕ) : ℕ := (ofLex p).1 * ((ofLex p).1 + 1) / 2 + (ofLex p).2

/-- Below the diagonal the rank respects the order. -/
theorem pairRank_lt {p q : ℕ ×ₗ ℕ} (hp : (ofLex p).2 ≤ (ofLex p).1) (h : p < q) :
    pairRank p < pairRank q := by
  rcases Prod.Lex.lt_iff.mp h with hlt | ⟨heq, hlt⟩
  · -- the row of the greater pair starts after the row of the smaller one
    have hrow : (ofLex p).1 * ((ofLex p).1 + 1) / 2 + ((ofLex p).1 + 1)
        = ((ofLex p).1 + 1) * ((ofLex p).1 + 1 + 1) / 2 := by
      have hsum : ((ofLex p).1 + 1) * ((ofLex p).1 + 1 + 1)
          = (ofLex p).1 * ((ofLex p).1 + 1) + ((ofLex p).1 + 1) * 2 := by ring
      rw [hsum, Nat.add_mul_div_right _ _ (by decide)]
    have hle : ((ofLex p).1 + 1) * ((ofLex p).1 + 1 + 1) / 2
        ≤ (ofLex q).1 * ((ofLex q).1 + 1) / 2 :=
      Nat.div_le_div_right (Nat.mul_le_mul hlt (Nat.succ_le_succ hlt))
    simp only [pairRank]
    omega
  · simp only [pairRank, heq]
    omega

end EasyBlockchain.Lib
