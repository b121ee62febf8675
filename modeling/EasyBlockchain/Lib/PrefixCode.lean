/-
Codes in which no code word begins another, and the texts written in them.

A text in such a code reads back in one way only, so the concatenation of code
words determines the symbols.
-/
import Mathlib.Data.List.Infix
import Mathlib.Tactic.Common

set_option autoImplicit false

namespace EasyBlockchain.Lib

variable {α β : Type*} {code : α → List β}

/-- No code word is empty or begins another. -/
structure PrefixCode (code : α → List β) : Prop where
  nonempty : ∀ a, code a ≠ []
  free : ∀ a b, code a <+: code b → a = b

/-- The first symbol of a text and the rest of it are determined. -/
theorem PrefixCode.append_inj (h : PrefixCode code) {a b : α} {s t : List β}
    (heq : code a ++ s = code b ++ t) : a = b ∧ s = t := by
  have hab : a = b := by
    have ha : code a <+: code b ++ t := heq ▸ List.prefix_append _ _
    rcases List.prefix_or_prefix_of_prefix ha (List.prefix_append (code b) t) with hp | hp
    · exact h.free a b hp
    · exact (h.free b a hp).symm
  subst hab
  exact ⟨rfl, List.append_cancel_left heq⟩

/-- A text determines its symbols. -/
theorem PrefixCode.flatMap_injective (h : PrefixCode code) :
    Function.Injective (fun xs : List α => xs.flatMap code) := by
  intro xs
  induction xs with
  | nil =>
      intro ys heq
      rcases ys with _ | ⟨y, ys⟩
      · rfl
      · have hnil : code y ++ ys.flatMap code = [] := by simpa using heq.symm
        exact absurd (List.append_eq_nil_iff.mp hnil).1 (h.nonempty y)
  | cons x xs ih =>
      intro ys heq
      rcases ys with _ | ⟨y, ys⟩
      · have hnil : code x ++ xs.flatMap code = [] := by simpa using heq
        exact absurd (List.append_eq_nil_iff.mp hnil).1 (h.nonempty x)
      · have heq' : code x ++ xs.flatMap code = code y ++ ys.flatMap code := by simpa using heq
        obtain ⟨rfl, hrest⟩ := h.append_inj heq'
        rw [ih hrest]

end EasyBlockchain.Lib
