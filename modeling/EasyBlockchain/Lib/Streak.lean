/-
Counting in all against counting in a row.

A counter that is never reset reaches a limit with the element that makes the count
of all marked elements the limit; a streak asks that the last elements, as many as
the limit, are all marked. The two agree for a list exactly when no unmarked element
stands between the first marked element and the one that makes the limit full.
-/
import Mathlib.Data.List.DropRight
import Mathlib.Data.List.Induction
import Mathlib.Tactic.Common

set_option autoImplicit false

namespace EasyBlockchain.Lib

variable {α : Type*} {p : α → Bool} {limit : ℕ} {l : List α}

/-- The last `limit` elements are marked. -/
def Streak (p : α → Bool) (limit : ℕ) (l : List α) : Prop :=
  limit ≤ l.length ∧ ∀ x ∈ l.rtake limit, p x = true

/-- The count of the marked elements becomes `limit` with element `n`. -/
def Reaches (p : α → Bool) (limit : ℕ) (l : List α) (n : ℕ) : Prop :=
  n < l.length ∧ (l.take n).countP p < limit ∧ (l.take (n + 1)).countP p = limit

/-- An unmarked element comes before every marked one, or after `limit` of them, or
there are fewer than `limit` in all. -/
def Unbroken (p : α → Bool) (limit : ℕ) (l : List α) : Prop :=
  ∀ before x after, l = before ++ x :: after → p x = false →
    before.countP p = 0 ∨ limit ≤ before.countP p ∨ before.countP p + after.countP p < limit

/-- A list as what is left out and its last elements. -/
theorem split_last (h : limit ≤ l.length) : ∃ before, l = before ++ l.rtake limit ∧
    (l.rtake limit).length = limit := by
  refine ⟨l.take (l.length - limit), (List.take_append_drop _ _).symm, ?_⟩
  rw [List.rtake, List.length_drop]
  omega

theorem Streak.countP_last (h : Streak p limit l) : (l.rtake limit).countP p = limit := by
  obtain ⟨-, -, hlength⟩ := split_last h.1
  rw [List.countP_eq_length.mpr fun x hx => h.2 x hx, hlength]

theorem Streak.le_countP (h : Streak p limit l) : limit ≤ l.countP p := by
  obtain ⟨before, hsplit, -⟩ := split_last h.1
  rw [hsplit, List.countP_append, h.countP_last]
  omega

/-- In a streak with nothing more marked than the streak, no unmarked element comes
after a marked one. -/
theorem Streak.countP_before (h : Streak p limit l) (hcount : l.countP p = limit)
    {before after : List α} {x : α} (hl : l = before ++ x :: after) (hx : p x = false) :
    before.countP p = 0 := by
  obtain ⟨old, hsplit, -⟩ := split_last h.1
  have hold : old.countP p = 0 := by
    rw [hsplit, List.countP_append, h.countP_last] at hcount
    omega
  -- the unmarked element is not in the streak
  rcases Nat.lt_or_ge before.length old.length with hlt | hge
  · have hprefix : before <+: old := by
      apply @List.prefix_of_prefix_length_le _ _ _ l ?_ ?_ (by omega)
      · exact ⟨x :: after, hl.symm⟩
      · exact ⟨l.rtake limit, hsplit.symm⟩
    have := hprefix.sublist.countP_le (p := p)
    omega
  · exfalso
    have hmem : x ∈ l.rtake limit := by
      have hdrop : l.rtake limit = l.drop old.length := by
        conv_rhs => rw [hsplit]
        rw [List.drop_left]
      rw [hdrop, hl, List.drop_append_of_le_length hge]
      exact List.mem_append_right _ List.mem_cons_self
    rw [h.2 x hmem] at hx
    cases hx

/-- If no unmarked element comes after a marked one, the marked ones are a streak. -/
theorem streak_of_countP (hcount : l.countP p = limit)
    (h : ∀ before x after, l = before ++ x :: after → p x = false → before.countP p = 0) :
    Streak p limit l := by
  have hle : limit ≤ l.length := hcount ▸ List.countP_le_length
  refine ⟨hle, ?_⟩
  intro x hx
  by_contra hmarked
  rw [Bool.not_eq_true] at hmarked
  obtain ⟨old, hsplit, hlength⟩ := split_last hle
  obtain ⟨before, after, hlast⟩ := List.append_of_mem hx
  have hl : l = (old ++ before) ++ x :: after := by
    rw [List.append_assoc, ← hlast]
    exact hsplit
  have hzero := h _ x after hl hmarked
  rw [hl, List.countP_append, hzero, List.countP_cons_of_neg (by simp [hmarked])] at hcount
  have hbound : after.countP p ≤ after.length := List.countP_le_length
  have hshort := congrArg List.length hlast
  rw [hlength, List.length_append, List.length_cons] at hshort
  omega

/-- Where a streak ends, the count has reached the limit, now or earlier. -/
theorem reaches_of_streak {n : ℕ} (hn : n < l.length) (h : Streak p limit (l.take (n + 1)))
    (hbelow : (l.take n).countP p < limit) : Reaches p limit l n := by
  refine ⟨hn, hbelow, le_antisymm ?_ h.le_countP⟩
  rw [List.take_add_one, List.countP_append, List.getElem?_eq_getElem hn, Option.toList_some]
  have := List.countP_le_length (p := p) (l := [l[n]])
  rw [List.length_singleton] at this
  omega

/-- A count that is large enough was the limit once. -/
theorem exists_reaches (hlimit : 0 < limit) (h : limit ≤ l.countP p) : ∃ n, Reaches p limit l n := by
  induction l using List.reverseRecOn with
  | nil =>
      rw [List.countP_nil] at h
      omega
  | append_singleton l x ih =>
      rcases Nat.lt_or_ge (l.countP p) limit with hlt | hge
      · refine ⟨l.length, ?_, ?_, ?_⟩
        · rw [List.length_append, List.length_singleton]
          omega
        · rw [List.take_left]
          exact hlt
        · rw [List.take_of_length_le (by simp)]
          rw [List.countP_append] at h ⊢
          have := List.countP_le_length (p := p) (l := [x])
          rw [List.length_singleton] at this
          omega
      · obtain ⟨n, hn, hbelow, hreach⟩ := ih hge
        refine ⟨n, ?_, ?_, ?_⟩
        · rw [List.length_append]
          omega
        · rwa [List.take_append_of_le_length (by omega)]
        · rwa [List.take_append_of_le_length (by omega)]

/-- The two ways of counting agree. -/
theorem unbroken_iff (hlimit : 0 < limit) :
    Unbroken p limit l ↔ ∀ n, Reaches p limit l n → Streak p limit (l.take (n + 1)) := by
  constructor
  · rintro h n ⟨hn, hbelow, hreach⟩
    apply streak_of_countP hreach
    intro before x after hsplit hx
    have hl : l = before ++ x :: (after ++ l.drop (n + 1)) := by
      rw [← List.cons_append, ← List.append_assoc, ← hsplit, List.take_append_drop]
    rcases h before x _ hl hx with hzero | hfull | hfew
    · exact hzero
    · -- the unmarked element would come after the one that makes the limit full
      exfalso
      have hlen := congrArg List.length hsplit
      rw [List.length_take, List.length_append, List.length_cons] at hlen
      have hprefix : before <+: l.take n := by
        apply @List.prefix_of_prefix_length_le _ _ _ l ?_ (List.take_prefix _ _)
        · rw [List.length_take]
          omega
        · exact ⟨x :: (after ++ l.drop (n + 1)), hl.symm⟩
      have := hprefix.sublist.countP_le (p := p)
      omega
    · exfalso
      rw [hsplit, List.countP_append, List.countP_cons_of_neg (by simp [hx])] at hreach
      rw [List.countP_append] at hfew
      omega
  · intro h before x after hl hx
    by_contra hnot
    rw [not_or, not_or] at hnot
    obtain ⟨hsome, hbelow, hmany⟩ := hnot
    have hcount : limit ≤ l.countP p := by
      rw [hl, List.countP_append, List.countP_cons_of_neg (by simp [hx])]
      omega
    obtain ⟨n, hn, hlt, hreach⟩ := exists_reaches hlimit hcount
    have hstreak := h n ⟨hn, hlt, hreach⟩
    have hlen : before.length < n + 1 := by
      by_contra hle
      have hprefix : l.take (n + 1) <+: before := by
        apply List.prefix_of_prefix_length_le (List.take_prefix _ l) ⟨x :: after, hl.symm⟩
        rw [List.length_take]
        omega
      have := hprefix.sublist.countP_le (p := p)
      omega
    have htake : l.take (n + 1) = before ++ x :: after.take (n - before.length) := by
      rw [hl, List.take_append, List.take_of_length_le (by omega)]
      have hsub : n + 1 - before.length = n - before.length + 1 := by omega
      rw [hsub, List.take_succ_cons]
    exact hsome (hstreak.countP_before hreach htake hx)

end EasyBlockchain.Lib
