/-
Bounded sets of the most recent elements.

A history lists elements as they are added, with repetitions. Its most recent
distinct elements, the newest last, are the end of `history.dedup`, which keeps the
last occurrence of each. Moving an element to the end and dropping the front keeps a
list equal to that, so nothing has to be known of the history any more.
-/
import Mathlib.Data.List.Dedup
import Mathlib.Data.List.DropRight
import Mathlib.Data.List.Induction

set_option autoImplicit false

namespace EasyBlockchain.Lib.Recency

variable {α : Type*} [DecidableEq α]

/-- The `bound` most recent distinct elements of the history, the newest last. -/
def newest (bound : ℕ) (history : List α) : List α := history.dedup.rtake bound

/-- `x` becomes the newest, and the oldest make room. -/
def touch (bound : ℕ) (table : List α) (x : α) : List α :=
  (table.filter (· ≠ x) ++ [x]).rtake bound

@[simp] theorem newest_nil (bound : ℕ) : newest bound ([] : List α) = [] := by
  simp [newest, List.rtake]

theorem dedup_snoc (history : List α) (x : α) :
    (history ++ [x]).dedup = history.dedup.filter (· ≠ x) ++ [x] := by
  induction history with
  | nil => rfl
  | cons y rest ih =>
      rw [List.cons_append]
      by_cases hy : y ∈ rest
      · rw [List.dedup_cons_of_mem (List.mem_append_left _ hy), List.dedup_cons_of_mem hy, ih]
      · by_cases hx : y = x
        · subst hx
          rw [List.dedup_cons_of_mem (List.mem_append_right _ List.mem_cons_self),
            List.dedup_cons_of_notMem hy, ih, List.filter_cons_of_neg (by simp)]
        · have hmem : y ∉ rest ++ [x] := by simp [hy, hx]
          rw [List.dedup_cons_of_notMem hmem, List.dedup_cons_of_notMem hy, ih,
            List.filter_cons_of_pos (by simpa using hx), List.cons_append]

omit [DecidableEq α] in
/-- What lies before enough elements is dropped. -/
theorem rtake_append_of_le {bound : ℕ} {old recent : List α} (h : bound ≤ recent.length) :
    (old ++ recent).rtake bound = recent.rtake bound := by
  unfold List.rtake
  rw [List.length_append, List.drop_append, List.drop_eq_nil_of_le (by omega), List.nil_append]
  congr 1
  omega

/-- Of a list without repetitions at most one element is left out. -/
theorem length_filter_ne {l : List α} (h : l.Nodup) (x : α) :
    l.length ≤ (l.filter (· ≠ x)).length + 1 := by
  have hsplit := List.length_eq_length_filter_add (l := l) (· = x)
  have hone : (l.filter (· = x)).length ≤ 1 := by
    rw [← List.countP_eq_length_filter]
    have := List.nodup_iff_count_le_one.mp h x
    rwa [List.count] at this
  have hsame : (l.filter fun y => !decide (y = x)) = l.filter (· ≠ x) := by
    simp only [ne_eq, decide_not]
  rw [hsame] at hsplit
  omega

/-- The table of the most recent elements after one more addition. -/
theorem newest_snoc (bound : ℕ) (history : List α) (x : α) :
    newest bound (history ++ [x]) = touch bound (newest bound history) x := by
  rw [newest, dedup_snoc, touch, newest]
  generalize hD : history.dedup = D
  have hnodup : D.Nodup := hD ▸ List.nodup_dedup history
  rcases Nat.lt_or_ge bound D.length with hlong | hshort
  · -- the elements left out are older than `bound` others
    have hsplit : D.take (D.length - bound) ++ D.rtake bound = D := List.take_append_drop _ _
    have hlen : (D.rtake bound).length = bound := by
      rw [List.rtake, List.length_drop]
      omega
    have hrecent : (D.rtake bound).Nodup := hnodup.sublist (List.drop_sublist _ _)
    have hfilter := length_filter_ne hrecent x
    conv_lhs => rw [← hsplit, List.filter_append, List.append_assoc]
    apply rtake_append_of_le
    rw [List.length_append, List.length_singleton]
    omega
  · rw [List.rtake, List.rtake, List.rtake, Nat.sub_eq_zero_of_le hshort, List.drop_zero]

theorem nodup_newest (bound : ℕ) (history : List α) : (newest bound history).Nodup :=
  (List.nodup_dedup history).sublist (List.drop_sublist _ _)

theorem length_newest_le (bound : ℕ) (history : List α) : (newest bound history).length ≤ bound := by
  rw [newest, List.rtake, List.length_drop]
  omega

/-- What was just added is the newest. -/
theorem getLast?_newest_snoc {bound : ℕ} (hbound : 0 < bound) (history : List α) (x : α) :
    (newest bound (history ++ [x])).getLast? = some x := by
  have hconcat : newest bound (history ++ [x])
      = (history.dedup.filter (· ≠ x)).rtake (bound - 1) ++ [x] := by
    rw [newest, dedup_snoc, List.rtake, List.rtake, List.length_append, List.length_singleton,
      List.drop_append_of_le_length (by omega)]
    congr 2
    omega
  rw [hconcat, List.getLast?_concat]

end EasyBlockchain.Lib.Recency
