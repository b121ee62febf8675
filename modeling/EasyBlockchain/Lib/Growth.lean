/-
Lists that grow one element at a time under a condition on the elements already
there, and the loops that check such a condition.

`Grows P xs` says that each element of `xs` may follow the elements before it.
The property is closed under prefixes by its form, and it has a longest prefix
on every list; a loop over `enumerate(xs)` that returns early at the first
element it refuses decides it. The loop is `enumerate`, whose body sees its
state, the elements already passed (so `xs[index - 1]`, `xs[:index]` and
`index` itself) and the current element.
-/
import Mathlib.Data.List.Infix
import Mathlib.Order.Bounds.Basic
import Mathlib.Tactic.Common

set_option autoImplicit false

namespace EasyBlockchain.Lib

/-! ## Growth -/

section Growth

variable {α : Type*} {P Q : List α → α → Prop}

/-- Each element of the list may follow `seen` and the elements before it. -/
def GrowsFrom (P : List α → α → Prop) : List α → List α → Prop
  | _, [] => True
  | seen, x :: xs => P seen x ∧ GrowsFrom P (seen ++ [x]) xs

/-- Each element of the list may follow the elements before it. -/
def Grows (P : List α → α → Prop) (xs : List α) : Prop := GrowsFrom P [] xs

theorem growsFrom_append {seen xs ys : List α} :
    GrowsFrom P seen (xs ++ ys) ↔ GrowsFrom P seen xs ∧ GrowsFrom P (seen ++ xs) ys := by
  induction xs generalizing seen with
  | nil => simp [GrowsFrom]
  | cons x xs ih =>
      simp only [List.cons_append, GrowsFrom, ih, and_assoc, List.append_assoc, List.nil_append]

@[simp] theorem grows_nil : Grows P [] := trivial

/-- Growing past an element and stopping before it are one step apart. -/
theorem grows_snoc {xs : List α} {x : α} : Grows P (xs ++ [x]) ↔ Grows P xs ∧ P xs x := by
  simp only [Grows, growsFrom_append, List.nil_append, GrowsFrom, and_true]

theorem Grows.prefix_closed {xs ys : List α} (h : Grows P ys) (hpre : xs <+: ys) : Grows P xs := by
  obtain ⟨zs, rfl⟩ := hpre
  exact (growsFrom_append.mp h).1

/-- Growth, one position at a time. -/
theorem grows_iff_split {xs : List α} :
    Grows P xs ↔ ∀ pre x post, xs = pre ++ x :: post → P pre x := by
  constructor
  · intro h pre x post hsplit
    subst hsplit
    exact (growsFrom_append.mp h).2.1
  · intro h
    induction xs using List.reverseRecOn with
    | nil => exact grows_nil
    | append_singleton xs x ih =>
        refine grows_snoc.mpr ⟨ih fun pre y post hsplit => ?_, h xs x [] rfl⟩
        exact h pre y (post ++ [x]) (by rw [hsplit]; simp)

/-- Growth, one index at a time. -/
theorem grows_iff_getElem {xs : List α} :
    Grows P xs ↔ ∀ (i : ℕ) (hi : i < xs.length), P (xs.take i) xs[i] := by
  rw [grows_iff_split]
  constructor
  · intro h i hi
    exact h (xs.take i) xs[i] (xs.drop (i + 1)) (by simp)
  · rintro h pre x post rfl
    simpa using h pre.length (by simp)

theorem Grows.getElem {xs : List α} (h : Grows P xs) {i : ℕ} (hi : i < xs.length) :
    P (xs.take i) xs[i] :=
  grows_iff_getElem.mp h i hi

/-- A weaker condition is met by every list that meets a stronger one. The
prefixes may be used, since they grow under the stronger condition already. -/
theorem Grows.imp {xs : List α} (hPQ : ∀ pre x, Grows P pre → P pre x → Q pre x)
    (h : Grows P xs) : Grows Q xs := by
  induction xs using List.reverseRecOn with
  | nil => exact grows_nil
  | append_singleton xs x ih =>
      obtain ⟨hxs, hx⟩ := grows_snoc.mp h
      exact grows_snoc.mpr ⟨ih hxs, hPQ xs x hxs hx⟩

/-- The invariant rule: what holds of the empty list and survives every
permitted step holds of every list that grows by permitted steps. -/
theorem Grows.rule {I : List α → Prop} (hnil : I [])
    (hstep : ∀ pre x, Grows P pre → I pre → P pre x → I (pre ++ [x])) {xs : List α}
    (h : Grows P xs) : I xs := by
  induction xs using List.reverseRecOn with
  | nil => exact hnil
  | append_singleton xs x ih =>
      obtain ⟨hxs, hx⟩ := grows_snoc.mp h
      exact hstep xs x hxs (ih hxs) hx

/-- Where growth stops for the first time, the prefix before is the longest. -/
theorem isGreatest_of_stop {xs pre post : List α} {x : α} (hsplit : xs = pre ++ x :: post)
    (hpre : Grows P pre) (hx : ¬ P pre x) :
    IsGreatest {n | n ≤ xs.length ∧ Grows P (xs.take n)} pre.length := by
  subst hsplit
  refine ⟨⟨by simp, by simpa using hpre⟩, ?_⟩
  rintro n ⟨hn, hgrows⟩
  by_contra hlt
  have hpref : pre ++ [x] <+: (pre ++ x :: post).take n := by
    rw [show pre ++ x :: post = (pre ++ [x]) ++ post by simp, List.prefix_take_iff]
    exact ⟨List.prefix_append _ _, by simp; omega⟩
  exact hx (grows_snoc.mp (hgrows.prefix_closed hpref)).2

end Growth

/-! ## Forks -/

section Forks

variable {α : Type*} {R : α → α → Prop}

/-- The first list is a beginning of the second, element by element up to `R`. -/
def PrefixUpTo (R : α → α → Prop) (xs ys : List α) : Prop :=
  ∃ pre, pre <+: ys ∧ List.Forall₂ R xs pre

theorem prefixUpTo_nil (ys : List α) : PrefixUpTo R [] ys :=
  ⟨[], List.nil_prefix, List.Forall₂.nil⟩

theorem PrefixUpTo.cons {x y : α} {xs ys : List α} (hxy : R x y) (h : PrefixUpTo R xs ys) :
    PrefixUpTo R (x :: xs) (y :: ys) := by
  obtain ⟨pre, hpre, hrel⟩ := h
  exact ⟨y :: pre, (List.prefix_cons_inj y).mpr hpre, List.Forall₂.cons hxy hrel⟩

/-- Two lists of which neither begins the other have a first difference. -/
theorem exists_first_difference (hsymm : ∀ x y, R x y → R y x) {xs ys : List α}
    (hxs : ¬ PrefixUpTo R xs ys) (hys : ¬ PrefixUpTo R ys xs) :
    ∃ pre x post pre' y post', xs = pre ++ x :: post ∧ ys = pre' ++ y :: post' ∧
      List.Forall₂ R pre pre' ∧ ¬ R x y := by
  induction xs generalizing ys with
  | nil => exact absurd (prefixUpTo_nil ys) hxs
  | cons x xs ih =>
      rcases ys with _ | ⟨y, ys⟩
      · exact absurd (prefixUpTo_nil _) hys
      by_cases hxy : R x y
      · -- the heads agree, so the difference is further on
        have hxs' : ¬ PrefixUpTo R xs ys := fun h => hxs (h.cons hxy)
        have hys' : ¬ PrefixUpTo R ys xs := fun h => hys (h.cons (hsymm x y hxy))
        obtain ⟨pre, u, post, pre', v, post', rfl, rfl, hpre, huv⟩ := ih hxs' hys'
        exact ⟨x :: pre, u, post, y :: pre', v, post', rfl, rfl, List.Forall₂.cons hxy hpre, huv⟩
      · exact ⟨[], x, xs, [], y, ys, rfl, rfl, List.Forall₂.nil, hxy⟩

end Forks

/-! ## Loops with an early return -/

/-- How one pass through a loop body ends. -/
inductive Pass (σ ρ : Type*)
  /-- on to the next element, with a new state -/
  | next (s : σ)
  /-- out of the function -/
  | ret (r : ρ)

section Loop

variable {ε α σ ρ : Type*}

/-- `for index, x in enumerate(xs)` with a state and an early return; the body
is given the elements already passed. -/
def enumerate (body : σ → List α → α → Except ε (Pass σ ρ)) :
    σ → List α → List α → Except ε (Pass σ ρ)
  | s, _, [] => .ok (.next s)
  | s, seen, x :: xs =>
    match body s seen x with
    | .error e => .error e
    | .ok (.ret r) => .ok (.ret r)
    | .ok (.next s') => enumerate body s' (seen ++ [x]) xs

variable {body : σ → List α → α → Except ε (Pass σ ρ)} {P : List α → α → Prop} {I : List α → σ}

/-- The loop runs to its end exactly on the lists that grow under the condition
its body checks; `I` is the state after a prefix. -/
theorem enumerate_eq_next
    (hbody : ∀ pre x s, body (I pre) pre x = .ok (.next s) ↔ P pre x ∧ s = I (pre ++ [x]))
    {seen xs : List α} {s : σ} :
    enumerate body (I seen) seen xs = .ok (.next s) ↔ GrowsFrom P seen xs ∧ s = I (seen ++ xs) := by
  induction xs generalizing seen with
  | nil =>
      simp only [enumerate, GrowsFrom, List.append_nil, true_and, Except.ok.injEq, Pass.next.injEq]
      exact eq_comm
  | cons x xs ih =>
      rw [enumerate, GrowsFrom]
      have hstep := hbody seen x
      rcases hb : body (I seen) seen x with e | r
      · have hx : ¬ P seen x := fun hx => by simpa [hb] using (hstep _).mpr ⟨hx, rfl⟩
        simp [hx]
      · rcases r with s' | r
        · obtain ⟨hx, rfl⟩ := (hstep s').mp hb
          simp only [ih, hx, true_and, List.append_assoc, List.singleton_append]
        · have hx : ¬ P seen x := fun hx => by simpa [hb] using (hstep _).mpr ⟨hx, rfl⟩
          simp [hx]

/-- A list that the loop runs through grows under every condition that a pass of
the body implies. -/
theorem growsFrom_of_enumerate
    (hbody : ∀ s pre x s', body s pre x = .ok (.next s') → P pre x) {seen xs : List α} {s s' : σ}
    (h : enumerate body s seen xs = .ok (.next s')) : GrowsFrom P seen xs := by
  induction xs generalizing s seen with
  | nil => exact trivial
  | cons x xs ih =>
      rw [enumerate] at h
      split at h
      · cases h
      · cases h
      · rename_i hpass
        exact ⟨hbody _ _ _ _ hpass, ih h⟩

/-- What the loop returns early, a pass of its body returned. -/
theorem ret_of_enumerate {Q : ρ → Prop} (hbody : ∀ s pre x r, body s pre x = .ok (.ret r) → Q r)
    {seen xs : List α} {s : σ} {r : ρ} (h : enumerate body s seen xs = .ok (.ret r)) : Q r := by
  induction xs generalizing s seen with
  | nil => cases h
  | cons x xs ih =>
      rw [enumerate] at h
      split at h
      · cases h
      · rename_i hpass
        obtain rfl := Pass.ret.inj (Except.ok.inj h)
        exact hbody _ _ _ _ hpass
      · exact ih h

/-- An early return comes from the first element that the condition refuses. -/
theorem enumerate_eq_ret
    (hbody : ∀ pre x s, body (I pre) pre x = .ok (.next s) ↔ P pre x ∧ s = I (pre ++ [x]))
    {seen xs : List α} {r : ρ} (h : enumerate body (I seen) seen xs = .ok (.ret r)) :
    ∃ pre x post, xs = pre ++ x :: post ∧ GrowsFrom P seen pre ∧ ¬ P (seen ++ pre) x ∧
      body (I (seen ++ pre)) (seen ++ pre) x = .ok (.ret r) := by
  induction xs generalizing seen with
  | nil => simp [enumerate] at h
  | cons x xs ih =>
      rw [enumerate] at h
      have hstep := hbody seen x
      rcases hb : body (I seen) seen x with e | r'
      · simp [hb] at h
      · rcases r' with s' | r'
        · obtain ⟨hx, rfl⟩ := (hstep s').mp hb
          simp only [hb] at h
          obtain ⟨pre, y, post, rfl, hpre, hy, hret⟩ := ih h
          refine ⟨x :: pre, y, post, rfl, ⟨hx, hpre⟩, ?_, ?_⟩
          · simpa using hy
          · simpa using hret
        · simp only [hb, Except.ok.injEq, Pass.ret.injEq] at h
          subst h
          refine ⟨[], x, xs, rfl, trivial, ?_, by simpa using hb⟩
          intro hx
          simpa [hb] using (hstep _).mpr ⟨by simpa using hx, rfl⟩

/-- The loop ends without an exception where no pass raises; a pass is made of
every element up to the first that the condition refuses. -/
theorem enumerate_ok_iff
    (hbody : ∀ pre x s, body (I pre) pre x = .ok (.next s) ↔ P pre x ∧ s = I (pre ++ [x]))
    {seen xs : List α} :
    (∃ out, enumerate body (I seen) seen xs = .ok out) ↔
      ∀ pre x post, xs = pre ++ x :: post → GrowsFrom P seen pre →
        ∃ pass, body (I (seen ++ pre)) (seen ++ pre) x = .ok pass := by
  induction xs generalizing seen with
  | nil =>
      refine iff_of_true ⟨_, rfl⟩ ?_
      intro pre x post h
      simp at h
  | cons x xs ih =>
      rw [enumerate]
      rcases hb : body (I seen) seen x with e | s' | r
      · refine iff_of_false (by simp) ?_
        intro h
        obtain ⟨pass, hpass⟩ := h [] x xs rfl trivial
        rw [List.append_nil, hb] at hpass
        cases hpass
      · obtain ⟨hx, rfl⟩ := (hbody seen x s').mp hb
        simp only [ih]
        constructor
        · rintro h (_ | ⟨y, pre⟩) z post hsplit hgrows
          · obtain ⟨rfl, -⟩ := List.cons.inj hsplit
            rw [List.append_nil]
            exact ⟨_, hb⟩
          · obtain ⟨rfl, hrest⟩ := List.cons.inj hsplit
            simpa using h pre z post hrest hgrows.2
        · intro h pre z post hsplit hgrows
          simpa using h (x :: pre) z post (by rw [hsplit]; rfl) ⟨hx, hgrows⟩
      · refine iff_of_true ⟨_, rfl⟩ ?_
        rintro (_ | ⟨y, pre⟩) z post hsplit hgrows
        · obtain ⟨rfl, -⟩ := List.cons.inj hsplit
          rw [List.append_nil]
          exact ⟨_, hb⟩
        · -- the loop ended before the later elements
          obtain ⟨rfl, -⟩ := List.cons.inj hsplit
          have hnext := (hbody seen x _).mpr ⟨hgrows.1, rfl⟩
          rw [hb] at hnext
          cases hnext

end Loop

end EasyBlockchain.Lib
