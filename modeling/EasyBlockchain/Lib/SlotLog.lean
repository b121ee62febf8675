/-
Logs kept by several parties, with one writer for each position.

A party whose turn it is writes at the end of its own log; every party may take
over a log that is at least as long as its own and whose entries were all
written where they stand. A position is then written once, so any two logs, of
any two parties at any two times, are beginnings one of the other, and no party
ever takes an entry back.
-/
import Mathlib.Data.List.Infix
import Mathlib.Logic.Function.Basic
import Mathlib.Tactic.Common

set_option autoImplicit false

namespace EasyBlockchain.Lib

variable {ι κ : Type*}

/-- The logs of the parties, and all that was written, with its position. -/
structure Logs (ι κ : Type*) where
  log : ι → List κ
  written : List (ℕ × κ)

/-- Each entry of the log was written where it stands. -/
def Covered (written : List (ℕ × κ)) (log : List κ) : Prop :=
  ∀ n c, log[n]? = some c → (n, c) ∈ written

/-- No position was written twice. -/
def WrittenOnce (written : List (ℕ × κ)) : Prop :=
  ∀ n c c', (n, c) ∈ written → (n, c') ∈ written → c = c'

/-- One step of one party. -/
inductive LogStep [DecidableEq ι] (writer : ℕ → Option ι) (before after : Logs ι κ) : Prop
  | stay (same : after = before)
  | write (i : ι) (c : κ) (turn : writer (before.log i).length = some i)
      (writes : after = ⟨Function.update before.log i (before.log i ++ [c]),
        before.written ++ [((before.log i).length, c)]⟩)
  | adopt (i : ι) (log : List κ) (longer : (before.log i).length ≤ log.length)
      (covered : Covered before.written log)
      (adopts : after = ⟨Function.update before.log i log, before.written⟩)

/-- What every step keeps. -/
structure SingleWriter (writer : ℕ → Option ι) (s : Logs ι κ) : Prop where
  covered : ∀ i, Covered s.written (s.log i)
  passed : ∀ n c, (n, c) ∈ s.written → ∃ i, writer n = some i ∧ n < (s.log i).length
  once : WrittenOnce s.written

/-- Nothing is written and all logs are empty. -/
theorem singleWriter_empty (writer : ℕ → Option ι) :
    SingleWriter writer (⟨fun _ => [], []⟩ : Logs ι κ) where
  covered _ n c h := by simp at h
  passed n c h := by cases h
  once n c c' h := by cases h

theorem Covered.mono {written more : List (ℕ × κ)} {log : List κ} (h : Covered written log)
    (hsub : written ⊆ more) : Covered more log :=
  fun n c hc => hsub (h n c hc)

/-- Of two logs that were written once, one begins with the other. -/
theorem WrittenOnce.comparable {written : List (ℕ × κ)} (h : WrittenOnce written)
    {log log' : List κ} (hlog : Covered written log) (hlog' : Covered written log') :
    log <+: log' ∨ log' <+: log := by
  have hbegins : ∀ {a b : List κ}, Covered written a → Covered written b →
      a.length ≤ b.length → a <+: b := by
    intro a b ha hb hle
    rw [List.prefix_iff_getElem?]
    intro n hn
    have hnb : n < b.length := by omega
    have hca : a[n]? = some a[n] := List.getElem?_eq_getElem hn
    have hcb : b[n]? = some b[n] := List.getElem?_eq_getElem hnb
    rw [hcb, h n a[n] b[n] (ha n a[n] hca) (hb n b[n] hcb)]
  rcases Nat.le_total log.length log'.length with hle | hle
  · exact Or.inl (hbegins hlog hlog' hle)
  · exact Or.inr (hbegins hlog' hlog hle)

variable [DecidableEq ι] {writer : ℕ → Option ι} {before after : Logs ι κ}

/-- No step takes back what was written. -/
theorem LogStep.written_subset (h : LogStep writer before after) :
    before.written ⊆ after.written := by
  cases h with
  | stay same => rw [same]; exact List.Subset.refl _
  | write i c turn writes => rw [writes]; exact List.subset_append_left _ _
  | adopt i log longer covered adopts => rw [adopts]; exact List.Subset.refl _

/-- No step shortens a log. -/
theorem LogStep.length_le (h : LogStep writer before after) (j : ι) :
    (before.log j).length ≤ (after.log j).length := by
  cases h with
  | stay same => rw [same]
  | write i c turn writes =>
      rw [writes]
      by_cases hj : j = i
      · subst hj
        simp
      · simp [Function.update_of_ne hj]
  | adopt i log longer covered adopts =>
      rw [adopts]
      by_cases hj : j = i
      · subst hj
        simpa using longer
      · simp [Function.update_of_ne hj]

/-- The step lemma. -/
theorem SingleWriter.step (hinv : SingleWriter writer before) (h : LogStep writer before after) :
    SingleWriter writer after := by
  have hlength := h.length_le
  cases h with
  | stay same =>
      rw [same]
      exact hinv
  | adopt i log longer covered adopts =>
      subst adopts
      refine ⟨?_, ?_, hinv.once⟩
      · intro j
        by_cases hj : j = i
        · subst hj
          simpa using covered
        · simpa [Function.update_of_ne hj] using hinv.covered j
      · intro n c hc
        obtain ⟨j, hwriter, hlt⟩ := hinv.passed n c hc
        exact ⟨j, hwriter, lt_of_lt_of_le hlt (hlength j)⟩
  | write i c turn writes =>
      subst writes
      -- the writer's own log has passed every position that was its turn
      have hfresh : ∀ c', ((before.log i).length, c') ∉ before.written := by
        intro c' hc'
        obtain ⟨j, hwriter, hlt⟩ := hinv.passed _ c' hc'
        rw [turn, Option.some.injEq] at hwriter
        rw [← hwriter] at hlt
        omega
      refine ⟨?_, ?_, ?_⟩
      · intro j
        by_cases hj : j = i
        · subst hj
          intro n d hd
          simp only [Function.update_self] at hd
          rcases Nat.lt_or_ge n (before.log j).length with hn | hn
          · rw [List.getElem?_append_left hn] at hd
            exact List.mem_append_left _ (hinv.covered j n d hd)
          · rw [List.getElem?_append_right hn, List.getElem?_singleton] at hd
            split at hd
            · rename_i hzero
              obtain rfl := Option.some.inj hd
              have hn' : n = (before.log j).length := by omega
              rw [hn']
              exact List.mem_append_right _ (List.mem_singleton.mpr rfl)
            · cases hd
        · simp only [Function.update_of_ne hj]
          exact (hinv.covered j).mono (List.subset_append_left _ _)
      · intro n d hd
        rcases List.mem_append.mp hd with hd | hd
        · obtain ⟨j, hwriter, hlt⟩ := hinv.passed n d hd
          exact ⟨j, hwriter, lt_of_lt_of_le hlt (hlength j)⟩
        · obtain ⟨rfl, rfl⟩ := Prod.mk.inj (List.mem_singleton.mp hd)
          exact ⟨i, turn, by simp⟩
      · intro n d d' hd hd'
        rcases List.mem_append.mp hd with hd | hd <;> rcases List.mem_append.mp hd' with hd' | hd'
        · exact hinv.once n d d' hd hd'
        · obtain ⟨rfl, -⟩ := Prod.mk.inj (List.mem_singleton.mp hd')
          exact absurd hd (hfresh d)
        · obtain ⟨rfl, -⟩ := Prod.mk.inj (List.mem_singleton.mp hd)
          exact absurd hd' (hfresh d')
        · rw [(Prod.mk.inj (List.mem_singleton.mp hd)).2, (Prod.mk.inj (List.mem_singleton.mp hd')).2]

section Runs

variable {states : ℕ → Logs ι κ} (hsteps : ∀ k, LogStep writer (states k) (states (k + 1)))
include hsteps

/-- The run lemma. -/
theorem SingleWriter.steps (h : SingleWriter writer (states 0)) (k : ℕ) :
    SingleWriter writer (states k) := by
  induction k with
  | zero => exact h
  | succ k ih => exact ih.step (hsteps k)

theorem written_subset_of_steps {s t : ℕ} (hst : s ≤ t) :
    (states s).written ⊆ (states t).written := by
  induction t, hst using Nat.le_induction with
  | base => exact List.Subset.refl _
  | succ t _ ih => exact List.Subset.trans ih (hsteps t).written_subset

theorem length_le_of_steps (i : ι) {s t : ℕ} (hst : s ≤ t) :
    ((states s).log i).length ≤ ((states t).log i).length := by
  induction t, hst using Nat.le_induction with
  | base => exact le_refl _
  | succ t _ ih => exact le_trans ih ((hsteps t).length_le i)

/-- Of two logs, of any parties at any times, one begins with the other. -/
theorem SingleWriter.agree (h : SingleWriter writer (states 0)) (i j : ι) (s t : ℕ) :
    (states s).log i <+: (states t).log j ∨ (states t).log j <+: (states s).log i := by
  set last := max s t
  have hcovered : ∀ k ≤ last, ∀ p, Covered (states last).written ((states k).log p) :=
    fun k hk p => ((h.steps hsteps k).covered p).mono (written_subset_of_steps hsteps hk)
  exact (h.steps hsteps last).once.comparable (hcovered s (le_max_left s t) i)
    (hcovered t (le_max_right s t) j)

/-- A party never takes an entry back. -/
theorem SingleWriter.no_rollback (h : SingleWriter writer (states 0)) (i : ι) {s t : ℕ}
    (hst : s ≤ t) : (states s).log i <+: (states t).log i := by
  rcases h.agree hsteps i i s t with hpre | hpre
  · exact hpre
  · rw [hpre.eq_of_length (le_antisymm hpre.length_le (length_le_of_steps hsteps i hst))]

end Runs

end EasyBlockchain.Lib
