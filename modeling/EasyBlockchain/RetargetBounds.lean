/-
The formula of `get_difficulty` in exact rational arithmetic.

`retarget` is what the two branches compute when no operation rounds: a quotient
by the ratio of the times, clamped to the factor on each side, and integers taken
downwards. It is bounded and antitone in the ratio over any ordered field, and
`get_difficulty` returns it on a window whose blocks have times.
-/
import EasyBlockchain.PowRetarget

set_option autoImplicit false

namespace EasyBlockchain

open Py Lib

/-! ## The formula -/

section Formula

variable {K : Type} [Field K] [LinearOrder K] [IsStrictOrderedRing K] [FloorRing K]

/-- The difficulty after a window whose length is `ratio` times the expected one. -/
def retarget (factor : K) (first : ℤ) (ratio : K) : ℤ :=
  if 1 < ratio then max (max 1 ⌊first / min ratio factor⌋) ⌈first / factor⌉
  else if ratio < 1 then max 1 ⌊first / max ratio (1 / factor)⌋
  else first

variable {factor ratio : K} {first : ℤ}

omit [IsStrictOrderedRing K] in
theorem retarget_one : retarget factor first (1 : K) = first := by
  rw [retarget, if_neg (lt_irrefl 1), if_neg (lt_irrefl 1)]

omit [IsStrictOrderedRing K] in
theorem one_le_retarget (hfirst : 1 ≤ first) : 1 ≤ retarget factor first ratio := by
  unfold retarget
  split_ifs
  · exact le_trans (le_max_left _ _) (le_max_left _ _)
  · exact le_max_left _ _
  · exact hfirst

/-- An integer divided by a number above one. -/
theorem floor_div_le {x : K} (hfirst : 0 ≤ first) (hx : 1 ≤ x) : ⌊(first : K) / x⌋ ≤ first := by
  have hle : (first : K) / x ≤ first := div_le_self (by exact_mod_cast hfirst) hx
  calc ⌊(first : K) / x⌋ ≤ ⌊(first : K)⌋ := Int.floor_le_floor hle
    _ = first := Int.floor_intCast first

variable (hfirst : 1 ≤ first) (hfactor : 1 ≤ factor)
include hfirst hfactor

theorem ceil_div_le : ⌈(first : K) / factor⌉ ≤ first :=
  Int.ceil_le.mpr (div_le_self (by exact_mod_cast (by omega : (0 : ℤ) ≤ first)) hfactor)

theorem le_floor_mul : first ≤ ⌊(first : K) * factor⌋ := by
  have hpos : (0 : K) ≤ first := by exact_mod_cast (by omega : (0 : ℤ) ≤ first)
  exact Int.le_floor.mpr (le_mul_of_one_le_right hpos hfactor)

/-- A window that took too long does not raise the difficulty. -/
theorem retarget_le (hratio : 1 ≤ ratio) : retarget factor first ratio ≤ first := by
  unfold retarget
  split_ifs with hlate hearly
  · have hquotient := floor_div_le (K := K) (by omega : 0 ≤ first) (le_min hratio hfactor)
    exact max_le (max_le hfirst hquotient) (ceil_div_le hfirst hfactor)
  · exact absurd hearly (not_lt.mpr hratio)
  · exact le_rfl

/-- A window that was too short does not lower it. -/
theorem le_retarget (hratio : ratio ≤ 1) : first ≤ retarget factor first ratio := by
  unfold retarget
  split_ifs with hlate hearly
  · exact absurd hlate (not_lt.mpr hratio)
  · have hinverse : 1 / factor ≤ 1 := by
      rw [div_le_one (by linarith)]
      exact hfactor
    have hpos : 0 < max ratio (1 / factor) :=
      lt_of_lt_of_le (one_div_pos.mpr (by linarith)) (le_max_right _ _)
    have hquotient : (first : K) ≤ first / max ratio (1 / factor) := by
      rw [le_div_iff₀ hpos]
      have hnonneg : (0 : K) ≤ first := by exact_mod_cast (by omega : (0 : ℤ) ≤ first)
      exact mul_le_of_le_one_right hnonneg (max_le hratio hinverse)
    exact le_trans (Int.le_floor.mpr hquotient) (le_max_right _ _)
  · exact le_rfl

/-- The lowest difficulty after a window. -/
theorem ceil_le_retarget : ⌈(first : K) / factor⌉ ≤ retarget factor first ratio := by
  by_cases hlate : 1 < ratio
  · rw [retarget, if_pos hlate]
    exact le_max_right _ _
  · exact le_trans (ceil_div_le hfirst hfactor) (le_retarget hfirst hfactor (not_lt.mp hlate))

/-- The highest difficulty after a window. -/
theorem retarget_le_floor : retarget factor first ratio ≤ ⌊(first : K) * factor⌋ := by
  have hbase := le_floor_mul (K := K) hfirst hfactor
  rcases le_or_gt 1 ratio with hlate | hearly
  · exact le_trans (retarget_le hfirst hfactor hlate) hbase
  · rw [retarget, if_neg (not_lt.mpr hearly.le), if_pos hearly]
    refine max_le (le_trans hfirst hbase) (Int.floor_le_floor ?_)
    have hpos : (0 : K) < factor := by linarith
    have hnonneg : (0 : K) ≤ first := by exact_mod_cast (by omega : (0 : ℤ) ≤ first)
    calc (first : K) / max ratio (1 / factor) ≤ first / (1 / factor) :=
          div_le_div_of_nonneg_left hnonneg (one_div_pos.mpr hpos) (le_max_right _ _)
      _ = first * factor := by rw [div_div_eq_mul_div, div_one]

/-- A longer window never gives a higher difficulty. The two sides of one meet at
`first`, so only ratios on the same side are compared. -/
theorem retarget_antitone {r s : K} (hrs : r ≤ s) :
    retarget factor first s ≤ retarget factor first r := by
  have hnonneg : (0 : K) ≤ first := by exact_mod_cast (by omega : (0 : ℤ) ≤ first)
  have hpos : (0 : K) < factor := by linarith
  rcases le_or_gt r 1 with hr | hr
  · rcases le_or_gt 1 s with hs | hs
    · exact le_trans (retarget_le hfirst hfactor hs) (le_retarget hfirst hfactor hr)
    · have hr' : r < 1 := lt_of_le_of_lt hrs hs
      rw [retarget, if_neg (not_lt.mpr hs.le), if_pos hs, retarget, if_neg (not_lt.mpr hr'.le),
        if_pos hr']
      refine max_le_max le_rfl (Int.floor_le_floor ?_)
      exact div_le_div_of_nonneg_left hnonneg
        (lt_of_lt_of_le (one_div_pos.mpr hpos) (le_max_right _ _)) (max_le_max hrs le_rfl)
  · have hs : 1 < s := lt_of_lt_of_le hr hrs
    rw [retarget, if_pos hs, retarget, if_pos hr]
    refine max_le_max (max_le_max le_rfl (Int.floor_le_floor ?_)) le_rfl
    exact div_le_div_of_nonneg_left hnonneg (lt_min (by linarith) hpos) (min_le_min hrs le_rfl)

end Formula

namespace ProofOfWork

/-! ## The code computes the formula -/

section Exact

variable [Runtime] (hexact : ∀ q, Runtime.round q = .fin q) {settings : PowSettings} {F : ℚ}
  (hF : settings.max_adjustment_factor = .fin F) (hF1 : 1 ≤ F)
include hexact

theorem ofInt_exact (n : ℤ) : PyFloat.ofInt n = .ok (.fin n) := by
  rw [PyFloat.ofInt, hexact]

theorem divInt_exact {i j : ℤ} (hj : j ≠ 0) : PyFloat.divInt i j = .ok (.fin ((i : ℚ) / j)) := by
  rw [PyFloat.divInt, if_neg hj, hexact]

theorem div_exact {d : ℤ} (hd : 1 ≤ d) {r : ℚ} (hr : 0 < r) :
    (PyFloat.fin d).div (.fin r) = .ok (.fin (d / r)) := by
  rw [div_of_value hd rfl hr, hexact]

omit [Runtime] hexact in
theorem lt_fin {r s : ℚ} : (PyFloat.fin r).lt (.fin s) = true ↔ r < s :=
  lt_iff_of_value rfl rfl

omit [Runtime] hexact in
theorem min_fin (r s : ℚ) : (PyFloat.fin r).min (.fin s) = .fin (min r s) := by
  rcases lt_or_ge s r with h | h
  · rw [PyFloat.min, if_pos (lt_fin.mpr h), min_eq_right h.le]
  · rw [PyFloat.min, if_neg (fun hlt => not_lt.mpr h (lt_fin.mp hlt)), min_eq_left h]

omit [Runtime] hexact in
theorem max_fin (r s : ℚ) : (PyFloat.fin r).max (.fin s) = .fin (max r s) := by
  rcases lt_or_ge r s with h | h
  · rw [PyFloat.max, if_pos (lt_fin.mpr h), max_eq_right h.le]
  · rw [PyFloat.max, if_neg (fun hlt => not_lt.mpr h (lt_fin.mp hlt)), max_eq_left h]

omit [Runtime] hexact in
/-- `int` of a number that is not negative. -/
theorem toInt_fin {r : ℚ} (hr : 0 ≤ r) : (PyFloat.fin r).toInt = .ok ⌊r⌋ := by
  rw [PyFloat.toInt, if_pos hr]

include hF hF1

theorem adjusted_difficulty_exact {d a e : ℤ} (hd : 1 ≤ d) (ha : 1 ≤ a) (he : 1 ≤ e) :
    adjusted_difficulty settings d a e = .ok (retarget F d ((a : ℚ) / e)) := by
  have hdq : (0 : ℚ) < d := by exact_mod_cast hd
  have hratio : (0 : ℚ) < (a : ℚ) / e :=
    div_pos (by exact_mod_cast ha) (by exact_mod_cast he)
  have hFpos : 0 < F := lt_of_lt_of_le one_pos hF1
  rw [adjusted_difficulty, divInt_exact hexact (by omega), ok_bind, retarget]
  by_cases hlate : 1 < (a : ℚ) / e
  · rw [if_pos (lt_fin.mpr hlate), if_pos hlate, hF, min_fin, ofInt_exact hexact, ok_bind,
      div_exact hexact hd (lt_min hratio hFpos), ok_bind,
      toInt_fin (div_nonneg hdq.le (lt_min hratio hFpos).le), ok_bind,
      div_exact hexact hd hFpos, ok_bind]
    rfl
  · rw [if_neg (fun h => hlate (lt_fin.mp h)), if_neg hlate]
    by_cases hearly : (a : ℚ) / e < 1
    · have hone := div_exact hexact (d := 1) le_rfl hFpos
      rw [Int.cast_one] at hone
      have hmax : 0 < max ((a : ℚ) / e) (1 / F) := lt_of_lt_of_le hratio (le_max_left _ _)
      rw [if_pos (lt_fin.mpr hearly), if_pos hearly, hF, hone, ok_bind, max_fin,
        ofInt_exact hexact, ok_bind, div_exact hexact hd hmax, ok_bind,
        toInt_fin (div_nonneg hdq.le hmax.le), ok_bind]
      rfl
    · rw [if_neg (fun h => hearly (lt_fin.mp h)), if_neg hearly]
      rfl

end Exact

/-! ## Windows -/

/-- The last `adjustment_interval` blocks of the chain begin with a block whose
difficulty `get_difficulty` reads as `first_difficulty`; the first and the last of
them have times, `actual_time` seconds apart as `_elapsed_seconds` counts them. -/
structure TimedWindow (settings : PowSettings) (chain : List Block)
    (first_difficulty actual_time : ℤ) : Prop where
  complete : settings.adjustment_interval ≤ chain.length
  first : ∃ block header time,
    (sliceFrom chain (-settings.adjustment_interval)).head? = some block ∧
    block.item (lit "block_header") = .ok header ∧
    header_difficulty settings header = .ok first_difficulty ∧ HasTime block time ∧
    ∃ final time', (sliceFrom chain (-settings.adjustment_interval)).getLast? = some final ∧
      HasTime final time' ∧ actual_time = max 1 (time'.seconds - time.seconds)

section Window

variable [Runtime] {settings : PowSettings} {chain : List Block} {f a : ℤ}

omit [Runtime] in
theorem TimedWindow.one_le (h : TimedWindow settings chain f a) : 1 ≤ a := by
  obtain ⟨-, -, -, -, -, -, -, -, -, -, -, -, rfl⟩ := h
  exact le_max_left _ _

omit [Runtime] in
theorem one_le_expected (hinterval : 2 ≤ settings.adjustment_interval)
    (htarget : 0 < settings.target_block_time_seconds) : 1 ≤ expected_time settings := by
  have hpos : 0 < settings.target_block_time_seconds * (settings.adjustment_interval - 1) :=
    mul_pos htarget (by omega)
  exact hpos

theorem get_difficulty_timed (hinterval : 2 ≤ settings.adjustment_interval)
    (htarget : 0 < settings.target_block_time_seconds) (h : TimedWindow settings chain f a) :
    get_difficulty settings chain = adjusted_difficulty settings f a (expected_time settings) := by
  have ha := h.one_le
  have he := one_le_expected hinterval htarget
  obtain ⟨hfull, block, header, time, hfirst, hheader, hf, htime, final, time', hfinal, htime',
    rfl⟩ := h
  have hne : chain ≠ [] := by
    rintro rfl
    simp at hfull
    omega
  unfold get_difficulty
  rw [List.getLast?_eq_some_getLast hne]
  dsimp only
  rw [if_neg (not_lt.mpr hfull), hfirst, orRaise_some, ok_bind, hheader, ok_bind, hf, ok_bind,
    hfinal, orRaise_some, ok_bind, elapsed_seconds_of_times htime htime', ok_bind]
  rw [expected_time] at he
  rw [if_neg (by omega), expected_time]

/-- `get_difficulty` in exact arithmetic on a complete window. -/
theorem get_difficulty_exact (hexact : ∀ q, Runtime.round q = .fin q) {F : ℚ}
    (hF : settings.max_adjustment_factor = .fin F) (hF1 : 1 ≤ F)
    (hinterval : 2 ≤ settings.adjustment_interval)
    (htarget : 0 < settings.target_block_time_seconds) (h : TimedWindow settings chain f a)
    (hf : 1 ≤ f) :
    get_difficulty settings chain = .ok (retarget F f ((a : ℚ) / expected_time settings)) := by
  rw [get_difficulty_timed hinterval htarget h]
  exact adjusted_difficulty_exact hexact hF hF1 hf h.one_le (one_le_expected hinterval htarget)

end Window

/-- In exact arithmetic a retarget stays within the factor of the first difficulty of
the window and above zero, keeps it when the window took the expected time, and after
a longer window with the same first difficulty is not higher. -/
theorem retarget_bounded_and_monotone [Runtime] (hexact : ∀ q, Runtime.round q = .fin q)
    {settings : PowSettings} {F : ℚ} (hF : settings.max_adjustment_factor = .fin F) (hF1 : 1 ≤ F)
    (hinterval : 2 ≤ settings.adjustment_interval)
    (htarget : 0 < settings.target_block_time_seconds) {chain : List Block} {f a : ℤ}
    (hwindow : TimedWindow settings chain f a) (hf : 1 ≤ f) :
    ∃ n, get_difficulty settings chain = .ok n ∧
      (⌈(f : ℚ) / F⌉ ≤ n ∧ n ≤ ⌊(f : ℚ) * F⌋) ∧ 1 ≤ n ∧
      (a = settings.target_block_time_seconds * (settings.adjustment_interval - 1) → n = f) ∧
      ∀ (longer : List Block) (b : ℤ), TimedWindow settings longer f b → a ≤ b →
        ∃ m, get_difficulty settings longer = .ok m ∧ m ≤ n := by
  have he := one_le_expected hinterval htarget
  have heq : (0 : ℚ) < expected_time settings := by exact_mod_cast he
  refine ⟨_, get_difficulty_exact hexact hF hF1 hinterval htarget hwindow hf,
    ⟨ceil_le_retarget hf hF1, retarget_le_floor hf hF1⟩, one_le_retarget hf, ?_, ?_⟩
  · intro ha
    have hone : (a : ℚ) / expected_time settings = 1 := by
      rw [expected_time, ← ha, div_self]
      rw [expected_time, ← ha] at heq
      exact heq.ne'
    rw [hone, retarget_one]
  · intro longer b hlonger hab
    refine ⟨_, get_difficulty_exact hexact hF hF1 hinterval htarget hlonger hf,
      retarget_antitone hf hF1 ?_⟩
    exact div_le_div_of_nonneg_right (by exact_mod_cast hab) heq.le

end ProofOfWork

/-! ## A slow window -/

namespace Retargeted

/-- Arithmetic that does not round. -/
abbrev exact_runtime : Runtime where
  round := .fin
  floatRepr := fun _ => []
  sha256 := fun _ => 0

attribute [local instance] exact_runtime

/-- The first pair of blocks takes a hundred seconds instead of ten. -/
theorem slow_window : ProofOfWork.TimedWindow pow.settings (swinging.take 2) 2 100 :=
  ⟨by decide, _, _, _, rfl, rfl, rfl, ⟨_, rfl, rfl⟩, _, _, rfl, ⟨_, rfl, rfl⟩, by decide +kernel⟩

theorem slow_window_bounded :
    ∃ n, ProofOfWork.get_difficulty pow.settings (swinging.take 2) = .ok n ∧
      (⌈((2 : ℤ) : ℚ) / 2⌉ ≤ n ∧ n ≤ ⌊((2 : ℤ) : ℚ) * 2⌋) ∧ 1 ≤ n ∧
      (100 = pow.settings.target_block_time_seconds * (pow.settings.adjustment_interval - 1) →
        n = 2) ∧
      ∀ (longer : List Block) (b : ℤ), ProofOfWork.TimedWindow pow.settings longer 2 b → 100 ≤ b →
        ∃ m, ProofOfWork.get_difficulty pow.settings longer = .ok m ∧ m ≤ n :=
  ProofOfWork.retarget_bounded_and_monotone (fun _ => rfl) rfl (by norm_num) (by decide)
    (by decide) slow_window (by decide)

end Retargeted

end EasyBlockchain
