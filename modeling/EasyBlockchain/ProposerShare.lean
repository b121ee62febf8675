/-
How often `select_proposer` selects each validator.

The loop walks the validators in order of their ids and adds up their stakes: a
pick selects the validator on whose interval it lies. With positive stakes the
intervals are disjoint and cover everything below the sum, so each validator is
selected by as many picks as it has stake. Sorting makes the order of insertion
immaterial.
-/
import EasyBlockchain.Pos
import EasyBlockchain.Py.CPython
import EasyBlockchain.Py.JsonStable
import Mathlib.Order.Interval.Finset.Basic
import Mathlib.Data.Int.ConditionallyCompleteOrder
import Mathlib.Data.Int.Interval

set_option autoImplicit false

namespace EasyBlockchain

open Py Lib

namespace ProofOfStake

/-! ## The loop -/

section Loop

variable {entries : List (Str × ℤ)} {cumulative pick : ℤ} {v : Str}

/-- The picks from `low` on, below `high`, that select `v`. -/
noncomputable def picks (entries : List (Str × ℤ)) (cumulative low high : ℤ) (v : Str) : Finset ℤ :=
  (Finset.Ico low high).filter fun pick => pick_proposer pick cumulative entries = some v

theorem pick_proposer_cons_of_lt {id : Str} {stake : ℤ} (h : pick < cumulative + stake) :
    pick_proposer pick cumulative ((id, stake) :: entries) = some id := by
  rw [pick_proposer, if_pos h]

theorem pick_proposer_cons_of_le {id : Str} {stake : ℤ} (h : cumulative + stake ≤ pick) :
    pick_proposer pick cumulative ((id, stake) :: entries)
      = pick_proposer pick (cumulative + stake) entries := by
  rw [pick_proposer, if_neg (not_lt.mpr h)]

/-- Below the sum of the stakes the loop returns. -/
theorem pick_proposer_ne_none (h : pick < cumulative + (entries.map Prod.snd).sum)
    (hlow : cumulative ≤ pick) : pick_proposer pick cumulative entries ≠ none := by
  induction entries generalizing cumulative with
  | nil =>
      rw [List.map_nil, List.sum_nil] at h
      omega
  | cons entry rest ih =>
      obtain ⟨id, stake⟩ := entry
      rw [List.map_cons, List.sum_cons] at h
      rcases lt_or_ge pick (cumulative + stake) with hlt | hge
      · rw [pick_proposer_cons_of_lt hlt]
        exact Option.some_ne_none id
      · rw [pick_proposer_cons_of_le hge]
        exact ih (by omega) hge

/-- A validator outside the list is never selected. -/
theorem picks_of_not_mem {low high : ℤ} (h : v ∉ entries.map Prod.fst) :
    picks entries cumulative low high v = ∅ := by
  apply Finset.filter_eq_empty_iff.mpr
  intro pick _ hpick
  exact h (mem_of_pick_proposer hpick)

/-- The picks of the first interval select the first validator, the others are
those of the rest of the list. -/
theorem picks_cons {id : Str} {stake : ℤ} {high : ℤ} (hstake : 0 ≤ stake)
    (hhigh : cumulative + stake ≤ high) :
    picks ((id, stake) :: entries) cumulative cumulative high v
      = (if id = v then Finset.Ico cumulative (cumulative + stake) else ∅)
        ∪ picks entries (cumulative + stake) (cumulative + stake) high v := by
  have hlow : cumulative ≤ cumulative + stake := by omega
  rw [picks, ← Finset.Ico_union_Ico_eq_Ico hlow hhigh, Finset.filter_union]
  congr 1
  · split_ifs with hv
    · apply Finset.filter_true_of_mem
      intro pick hpick
      rw [pick_proposer_cons_of_lt (Finset.mem_Ico.mp hpick).2, hv]
    · apply Finset.filter_false_of_mem
      intro pick hpick hid
      rw [pick_proposer_cons_of_lt (Finset.mem_Ico.mp hpick).2] at hid
      exact hv (Option.some.inj hid)
  · apply Finset.filter_congr
    intro pick hpick
    rw [pick_proposer_cons_of_le (Finset.mem_Ico.mp hpick).1]

variable (cumulative v) in
/-- As many picks as stake. The induction moves the start of the interval along
with the cumulative sum. -/
theorem card_picks (hnodup : (entries.map Prod.fst).Nodup) (hstakes : ∀ p ∈ entries, 1 ≤ p.2) :
    ((picks entries cumulative cumulative (cumulative + (entries.map Prod.snd).sum) v).card : ℤ)
      = (entries.lookup v).getD 0 := by
  induction entries generalizing cumulative with
  | nil =>
      rw [picks_of_not_mem (List.not_mem_nil)]
      rfl
  | cons entry rest ih =>
      obtain ⟨id, stake⟩ := entry
      rw [List.map_cons, List.nodup_cons] at hnodup
      have hstake : 1 ≤ stake := hstakes _ List.mem_cons_self
      have hrest : ∀ p ∈ rest, 1 ≤ p.2 := fun p hp => hstakes p (List.mem_cons_of_mem _ hp)
      have hsum : 0 ≤ (rest.map Prod.snd).sum := by
        apply List.sum_nonneg
        intro x hx
        obtain ⟨p, hp, rfl⟩ := List.mem_map.mp hx
        have := hrest p hp
        omega
      have ih := @ih (cumulative + stake) hnodup.2 hrest
      rw [List.map_cons, List.sum_cons, ← add_assoc, picks_cons (by omega) (by omega)]
      by_cases hv : id = v
      · -- no later entry has this id
        subst hv
        rw [if_pos rfl, picks_of_not_mem hnodup.1, Finset.union_empty, Int.card_Ico,
          List.lookup_cons_self, Option.getD_some]
        omega
      · have hb : (v == id) = false := by simpa using Ne.symm hv
        rw [if_neg hv, Finset.empty_union, ih, List.lookup_cons, hb]

end Loop

/-! ## The election -/

section Election

variable [Runtime] {stake_map : StakeMap}

/-- The pick of a slot: the hash of the slot modulo the total stake. -/
def slot_pick (slot : ℤ) (total : ℤ) : PyM ℤ := do
  let slot ← orRaise .valueError (strOfInt slot)
  let bytes ← encode (lit "slot-" ++ slot)
  let seed := Runtime.sha256 bytes
  if total = 0 then .error .zeroDivisionError else return Int.fmod seed.toNat total

theorem select_proposer_eq (slot : ℤ) (hne : stake_map.isEmpty = false) :
    select_proposer slot stake_map = (do
      let pick ← slot_pick slot stake_map.total
      match pick_proposer pick 0 stake_map.sorted with
      | some validator_id => return validator_id
      | none => orRaise .indexError (stake_map.sorted.getLast?.map Prod.fst)) := by
  rw [select_proposer, if_neg (by rw [hne]; exact Bool.false_ne_true)]
  simp only [slot_pick, bind_assoc]
  congr 1
  funext text
  congr 1
  funext bytes
  by_cases htotal : stake_map.total = 0
  · rw [if_pos htotal, if_pos htotal]
    rfl
  · rw [if_neg htotal, if_neg htotal]
    rfl

theorem slot_pick_mem {slot total pick : ℤ} (htotal : 0 ≤ total)
    (h : slot_pick slot total = .ok pick) : pick ∈ Finset.Ico 0 total := by
  simp only [slot_pick, bind_eq_ok] at h
  obtain ⟨-, -, bytes, -, h⟩ := h
  split at h
  · cases h
  · rename_i hne
    obtain rfl := Except.ok.inj h
    have hpos : 0 < total := by omega
    exact Finset.mem_Ico.mpr ⟨Int.fmod_nonneg_of_pos _ hpos, Int.fmod_lt_of_pos _ hpos⟩

omit [Runtime] in
/-- Sorting forgets the order of insertion. -/
theorem sorted_eq_of_mem_iff {other : StakeMap}
    (h : ∀ p, p ∈ stake_map.entries ↔ p ∈ other.entries) :
    stake_map.sorted = other.sorted ∧ stake_map.total = other.total ∧
      stake_map.isEmpty = other.isEmpty := by
  have hperm : stake_map.entries.Perm other.entries :=
    (List.perm_ext_iff_of_nodup (List.Nodup.of_map _ stake_map.nodup)
      (List.Nodup.of_map _ other.nodup)).mpr h
  refine ⟨?_, (hperm.map Prod.snd).sum_eq, ?_⟩
  · exact sorted_of_increasing (hperm.trans (List.perm_insertionSort _ other.entries).symm)
      (increasing_sorted other)
  · rw [StrDict.isEmpty, StrDict.isEmpty, Bool.eq_iff_iff, List.isEmpty_iff, List.isEmpty_iff]
    constructor
    · intro hnil
      rw [hnil] at hperm
      exact hperm.nil_eq.symm
    · intro hnil
      rw [hnil] at hperm
      exact hperm.eq_nil

end Election

/-- The loop gives every validator as many of the picks below the total stake as it
has stake, and none to anyone else. It always returns for the pick of a slot, so the
selection is the loop's. Two maps with the same stakes select alike. -/
theorem selection_proportional [Runtime] (stake_map : StakeMap)
    (hstakes : ∀ p ∈ stake_map.entries, 1 ≤ p.2) :
    (∀ v, ((picks stake_map.sorted 0 0 stake_map.total v).card : ℤ)
      = (stake_map.find v).getD 0) ∧
    (∀ v, stake_map.contains v = false → picks stake_map.sorted 0 0 stake_map.total v = ∅) ∧
    (∀ pick ∈ Finset.Ico 0 stake_map.total, pick_proposer pick 0 stake_map.sorted ≠ none) ∧
    (∀ slot v, select_proposer slot stake_map = .ok v ↔ stake_map.isEmpty = false ∧
      ∃ pick, slot_pick slot stake_map.total = .ok pick ∧
        pick ∈ picks stake_map.sorted 0 0 stake_map.total v) ∧
    (∀ (other : StakeMap), (∀ p, p ∈ other.entries ↔ p ∈ stake_map.entries) →
      ∀ slot, select_proposer slot other = select_proposer slot stake_map) := by
  have hperm : stake_map.sorted.Perm stake_map.entries := List.perm_insertionSort _ _
  have htotal : (stake_map.sorted.map Prod.snd).sum = stake_map.total :=
    (hperm.map Prod.snd).sum_eq
  have hsorted : ∀ p ∈ stake_map.sorted, 1 ≤ p.2 := fun p hp => hstakes p (hperm.mem_iff.mp hp)
  have hnonneg : 0 ≤ stake_map.total := by
    apply List.sum_nonneg
    intro x hx
    obtain ⟨p, hp, rfl⟩ := List.mem_map.mp hx
    have := hstakes p hp
    omega
  have hreturns : ∀ pick ∈ Finset.Ico 0 stake_map.total,
      pick_proposer pick 0 stake_map.sorted ≠ none := by
    intro pick hpick
    obtain ⟨hlow, hhigh⟩ := Finset.mem_Ico.mp hpick
    exact pick_proposer_ne_none (by rw [zero_add, htotal]; exact hhigh) hlow
  refine ⟨?_, ?_, hreturns, ?_, ?_⟩
  · intro v
    have hcard := card_picks 0 v stake_map.nodup_sorted hsorted
    rwa [zero_add, htotal, StrDict.lookup_sorted] at hcard
  · intro v hv
    apply picks_of_not_mem
    intro hmem
    rw [(hperm.map Prod.fst).mem_iff, StrDict.mem_map_fst, hv] at hmem
    cases hmem
  · intro slot v
    by_cases hne : stake_map.isEmpty = false
    swap
    · rw [Bool.not_eq_false] at hne
      simp [select_proposer, hne]
    rw [select_proposer_eq slot hne, bind_eq_ok]
    constructor
    · rintro ⟨pick, hpick, h⟩
      have hmem := slot_pick_mem hnonneg hpick
      refine ⟨hne, pick, hpick, Finset.mem_filter.mpr ⟨hmem, ?_⟩⟩
      -- the fallback return is never reached
      obtain ⟨id, hid⟩ := Option.ne_none_iff_exists'.mp (hreturns pick hmem)
      rw [hid] at h ⊢
      exact congrArg some (Except.ok.inj h)
    · rintro ⟨-, pick, hpick, hmem⟩
      refine ⟨pick, hpick, ?_⟩
      rw [(Finset.mem_filter.mp hmem).2]
      rfl
  · intro other hsame slot
    obtain ⟨hsort, hsum, hempty⟩ := sorted_eq_of_mem_iff hsame
    rw [select_proposer, select_proposer, hsort, hsum, hempty]

/-- Three stakes of a map and the picks they get. -/
def three_stakes : StakeMap :=
  ⟨[(lit "b", 2), (lit "a", 1), (lit "c", 4)], by decide⟩

section ThreeStakes

attribute [local instance] cpython

theorem three_stakes_proportional :
    (∀ v, ((picks three_stakes.sorted 0 0 three_stakes.total v).card : ℤ)
      = (three_stakes.find v).getD 0) ∧
    (∀ v, three_stakes.contains v = false → picks three_stakes.sorted 0 0 three_stakes.total v = ∅) ∧
    (∀ pick ∈ Finset.Ico 0 three_stakes.total, pick_proposer pick 0 three_stakes.sorted ≠ none) ∧
    (∀ slot v, select_proposer slot three_stakes = .ok v ↔ three_stakes.isEmpty = false ∧
      ∃ pick, slot_pick slot three_stakes.total = .ok pick ∧
        pick ∈ picks three_stakes.sorted 0 0 three_stakes.total v) ∧
    (∀ (other : StakeMap), (∀ p, p ∈ other.entries ↔ p ∈ three_stakes.entries) →
      ∀ slot, select_proposer slot other = select_proposer slot three_stakes) :=
  selection_proportional three_stakes (by decide)

end ThreeStakes

end ProofOfStake

end EasyBlockchain
