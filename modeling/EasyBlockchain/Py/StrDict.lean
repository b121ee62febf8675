/-
Dictionaries with string keys only: `dict[str, T]`, in insertion order.

The keys are all different, which the structure carries, so `m[key] += x`
touches one entry and `sorted(m.items())` is determined by the keys.
-/
import EasyBlockchain.Py.Str
import Mathlib.Data.List.Sort
import Mathlib.Tactic.Common

set_option autoImplicit false

namespace EasyBlockchain.Py

/-- A `dict[str, T]`. -/
structure StrDict (α : Type) where
  entries : List (Str × α)
  nodup : (entries.map Prod.fst).Nodup
  deriving DecidableEq

namespace StrDict

variable {α : Type}

/-- `{}`. -/
def empty : StrDict α := ⟨[], by simp⟩

/-- `{key: v}`. -/
def single (key : Str) (v : α) : StrDict α := ⟨[(key, v)], by simp⟩

@[simp] theorem single_entries (key : Str) (v : α) : (single key v).entries = [(key, v)] := rfl

/-- `m.keys()`. -/
def keys (m : StrDict α) : List Str := m.entries.map Prod.fst

/-- `not m`. -/
def isEmpty (m : StrDict α) : Bool := m.entries.isEmpty

/-- `m.get(key)`. -/
def find (m : StrDict α) (key : Str) : Option α := m.entries.lookup key

/-- `key in m`. -/
def contains (m : StrDict α) (key : Str) : Bool := (m.find key).isSome

/-- `m[key] = f(m[key])` where `key` is in `m`; nothing otherwise. -/
def modify (m : StrDict α) (key : Str) (f : α → α) : StrDict α :=
  ⟨m.entries.map fun p => if p.1 = key then (p.1, f p.2) else p, by
    have hfst : (m.entries.map fun p => if p.1 = key then (p.1, f p.2) else p).map Prod.fst
        = m.entries.map Prod.fst := by
      rw [List.map_map]
      refine List.map_congr_left fun p _ => ?_
      by_cases h : p.1 = key <;> simp [h]
    rw [hfst]
    exact m.nodup⟩

/-- The entries of `m[key] = v`: in place where `key` is there, else last. -/
def setEntries (key : Str) (v : α) : List (Str × α) → List (Str × α)
  | [] => [(key, v)]
  | (k, w) :: rest => if k = key then (k, v) :: rest else (k, w) :: setEntries key v rest

theorem mem_setEntries_keys {key k : Str} {v : α} {l : List (Str × α)}
    (h : k ∈ (setEntries key v l).map Prod.fst) : k = key ∨ k ∈ l.map Prod.fst := by
  induction l with
  | nil => simpa [setEntries] using h
  | cons p rest ih =>
      obtain ⟨k', v'⟩ := p
      by_cases hk : k' = key
      · simp only [setEntries, if_pos hk, List.map_cons, List.mem_cons] at h ⊢
        tauto
      · simp only [setEntries, if_neg hk, List.map_cons, List.mem_cons] at h ⊢
        rcases h with h | h
        · exact Or.inr (Or.inl h)
        · rcases ih h with h | h
          · exact Or.inl h
          · exact Or.inr (Or.inr h)

theorem nodup_setEntries {key : Str} {v : α} {l : List (Str × α)}
    (h : (l.map Prod.fst).Nodup) : ((setEntries key v l).map Prod.fst).Nodup := by
  induction l with
  | nil => simp [setEntries]
  | cons p rest ih =>
      obtain ⟨k', v'⟩ := p
      simp only [List.map_cons, List.nodup_cons] at h
      by_cases hk : k' = key
      · simpa only [setEntries, if_pos hk, List.map_cons, List.nodup_cons] using h
      · simp only [setEntries, if_neg hk, List.map_cons, List.nodup_cons]
        refine ⟨fun hmem => ?_, ih h.2⟩
        rcases mem_setEntries_keys hmem with hkey | hrest
        · exact hk hkey
        · exact h.1 hrest

/-- An absent key is added at the end. -/
theorem setEntries_of_not_mem {key : Str} {v : α} {l : List (Str × α)}
    (h : key ∉ l.map Prod.fst) : setEntries key v l = l ++ [(key, v)] := by
  induction l with
  | nil => rfl
  | cons p rest ih =>
      obtain ⟨k, w⟩ := p
      rw [List.map_cons, List.mem_cons, not_or] at h
      rw [setEntries, if_neg (Ne.symm h.1), ih h.2, List.cons_append]

/-- `m[key] = v`. -/
def set (m : StrDict α) (key : Str) (v : α) : StrDict α :=
  ⟨setEntries key v m.entries, nodup_setEntries m.nodup⟩

theorem find_set (m : StrDict α) (key k : Str) (v : α) :
    (m.set key v).find k = if k = key then some v else m.find k := by
  obtain ⟨l, hl⟩ := m
  simp only [find, set]
  clear hl
  induction l with
  | nil =>
      by_cases hv : k = key
      · subst hv
        simp [setEntries]
      · have hb : (k == key) = false := by simpa using hv
        simp [setEntries, List.lookup_cons, hb, hv]
  | cons p rest ih =>
      obtain ⟨k', w⟩ := p
      by_cases hk : k' = key
      · subst hk
        by_cases hv : k = k'
        · subst hv
          simp [setEntries]
        · have hb : (k == k') = false := by simpa using hv
          simp [setEntries, List.lookup_cons, hb, hv]
      · by_cases hv : k = k'
        · subst hv
          simp [setEntries, hk]
        · have hb : (k == k') = false := by simpa using hv
          simpa [setEntries, List.lookup_cons, hb, hk] using ih

/-- With different keys, an entry is what its key looks up. -/
theorem lookup_eq_some_iff_mem {l : List (Str × α)} (hnodup : (l.map Prod.fst).Nodup) {k : Str}
    {x : α} : l.lookup k = some x ↔ (k, x) ∈ l := by
  induction l with
  | nil => simp
  | cons entry rest ih =>
      obtain ⟨key, y⟩ := entry
      rw [List.map_cons, List.nodup_cons] at hnodup
      by_cases hk : k = key
      · subst hk
        have hrest : (k, x) ∉ rest := fun h => hnodup.1 (List.mem_map.mpr ⟨_, h, rfl⟩)
        simp [List.lookup_cons_self, hrest, eq_comm]
      · have hb : (k == key) = false := by simpa using hk
        rw [List.lookup_cons, hb, ih hnodup.2, List.mem_cons, Prod.mk.injEq]
        simp [hk]

theorem mem_map_fst {m : StrDict α} {key : Str} :
    key ∈ m.entries.map Prod.fst ↔ m.contains key = true := by
  rw [contains, find]
  induction m.entries with
  | nil => simp
  | cons p rest ih =>
      obtain ⟨k, v⟩ := p
      by_cases hk : key = k
      · subst hk
        simp
      · have hb : (key == k) = false := by simpa using hk
        rw [List.map_cons, List.mem_cons, ih, List.lookup_cons, hb]
        simp [hk]

theorem contains_set (m : StrDict α) (key k : Str) (v : α) :
    (m.set key v).contains k = (decide (k = key) || m.contains k) := by
  unfold contains
  rw [find_set]
  split
  · rename_i h
    simp [h]
  · rename_i h
    simp [h]

/-- A new key makes one entry more. -/
theorem length_set_of_not_contains {m : StrDict α} {key : Str} (h : m.contains key = false)
    (v : α) : (m.set key v).entries.length = m.entries.length + 1 := by
  have hkey : key ∉ m.entries.map Prod.fst := by
    rw [mem_map_fst, h]
    exact Bool.false_ne_true
  change (setEntries key v m.entries).length = _
  rw [setEntries_of_not_mem hkey, List.length_append, List.length_singleton]

/-- `m.pop(key, None)`. -/
def pop (m : StrDict α) (key : Str) : StrDict α :=
  ⟨m.entries.filter (fun p => p.1 ≠ key), m.nodup.sublist (List.filter_sublist.map _)⟩

theorem find_pop (m : StrDict α) (key k : Str) :
    (m.pop key).find k = if k = key then none else m.find k := by
  obtain ⟨l, hl⟩ := m
  simp only [find, pop]
  clear hl
  induction l with
  | nil => simp
  | cons p rest ih =>
      obtain ⟨k', v⟩ := p
      by_cases hk : k' = key
      · subst hk
        rw [List.filter_cons_of_neg (by simp), ih]
        by_cases hv : k = k'
        · simp [hv]
        · have hb : (k == k') = false := by simpa using hv
          simp [List.lookup_cons, hb, hv]
      · rw [List.filter_cons_of_pos (by simpa using hk)]
        by_cases hv : k = k'
        · subst hv
          simp [hk]
        · have hb : (k == k') = false := by simpa using hv
          simpa [List.lookup_cons, hb] using ih

theorem contains_pop (m : StrDict α) (key k : Str) :
    (m.pop key).contains k = (!decide (k = key) && m.contains k) := by
  unfold contains
  rw [find_pop]
  split
  · rename_i h
    simp [h]
  · rename_i h
    simp [h]

theorem length_pop_le (m : StrDict α) (key : Str) :
    (m.pop key).entries.length ≤ m.entries.length := List.length_filter_le _ _

/-- `sorted(m.items())`; no two keys are equal, so the values do not matter. -/
def sorted (m : StrDict α) : List (Str × α) := m.entries.insertionSort (fun p q => p.1 ≤ q.1)

theorem nodup_sorted (m : StrDict α) : (m.sorted.map Prod.fst).Nodup :=
  ((List.perm_insertionSort _ m.entries).map Prod.fst).nodup_iff.mpr m.nodup

theorem lookup_sorted (m : StrDict α) (k : Str) : m.sorted.lookup k = m.find k := by
  apply Option.ext
  intro x
  rw [lookup_eq_some_iff_mem m.nodup_sorted, find, lookup_eq_some_iff_mem m.nodup]
  exact (List.perm_insertionSort _ m.entries).mem_iff

theorem find_modify (m : StrDict α) (key k : Str) (f : α → α) :
    (m.modify key f).find k = if k = key then (m.find k).map f else m.find k := by
  obtain ⟨l, hl⟩ := m
  simp only [find, modify]
  clear hl
  induction l with
  | nil => simp
  | cons p rest ih =>
      obtain ⟨k', v⟩ := p
      by_cases hk : k' = key
      · subst hk
        by_cases hv : k = k'
        · subst hv; simp
        · have hb : (k == k') = false := by simpa using hv
          simpa [List.lookup_cons, hb, hv] using ih
      · by_cases hv : k = k'
        · subst hv; simp [hk]
        · have hb : (k == k') = false := by simpa using hv
          simpa [List.lookup_cons, hb, hk] using ih

/-- Modifying an absent key changes nothing. -/
theorem modify_of_not_contains {m : StrDict α} {key : Str} {f : α → α}
    (h : m.contains key = false) : m.modify key f = m := by
  obtain ⟨l, hl⟩ := m
  simp only [modify, mk.injEq]
  simp only [contains, find] at h
  clear hl
  induction l with
  | nil => rfl
  | cons p rest ih =>
      obtain ⟨k, v⟩ := p
      by_cases hk : key = k
      · subst hk; simp at h
      · have hb : (key == k) = false := by simpa using hk
        rw [List.lookup_cons, hb] at h
        simp only [List.map_cons, if_neg (Ne.symm hk), ih h]

theorem isEmpty_of_contains {m : StrDict α} {key : Str} (h : m.contains key = true) :
    m.isEmpty = false := by
  obtain ⟨l, hl⟩ := m
  cases l with
  | nil => simp [contains, find] at h
  | cons p rest => rfl

/-- `sum(m.values())`. -/
def total (m : StrDict ℤ) : ℤ := (m.entries.map Prod.snd).sum

/-- An addition to the value of a present key adds to the sum. -/
theorem total_modify {m : StrDict ℤ} {key : Str} (h : m.contains key = true) (amount : ℤ) :
    (m.modify key (· + amount)).total = m.total + amount := by
  obtain ⟨l, hl⟩ := m
  simp only [total, modify]
  simp only [contains, find] at h
  induction l with
  | nil => simp at h
  | cons p rest ih =>
      obtain ⟨k, v⟩ := p
      rw [List.map_cons, List.nodup_cons] at hl
      by_cases hk : k = key
      · -- no later entry has this key
        subst hk
        have hrest : (rest.map fun p => if p.1 = k then (p.1, p.2 + amount) else p) = rest := by
          refine (List.map_congr_left fun p hp => ?_).trans (List.map_id rest)
          have hne : p.1 ≠ k := fun heq => hl.1 (List.mem_map.mpr ⟨p, hp, heq⟩)
          rw [if_neg hne, id]
        rw [List.map_cons, if_pos rfl, hrest]
        simp only [List.map_cons, List.sum_cons]
        omega
      · have hb : (key == k) = false := by simpa using Ne.symm hk
        rw [List.lookup_cons, hb] at h
        have hsum := ih hl.2 h
        rw [List.map_cons, if_neg hk]
        simp only [List.map_cons, List.sum_cons]
        rw [hsum]
        omega

end StrDict

end EasyBlockchain.Py
