/-
Python's `filter`, `sum` and `max` over a list, where the function applied to
the elements may raise.

`max(xs, key=f)` returns the first element whose key no other key exceeds, which
is what `List.argmax` returns.
-/
import EasyBlockchain.Py.Exceptions
import Mathlib.Data.List.MinMax
import Mathlib.Algebra.BigOperators.Group.List.Basic

set_option autoImplicit false

namespace EasyBlockchain.Py

variable {α β κ : Type}

/-- `[x for x in xs if p(x)]`. -/
def filterPy (p : α → PyM Bool) : List α → PyM (List α)
  | [] => .ok []
  | x :: xs => do
    let keep ← p x
    let rest ← filterPy p xs
    return if keep then x :: rest else rest

/-- `[f(x) for x in xs]`. -/
def mapPy (f : α → PyM β) : List α → PyM (List β)
  | [] => .ok []
  | x :: xs => do
    let y ← f x
    let ys ← mapPy f xs
    return y :: ys

/-- `max(xs, key=key)`, `none` on the empty list. -/
def maxBy [LinearOrder κ] (key : α → PyM κ) (xs : List α) : PyM (Option α) := do
  let keyed ← mapPy (fun x => do let k ← key x; return (k, x)) xs
  return (keyed.argmax Prod.fst).map Prod.snd

theorem filterPy_eq_ok {p : α → PyM Bool} {xs ys : List α} :
    filterPy p xs = .ok ys ↔
      (∀ x ∈ xs, ∃ b, p x = .ok b) ∧ ys = xs.filter (fun x => p x = .ok true) := by
  induction xs generalizing ys with
  | nil => simp [filterPy, eq_comm]
  | cons x xs ih =>
      simp only [filterPy, bind_eq_ok, pure_eq, Except.ok.injEq, ih, List.forall_mem_cons,
        List.filter_cons]
      constructor
      · rintro ⟨keep, hkeep, rest, ⟨hall, rfl⟩, rfl⟩
        refine ⟨⟨⟨keep, hkeep⟩, hall⟩, ?_⟩
        cases keep <;> simp [hkeep]
      · rintro ⟨⟨⟨keep, hkeep⟩, hall⟩, rfl⟩
        refine ⟨keep, hkeep, _, ⟨hall, rfl⟩, ?_⟩
        cases keep <;> simp [hkeep]

/-- Every result comes from an element. -/
theorem exists_of_mem_mapPy {f : α → PyM β} {xs : List α} {ys : List β} {y : β}
    (h : mapPy f xs = .ok ys) (hy : y ∈ ys) : ∃ x ∈ xs, f x = .ok y := by
  induction xs generalizing ys with
  | nil =>
      obtain rfl := Except.ok.inj h
      simp at hy
  | cons x xs ih =>
      simp only [mapPy, bind_eq_ok, pure_eq, Except.ok.injEq] at h
      obtain ⟨z, hz, zs, hzs, rfl⟩ := h
      rcases List.mem_cons.mp hy with rfl | hy
      · exact ⟨x, List.mem_cons_self, hz⟩
      · obtain ⟨w, hw, hwy⟩ := ih hzs hy
        exact ⟨w, List.mem_cons_of_mem x hw, hwy⟩

/-- Every element has its result among the results. -/
theorem mem_mapPy_of_mem {f : α → PyM β} {xs : List α} {ys : List β} {x : α}
    (h : mapPy f xs = .ok ys) (hx : x ∈ xs) : ∃ y ∈ ys, f x = .ok y := by
  induction xs generalizing ys with
  | nil => simp at hx
  | cons w xs ih =>
      simp only [mapPy, bind_eq_ok, pure_eq, Except.ok.injEq] at h
      obtain ⟨z, hz, zs, hzs, rfl⟩ := h
      rcases List.mem_cons.mp hx with rfl | hx
      · exact ⟨z, List.mem_cons_self, hz⟩
      · obtain ⟨y, hy, hxy⟩ := ih hzs hx
        exact ⟨y, List.mem_cons_of_mem z hy, hxy⟩

/-- The map succeeds where the function succeeds on every element. -/
theorem mapPy_ok_of_forall {f : α → PyM β} {xs : List α} (h : ∀ x ∈ xs, ∃ y, f x = .ok y) :
    ∃ ys, mapPy f xs = .ok ys := by
  induction xs with
  | nil => exact ⟨[], rfl⟩
  | cons x xs ih =>
      obtain ⟨y, hy⟩ := h x List.mem_cons_self
      obtain ⟨ys, hys⟩ := ih fun z hz => h z (List.mem_cons_of_mem x hz)
      exact ⟨y :: ys, by simp [mapPy, hy, hys]⟩

/-- The results for two lists, one after the other. -/
theorem mapPy_append {f : α → PyM β} {xs xs' : List α} {ys ys' : List β} (h : mapPy f xs = .ok ys)
    (h' : mapPy f xs' = .ok ys') : mapPy f (xs ++ xs') = .ok (ys ++ ys') := by
  induction xs generalizing ys with
  | nil =>
      obtain rfl := Except.ok.inj h
      exact h'
  | cons x xs ih =>
      simp only [mapPy, bind_eq_ok, pure_eq, Except.ok.injEq] at h
      obtain ⟨z, hz, zs, hzs, rfl⟩ := h
      simp [mapPy, hz, ih hzs]

theorem length_mapPy {f : α → PyM β} {xs : List α} {ys : List β} (h : mapPy f xs = .ok ys) :
    ys.length = xs.length := by
  induction xs generalizing ys with
  | nil =>
      obtain rfl := Except.ok.inj h
      rfl
  | cons x xs ih =>
      simp only [mapPy, bind_eq_ok, pure_eq, Except.ok.injEq] at h
      obtain ⟨z, -, zs, hzs, rfl⟩ := h
      rw [List.length_cons, List.length_cons, ih hzs]

/-- `max` returns an element, and no element has a larger key. -/
theorem maxBy_eq_some [LinearOrder κ] {key : α → PyM κ} {xs : List α} {x : α}
    (h : maxBy key xs = .ok (some x)) :
    x ∈ xs ∧ ∃ k, key x = .ok k ∧ ∀ y ∈ xs, ∃ l, key y = .ok l ∧ l ≤ k := by
  simp only [maxBy, bind_eq_ok, pure_eq, Except.ok.injEq, Option.map_eq_some_iff] at h
  obtain ⟨keyed, hkeyed, ⟨k, x'⟩, hmax, rfl⟩ := h
  have hfst : ∀ p ∈ keyed, p.2 ∈ xs ∧ key p.2 = .ok p.1 := by
    intro p hp
    obtain ⟨y, hy, hpy⟩ := exists_of_mem_mapPy hkeyed hp
    simp only [bind_eq_ok, Except.ok.injEq] at hpy
    obtain ⟨l, hl, rfl⟩ := hpy
    exact ⟨hy, hl⟩
  have hmem := List.argmax_mem (Option.mem_def.mpr hmax)
  refine ⟨(hfst _ hmem).1, k, (hfst _ hmem).2, fun y hy => ?_⟩
  obtain ⟨p, hp, hpy⟩ := mem_mapPy_of_mem hkeyed hy
  simp only [bind_eq_ok, Except.ok.injEq] at hpy
  obtain ⟨l, hl, rfl⟩ := hpy
  exact ⟨l, hl, List.le_of_mem_argmax hp (Option.mem_def.mpr hmax)⟩

theorem maxBy_eq_none [LinearOrder κ] {key : α → PyM κ} {xs : List α}
    (h : maxBy key xs = .ok none) : xs = [] := by
  simp only [maxBy, bind_eq_ok, pure_eq, Except.ok.injEq, Option.map_eq_none_iff,
    List.argmax_eq_none] at h
  obtain ⟨keyed, hkeyed, rfl⟩ := h
  cases xs with
  | nil => rfl
  | cons x xs =>
      obtain ⟨y, hy, -⟩ := mem_mapPy_of_mem hkeyed List.mem_cons_self
      simp at hy

theorem maxBy_ok [LinearOrder κ] {key : α → PyM κ} {xs : List α}
    (h : ∀ x ∈ xs, ∃ k, key x = .ok k) : ∃ best, maxBy key xs = .ok best := by
  obtain ⟨keyed, hkeyed⟩ := @mapPy_ok_of_forall _ _ (fun x => do let k ← key x; return (k, x))
    xs fun x hx => by
      obtain ⟨k, hk⟩ := h x hx
      exact ⟨(k, x), by rw [hk]; rfl⟩
  exact ⟨_, by rw [maxBy, hkeyed, ok_bind, pure_eq]⟩

/-- A maximum that comes first is what `max` returns. -/
theorem maxBy_cons_of_le [LinearOrder κ] {key : α → PyM κ} {x : α} {xs : List α} {k : κ}
    (hx : key x = .ok k) (h : ∀ y ∈ xs, ∃ l, key y = .ok l ∧ l ≤ k) :
    maxBy key (x :: xs) = .ok (some x) := by
  obtain ⟨keyed, hkeyed⟩ := @mapPy_ok_of_forall _ _ (fun x => do let k ← key x; return (k, x))
    xs fun y hy => by
      obtain ⟨l, hl, -⟩ := h y hy
      exact ⟨(l, y), by simp [hl]⟩
  have hle : ∀ p ∈ keyed, p.1 ≤ k := by
    intro p hp
    obtain ⟨y, hy, hpy⟩ := exists_of_mem_mapPy hkeyed hp
    obtain ⟨l, hl, hlk⟩ := h y hy
    simp only [hl, ok_bind, pure_eq, Except.ok.injEq] at hpy
    rw [← hpy]
    exact hlk
  have hargmax : ((k, x) :: keyed).argmax Prod.fst = some (k, x) := by
    rw [List.argmax_cons]
    rcases hmax : keyed.argmax Prod.fst with _ | c
    · rfl
    · have hc := hle c (List.argmax_mem (Option.mem_def.mpr hmax))
      simp only [not_lt.mpr hc, if_false]
  have hcons : mapPy (fun x => do let k ← key x; return (k, x)) (x :: xs)
      = .ok ((k, x) :: keyed) := by
    rw [mapPy, hkeyed]
    simp only [hx, ok_bind, pure_eq]
  rw [maxBy, hcons]
  simp only [ok_bind, pure_eq, hargmax, Option.map_some]

/-- A strict maximum is what `max` returns, wherever it stands. -/
theorem maxBy_eq_of_lt [LinearOrder κ] {key : α → PyM κ} {x : α} {xs : List α} {k : κ}
    (hmem : x ∈ xs) (hx : key x = .ok k)
    (h : ∀ y ∈ xs, y ≠ x → ∃ l, key y = .ok l ∧ l < k) : maxBy key xs = .ok (some x) := by
  have hkeys : ∀ y ∈ xs, ∃ l, key y = .ok l := by
    intro y hy
    by_cases hyx : y = x
    · exact ⟨k, hyx ▸ hx⟩
    · obtain ⟨l, hl, -⟩ := h y hy hyx
      exact ⟨l, hl⟩
  obtain ⟨keyed, hkeyed⟩ := @mapPy_ok_of_forall _ _ (fun x => do let k ← key x; return (k, x))
    xs fun y hy => by
      obtain ⟨l, hl⟩ := hkeys y hy
      exact ⟨(l, y), by simp [hl]⟩
  rcases hmax : maxBy key xs with e | best
  · rw [maxBy, hkeyed] at hmax
    simp at hmax
  rcases best with _ | best
  · rw [maxBy_eq_none hmax] at hmem
    simp at hmem
  · obtain ⟨hbest, m, hm, hall⟩ := maxBy_eq_some hmax
    by_cases hne : best = x
    · rw [hne]
    · -- the strict maximum would be below the one found
      obtain ⟨l, hl, hlt⟩ := h best hbest hne
      obtain ⟨l', hl', hle⟩ := hall x hmem
      rw [hm, Except.ok.injEq] at hl
      rw [hx, Except.ok.injEq] at hl'
      subst hl hl'
      exact absurd hle (not_le.mpr hlt)

/-- Keys that are ordered alike select alike. -/
theorem maxBy_map {κ' : Type} [LinearOrder κ] [LinearOrder κ'] {key : α → PyM κ} {φ : κ → κ'}
    (hφ : StrictMono φ) (xs : List α) :
    maxBy (fun x => (key x).map φ) xs = maxBy key xs := by
  have hmap : mapPy (fun x => do let k ← (key x).map φ; return (k, x)) xs
      = (mapPy (fun x => do let k ← key x; return (k, x)) xs).map
          (List.map fun p => (φ p.1, p.2)) := by
    induction xs with
    | nil => rfl
    | cons x xs ih =>
        rw [mapPy, mapPy, ih]
        rcases key x with e | k
        · rfl
        · rcases mapPy (fun x => do let k ← key x; return (k, x)) xs with e | keyed
          · rfl
          · rfl
  have hargmax : ∀ keyed : List (κ × α), (keyed.map fun p => (φ p.1, p.2)).argmax Prod.fst
      = (keyed.argmax Prod.fst).map fun p => (φ p.1, p.2) := by
    intro keyed
    induction keyed with
    | nil => rfl
    | cons p keyed ih =>
        rw [List.map_cons, List.argmax_cons, List.argmax_cons, ih]
        rcases keyed.argmax Prod.fst with _ | c
        · rfl
        · simp only [Option.map_some, hφ.lt_iff_lt]
          by_cases hlt : p.1 < c.1
          · simp only [hlt, if_true, Option.map_some]
          · simp only [hlt, if_false, Option.map_some]
  rw [maxBy, hmap, maxBy]
  rcases mapPy (fun x => do let k ← key x; return (k, x)) xs with e | keyed
  · rfl
  · simp only [Except.map, ok_bind, pure_eq, hargmax, Option.map_map, Function.comp_def]

end EasyBlockchain.Py
