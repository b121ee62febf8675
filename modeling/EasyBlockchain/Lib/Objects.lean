/-
Computations over mutable objects that are shared by reference.

An `Action` may change its state and may raise; what it wrote before an exception
stays written. `Objects` are states in which an object is reached through the number
of its identity: a new object gets the next number, and a write through a reference is
seen through every reference to that object. A loop that works on a copy of its own
computes what the loop over values computes, and leaves every older object as it was.
-/
import EasyBlockchain.Lib.Growth
import Mathlib.Data.List.GetD

set_option autoImplicit false

namespace EasyBlockchain.Lib

/-- A computation over a state: its result, or what it raised, and the state it leaves. -/
def Action (ε S α : Type) : Type := S → Except ε α × S

namespace Action

variable {ε S α β : Type}

instance : Monad (Action ε S) where
  pure a := fun s => (.ok a, s)
  bind x f := fun s =>
    match x s with
    | (.ok a, s) => f a s
    | (.error e, s) => (.error e, s)

/-- A computation that only reads. -/
def reads (f : S → Except ε α) : Action ε S α := fun s => (f s, s)

def modify (f : S → S) : Action ε S Unit := fun s => (.ok (), f s)

theorem pure_run (a : α) (s : S) : (pure a : Action ε S α) s = (.ok a, s) := rfl

theorem reads_run (f : S → Except ε α) (s : S) : reads f s = (f s, s) := rfl

theorem bind_run (x : Action ε S α) (f : α → Action ε S β) (s : S) : (x >>= f) s =
    match x s with
    | (.ok a, s) => f a s
    | (.error e, s) => (.error e, s) := rfl

theorem bind_ok {x : Action ε S α} {f : α → Action ε S β} {s s' : S} {a : α}
    (h : x s = (.ok a, s')) : (x >>= f) s = f a s' := by
  rw [bind_run, h]

theorem bind_error {x : Action ε S α} {f : α → Action ε S β} {s s' : S} {e : ε}
    (h : x s = (.error e, s')) : (x >>= f) s = (.error e, s') := by
  rw [bind_run, h]

end Action

namespace Objects

variable {ε D ρ α : Type} [Inhabited D]

/-- The object of a reference. -/
def load (objects : List D) (r : ℕ) : D := objects.getD r default

omit [Inhabited D] in
/-- A new object. -/
def alloc (d : D) : Action ε (List D) ℕ := fun objects => (.ok objects.length, objects ++ [d])

/-- A new object like that of `r`. -/
def copy (r : ℕ) : Action ε (List D) ℕ := fun objects => alloc (load objects r) objects

/-- An assignment to the object of `r`. -/
def update (r : ℕ) (f : D → Except ε D) : Action ε (List D) Unit := fun objects =>
  match f (load objects r) with
  | .ok d => (.ok (), objects.set r d)
  | .error e => (.error e, objects)

/-- How a pass ends, without the object it works on. -/
def ending : Pass D ρ → Pass Unit ρ
  | .next _ => .next ()
  | .ret r => .ret r

/-- A loop with an early return whose state is the object of `r`. -/
def enumerateAt (r : ℕ) (body : D → List α → α → Except ε (Pass D ρ)) :
    List α → List α → Action ε (List D) (Pass Unit ρ)
  | _, [] => pure (.next ())
  | seen, x :: xs => fun objects =>
    match body (load objects r) seen x with
    | .error e => (.error e, objects)
    | .ok (.ret out) => (.ok (.ret out), objects)
    | .ok (.next d) => enumerateAt r body (seen ++ [x]) xs (objects.set r d)

variable {objects : List D} {r : ℕ} {d : D}

theorem load_eq_getElem (h : r < objects.length) : load objects r = objects[r] :=
  List.getD_eq_getElem _ _ h

theorem load_append (more : List D) (h : r < objects.length) :
    load (objects ++ more) r = load objects r := by
  rw [load, load, List.getD_append _ _ _ _ h]

theorem load_append_right (objects more : List D) (i : ℕ) :
    load (objects ++ more) (objects.length + i) = load more i := by
  rw [load, List.getD_append_right _ _ _ _ (Nat.le_add_right _ _), Nat.add_sub_cancel_left, load]

theorem load_snoc (objects : List D) (d : D) : load (objects ++ [d]) objects.length = d :=
  load_append_right objects [d] 0

theorem load_set_self (h : r < objects.length) : load (objects.set r d) r = d := by
  rw [load_eq_getElem (by rwa [List.length_set]), List.getElem_set_self]

theorem load_set_of_ne {r' : ℕ} (h : r' ≠ r) : load (objects.set r d) r' = load objects r' := by
  rw [load, load, List.getD_eq_getElem?_getD, List.getD_eq_getElem?_getD,
    List.getElem?_set_ne (Ne.symm h)]

theorem set_load (h : r < objects.length) : objects.set r (load objects r) = objects := by
  rw [load_eq_getElem h, List.set_getElem_self]

theorem enumerateAt_cons (body : D → List α → α → Except ε (Pass D ρ)) (seen : List α) (x : α)
    (xs : List α) : enumerateAt r body seen (x :: xs) objects =
      match body (load objects r) seen x with
      | .error e => (.error e, objects)
      | .ok (.ret out) => (.ok (.ret out), objects)
      | .ok (.next d) => enumerateAt r body (seen ++ [x]) xs (objects.set r d) := rfl

/-- The loop in place is the loop over values; it writes nothing but its object. -/
theorem enumerateAt_eq (body : D → List α → α → Except ε (Pass D ρ)) (seen xs : List α)
    (h : r < objects.length) :
    ∃ d, enumerateAt r body seen xs objects
        = ((enumerate body (load objects r) seen xs).map ending, objects.set r d) ∧
      ∀ d', enumerate body (load objects r) seen xs = .ok (.next d') → d = d' := by
  induction xs generalizing seen objects with
  | nil =>
      refine ⟨load objects r, ?_, ?_⟩
      · rw [set_load h]
        rfl
      · intro d' hd'
        exact Pass.next.inj (Except.ok.inj hd')
  | cons x xs ih =>
      rw [enumerateAt_cons, enumerate]
      rcases hbody : body (load objects r) seen x with e | d₁ | out
      · refine ⟨load objects r, ?_, ?_⟩
        · rw [set_load h]
          rfl
        · intro d' hd'
          cases hd'
      · obtain ⟨d, hrun, hd⟩ := @ih (objects.set r d₁) (seen ++ [x])
          (by rwa [List.length_set])
        rw [load_set_self h] at hrun hd
        refine ⟨d, ?_, hd⟩
        rw [List.set_set] at hrun
        exact hrun
      · refine ⟨load objects r, ?_, ?_⟩
        · rw [set_load h]
          rfl
        · intro d' hd'
          cases hd'

/-- On a copy of its own the loop leaves the older objects and one more. -/
theorem enumerateAt_snoc (body : D → List α → α → Except ε (Pass D ρ)) (xs : List α)
    (objects : List D) (d₀ : D) :
    ∃ d, enumerateAt objects.length body [] xs (objects ++ [d₀])
        = ((enumerate body d₀ [] xs).map ending, objects ++ [d]) ∧
      ∀ d', enumerate body d₀ [] xs = .ok (.next d') → d = d' := by
  have hlast : objects.length < (objects ++ [d₀]).length := by
    rw [List.length_append, List.length_singleton]
    omega
  obtain ⟨d, hrun, hd⟩ := enumerateAt_eq body [] xs hlast
  rw [load_snoc] at hrun hd
  refine ⟨d, ?_, hd⟩
  rw [hrun, List.set_append_right _ _ le_rfl, Nat.sub_self]
  rfl

/-! ### Computations that only make new objects -/

/-- The computation ends in `v` and leaves the objects there were, with new ones after
them. -/
def Makes (x : Action ε (List D) α) (objects : List D) (v : Except ε α) : Prop :=
  ∃ more, x objects = (v, objects ++ more)

section Makes

variable {β : Type} {x : Action ε (List D) α} {f : α → Action ε (List D) β} {v : Except ε α}
  {w : α → Except ε β}

omit [Inhabited D] in
theorem makes_reads (g : List D → Except ε α) (objects : List D) :
    Makes (Action.reads g) objects (g objects) :=
  ⟨[], by rw [List.append_nil]; rfl⟩

omit [Inhabited D] in
theorem makes_pure (a : α) (objects : List D) :
    Makes (pure a : Action ε (List D) α) objects (.ok a) :=
  ⟨[], by rw [List.append_nil]; rfl⟩

omit [Inhabited D] in
/-- What comes after a read works on the same objects. -/
theorem makes_reads_bind {g : List D → Except ε α} {objects : List D}
    (hf : ∀ a, g objects = .ok a → Makes (f a) objects (w a)) :
    Makes (Action.reads g >>= f) objects (g objects >>= w) := by
  cases hg : g objects with
  | error e => exact ⟨[], by rw [List.append_nil, Action.bind_run, Action.reads_run, hg]; rfl⟩
  | ok a =>
      obtain ⟨more, hrest⟩ := hf a hg
      refine ⟨more, ?_⟩
      rw [Action.bind_run, Action.reads_run, hg]
      exact hrest

omit [Inhabited D] in
/-- A sequence ends in what its parts end in, one after the other. -/
theorem Makes.bind (hx : Makes x objects v)
    (hf : ∀ a more, v = .ok a → Makes (f a) (objects ++ more) (w a)) :
    Makes (x >>= f) objects (v >>= w) := by
  obtain ⟨more, hrun⟩ := hx
  cases v with
  | error e => exact ⟨more, Action.bind_error hrun⟩
  | ok a =>
      obtain ⟨more', hrest⟩ := hf a more rfl
      refine ⟨more ++ more', ?_⟩
      rw [Action.bind_ok hrun, hrest, List.append_assoc]
      rfl

end Makes

end Objects

/-- A loop without an early return. -/
theorem enumerate_next {ε α σ ρ : Type*} (f : σ → α → Except ε σ) (s : σ) (seen xs : List α) :
    enumerate (fun s _ x => (f s x).map (Pass.next (ρ := ρ))) s seen xs
      = (xs.foldlM f s).map Pass.next := by
  induction xs generalizing s seen with
  | nil => rfl
  | cons x xs ih =>
      rw [enumerate, List.foldlM_cons]
      rcases f s x with e | s'
      · rfl
      · exact ih s' (seen ++ [x])

end EasyBlockchain.Lib
