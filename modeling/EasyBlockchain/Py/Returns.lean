/-
Computations that end without an exception.

`Returns` is read off a `do` block statement by statement: a sequence returns
when its first part does and what follows returns on its result.
-/
import EasyBlockchain.HashUtils

set_option autoImplicit false

namespace EasyBlockchain.Py

/-- The computation returns a value. -/
def Returns {α : Type} (x : PyM α) : Prop := ∃ a, x = .ok a

section Returns

variable {α β : Type} {x : PyM α} {f : α → PyM β} {e : PyErr} {a : α} {p : Prop}

@[simp] theorem returns_ok : Returns (.ok a : PyM α) := ⟨a, rfl⟩

@[simp] theorem not_returns_error : ¬ Returns (.error e : PyM α) := by
  rintro ⟨a, h⟩
  cases h

theorem returns_bind : Returns (x >>= f) ↔ Returns x ∧ ∀ a, x = .ok a → Returns (f a) := by
  cases x with
  | error e => simp
  | ok a => simp

/-- Where the rest always returns, the first part decides. -/
theorem returns_bind_iff (hf : ∀ a, Returns (f a)) : Returns (x >>= f) ↔ Returns x := by
  rw [returns_bind]
  exact and_iff_left fun a _ => hf a

theorem returns_ite [Decidable p] {y : PyM α} :
    Returns (if p then x else y) ↔ (p → Returns x) ∧ (¬ p → Returns y) := by
  by_cases h : p <;> simp [h]

@[simp] theorem returns_orRaise {o : Option α} : Returns (orRaise e o) ↔ o.isSome := by
  cases o <;> simp [orRaise]

theorem returns_item {v : PyVal} {k : Str} : Returns (v.item k) ↔ ∃ w, v.item k = .ok w := Iff.rfl

end Returns

/-! ## Conversions -/

/-- `int(v)` raises nothing that the validator does not catch. -/
theorem toInt_error {v : PyVal} {e : PyErr} (h : v.toInt = .error e) :
    e = .typeError ∨ e.isValueError = true ∨ e = .overflowError := by
  cases v with
  | str s =>
      simp only [PyVal.toInt, orRaise] at h
      split at h
      · cases h
      · obtain rfl := Except.error.inj h
        exact Or.inr (Or.inl rfl)
  | float f =>
      cases f with
      | nan =>
          obtain rfl := Except.error.inj h
          exact Or.inr (Or.inl rfl)
      | inf s =>
          obtain rfl := Except.error.inj h
          exact Or.inr (Or.inr rfl)
      | negZero => cases h
      | fin q => cases h
  | bool b => cases h
  | int i => cases h
  | _ =>
      obtain rfl := Except.error.inj h
      exact Or.inl rfl

section Texts

variable [Runtime]

/-- The errors of `json.dumps`. -/
def DumpsError (e : PyErr) : Prop := e = .typeError ∨ e = .valueError

theorem keyText_error {k : PyKey} {e : PyErr} (h : keyText k = .error e) : DumpsError e := by
  cases k with
  | int i =>
      simp only [keyText, orRaise] at h
      split at h
      · cases h
      · exact Or.inr (Except.error.inj h).symm
  | other id => exact Or.inl (Except.error.inj h).symm
  | _ => cases h

theorem mapM_entryText_error {ascii : Bool} {entries : List (PyKey × PyM Str)} {e : PyErr}
    (hentries : ∀ p ∈ entries, ∀ e, p.2 = .error e → DumpsError e)
    (h : entries.mapM (entryText ascii) = .error e) : DumpsError e := by
  induction entries with
  | nil => cases h
  | cons p rest ih =>
      rw [List.mapM_cons] at h
      rcases hp : entryText ascii p with e' | t
      · rw [hp, error_bind] at h
        obtain rfl := Except.error.inj h
        rw [entryText] at hp
        rcases hk : keyText p.1 with e'' | k
        · rw [hk, error_bind] at hp
          obtain rfl := Except.error.inj hp
          exact keyText_error hk
        · rcases hv : p.2 with e'' | v
          · rw [hk, hv] at hp
            obtain rfl := Except.error.inj hp
            exact hentries p List.mem_cons_self _ hv
          · rw [hk, hv] at hp
            cases hp
      · rw [hp, ok_bind] at h
        rcases hrest : rest.mapM (entryText ascii) with e' | ts
        · rw [hrest, error_bind] at h
          obtain rfl := Except.error.inj h
          exact ih (fun q hq => hentries q (List.mem_cons_of_mem p hq)) hrest
        · rw [hrest] at h
          cases h

theorem writeItems_error {ascii : Bool} {entries : List (PyKey × PyM Str)} {f : List Str → Str}
    {e : PyErr} (hentries : ∀ p ∈ entries, ∀ e, p.2 = .error e → DumpsError e)
    (h : (do let items ← entries.mapM (entryText ascii); return f items) = .error e) :
    DumpsError e := by
  rcases hm : entries.mapM (entryText ascii) with e' | items
  · rw [hm, error_bind] at h
    obtain rfl := Except.error.inj h
    exact mapM_entryText_error hentries hm
  · rw [hm] at h
    cases h

mutual

/-- `json.dumps` raises `TypeError` and `ValueError` only. -/
theorem dumpsAt_error {style : JsonStyle} {level : ℕ} {e : PyErr} :
    ∀ v : PyVal, dumpsAt style level v = .error e → DumpsError e
  | .none, h => by cases h
  | .bool _, h => by cases h
  | .int i, h => by
      simp only [dumpsAt, orRaise] at h
      split at h
      · cases h
      · exact Or.inr (Except.error.inj h).symm
  | .float _, h => by cases h
  | .str _, h => by cases h
  | .list xs, h => by
      rw [dumpsAt] at h
      rcases hxs : dumpsList style (level + 1) xs with e' | items
      · rw [hxs, error_bind] at h
        obtain rfl := Except.error.inj h
        exact dumpsList_error xs hxs
      · rw [hxs] at h
        cases h
  | .tuple xs, h => by
      rw [dumpsAt] at h
      rcases hxs : dumpsList style (level + 1) xs with e' | items
      · rw [hxs, error_bind] at h
        obtain rfl := Except.error.inj h
        exact dumpsList_error xs hxs
      · rw [hxs] at h
        cases h
  | .dict d, h => by
      have hitems := @dumpsDict_error style (level + 1) d
      simp only [dumpsAt] at h
      split at h
      · rcases hsort : sortItems (dumpsDict style (level + 1) d) with e' | entries
        · rw [hsort, error_bind] at h
          obtain rfl := Except.error.inj h
          rw [sortItems] at hsort
          split at hsort
          · cases hsort
          · exact Or.inl (Except.error.inj hsort).symm
        · rw [hsort, ok_bind] at h
          refine writeItems_error (fun p hp => hitems p ?_) h
          rw [sortItems] at hsort
          split at hsort
          · obtain rfl := Except.ok.inj hsort
            exact (List.perm_insertionSort _ _).mem_iff.mp hp
          · cases hsort
      · exact writeItems_error hitems h
  | .object _ _, h => Or.inl (Except.error.inj h).symm

theorem dumpsList_error {style : JsonStyle} {level : ℕ} {e : PyErr} :
    ∀ xs : List PyVal, dumpsList style level xs = .error e → DumpsError e
  | [], h => by cases h
  | x :: xs, h => by
      rw [dumpsList] at h
      rcases hx : dumpsAt style level x with e' | t
      · rw [hx, error_bind] at h
        obtain rfl := Except.error.inj h
        exact dumpsAt_error x hx
      · rcases hxs : dumpsList style level xs with e' | ts
        · rw [hx, hxs] at h
          obtain rfl := Except.error.inj h
          exact dumpsList_error xs hxs
        · rw [hx, hxs] at h
          cases h

theorem dumpsDict_error {style : JsonStyle} {level : ℕ} :
    ∀ d : Dict, ∀ p ∈ dumpsDict style level d, ∀ e, p.2 = .error e → DumpsError e
  | [], p, hp, _, _ => by cases hp
  | (k, v) :: rest, p, hp, e, h => by
      rw [dumpsDict] at hp
      rcases List.mem_cons.mp hp with rfl | hp
      · exact dumpsAt_error v h
      · exact dumpsDict_error rest p hp e h

end

/-- A text can be hashed where it can be encoded. -/
theorem returns_sha256_hex {data : Str} : Returns (sha256_hex data) ↔ Scalars data := by
  simp only [sha256_hex, encode, pure_eq, returns_bind, returns_orRaise, returns_ok, implies_true,
    and_true, utf8_isSome_iff]

end Texts

end EasyBlockchain.Py
