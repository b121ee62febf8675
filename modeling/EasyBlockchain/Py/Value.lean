/-
Python values as a program that handles decoded JSON meets them.

`PyVal` is what `json.loads` returns (`None`, booleans, integers, floats,
strings, lists, string-keyed dictionaries) together with what a caller can pass
for transaction data beyond that: tuples, dictionaries with other keys, and
objects `json` does not know. A dictionary is the list of its entries in
insertion order.

Equality is Python's `==`: `True == 1 == 1.0`, a list never equals a tuple,
dictionaries compare without order, NaN equals nothing.
-/
import EasyBlockchain.Py.Float

set_option autoImplicit false

namespace EasyBlockchain.Py

/-- A dictionary key. -/
inductive PyKey
  | none
  | bool (b : Bool)
  | int (i : ℤ)
  | float (f : PyFloat)
  | str (s : Str)
  /-- a key `json` refuses, such as a tuple -/
  | other (id : ℕ)
  deriving DecidableEq

/-- A Python value. -/
inductive PyVal
  | none
  | bool (b : Bool)
  | int (i : ℤ)
  | float (f : PyFloat)
  | str (s : Str)
  | list (xs : List PyVal)
  | tuple (xs : List PyVal)
  | dict (kvs : List (PyKey × PyVal))
  /-- an instance `json` does not know, with whether `hash()` accepts it -/
  | object (hashable : Bool) (id : ℕ)

/-- The entries of a dictionary, in insertion order. -/
abbrev Dict : Type := List (PyKey × PyVal)

/-! ## Dictionaries -/

namespace Dict

/-- The value under a string key. -/
def find (d : Dict) (k : Str) : Option PyVal := List.lookup (PyKey.str k) d

/-- `d[k] = v`: in place where the key is there, at the end otherwise. -/
def setKey : Dict → PyKey → PyVal → Dict
  | [], k, v => [(k, v)]
  | (k', v') :: rest, k, v => if k' = k then (k', v) :: rest else (k', v') :: setKey rest k v

/-- `d["k"] = v`. -/
def set (d : Dict) (k : Str) (v : PyVal) : Dict := setKey d (.str k) v

/-- `d.update(e)`. -/
def update (d e : Dict) : Dict := e.foldl (fun d p => setKey d p.1 p.2) d

/-- The entries without a string key. -/
def without (d : Dict) (k : Str) : Dict := d.filter (fun p => p.1 ≠ .str k)

@[simp] theorem find_nil (k : Str) : find [] k = none := rfl

theorem find_cons (k' : PyKey) (v : PyVal) (d : Dict) (k : Str) :
    find ((k', v) :: d) k = if k' = .str k then some v else find d k := by
  unfold find
  rw [List.lookup_cons]
  by_cases h : k' = .str k
  · subst h; simp
  · have hne : (PyKey.str k == k') = false := by simpa using fun e => h e.symm
    simp [h, hne]

@[simp] theorem find_set_self (d : Dict) (k : Str) (v : PyVal) : find (set d k v) k = some v := by
  unfold set
  induction d with
  | nil => simp [setKey, find_cons]
  | cons p rest ih =>
    obtain ⟨k', v'⟩ := p
    by_cases h : k' = .str k
    · simp [setKey, h, find_cons]
    · simp [setKey, h, find_cons, ih]

theorem find_without (d : Dict) (k k' : Str) :
    find (without d k) k' = if k' = k then none else find d k' := by
  induction d with
  | nil => simp [without]
  | cons p rest ih =>
    obtain ⟨k₁, v₁⟩ := p
    have hcons : without ((k₁, v₁) :: rest) k
        = if k₁ = .str k then without rest k else (k₁, v₁) :: without rest k := by
      by_cases h : k₁ = .str k <;> simp [without, h]
    rw [hcons, find_cons]
    by_cases h₁ : k₁ = .str k
    · subst h₁
      rw [if_pos rfl, ih]
      by_cases hk : k' = k
      · rw [if_pos hk, if_pos hk]
      · have hne : PyKey.str k ≠ PyKey.str k' := fun e => hk (PyKey.str.inj e).symm
        rw [if_neg hk, if_neg hk, if_neg hne]
    · rw [if_neg h₁, find_cons, ih]
      by_cases hk : k' = k
      · subst hk; simp [h₁]
      · simp [hk]

theorem find_set_of_ne {k k' : Str} (h : k ≠ k') (d : Dict) (v : PyVal) :
    find (set d k v) k' = find d k' := by
  have hne : PyKey.str k ≠ PyKey.str k' := fun e => h (PyKey.str.inj e)
  unfold set
  induction d with
  | nil => simp [setKey, find_cons, hne]
  | cons p rest ih =>
    obtain ⟨k₁, v₁⟩ := p
    by_cases h₁ : k₁ = .str k
    · simp [setKey, h₁, find_cons, hne]
    · simp only [setKey, if_neg h₁, find_cons, ih]

end Dict

namespace PyVal

/-! ## Numbers and equality -/

/-- The number a `bool`, `int` or `float` denotes; comparison is exact. -/
def num : PyVal → Option PyFloat
  | bool b => some (.fin (if b then 1 else 0))
  | int i => some (.fin i)
  | float f => some f
  | _ => .none

/-- The number a numeric dictionary key denotes. -/
def keyNum : PyKey → Option PyFloat
  | .bool b => some (.fin (if b then 1 else 0))
  | .int i => some (.fin i)
  | .float f => some f
  | _ => .none

/-- `k == k'` for dictionary keys. -/
def keyEq (k k' : PyKey) : Bool :=
  match keyNum k, keyNum k' with
  | some x, some y => x.eq y
  | _, _ => k = k'

/-- The value under a key, by Python's `==` on keys. -/
def findKey (d : Dict) (k : PyKey) : Option PyVal :=
  (d.find? (fun p => keyEq p.1 k)).map (·.2)

mutual

/-- `a == b`. -/
def eq : PyVal → PyVal → Bool
  | none, none => true
  | str s, str t => s = t
  | list xs, list ys => eqList xs ys
  | tuple xs, tuple ys => eqList xs ys
  | dict d, dict d' => d.length = d'.length && eqDict d d'
  | object _ i, object _ j => i = j
  | bool a, b => numEq (bool a) b
  | int a, b => numEq (int a) b
  | float a, b => numEq (float a) b
  | _, _ => false

/-- `==` of two sequences, element by element. -/
def eqList : List PyVal → List PyVal → Bool
  | [], [] => true
  | x :: xs, y :: ys => eq x y && eqList xs ys
  | _, _ => false

/-- Every entry of the first dictionary is in the second. -/
def eqDict : List (PyKey × PyVal) → List (PyKey × PyVal) → Bool
  | [], _ => true
  | (k, v) :: rest, d =>
    (match findKey d k with
      | some w => eq v w
      | Option.none => false) && eqDict rest d

/-- `==` where one side is a number. -/
def numEq (a b : PyVal) : Bool :=
  match num a, num b with
  | some x, some y => x.eq y
  | _, _ => false

end

/-- Only the same string equals a string. -/
theorem eq_str_iff {v : PyVal} {s : Str} : v.eq (str s) = true ↔ v = str s := by
  cases v <;> simp [eq, numEq, num]

/-- A string equals only the same string. -/
theorem str_eq_iff {v : PyVal} {s : Str} : (str s).eq v = true ↔ v = str s := by
  cases v <;> simp [eq, eq_comm]

/-- Equal lists are equal element by element. -/
theorem eqList_iff {xs ys : List PyVal} :
    eqList xs ys = true ↔ List.Forall₂ (fun x y => x.eq y = true) xs ys := by
  induction xs generalizing ys with
  | nil => cases ys <;> simp [eqList]
  | cons x xs ih => cases ys <;> simp [eqList, ih]

/-- Only the same string key equals a string key. -/
theorem findKey_str (d : Dict) (k : Str) : findKey d (.str k) = Dict.find d k := by
  have hkey : ∀ p : PyKey × PyVal, keyEq p.1 (.str k) = decide (p.1 = .str k) := by
    rintro ⟨k', v⟩
    cases k' <;> rfl
  rw [findKey]
  simp only [hkey]
  induction d with
  | nil => rfl
  | cons p rest ih =>
      obtain ⟨k', v⟩ := p
      rw [Dict.find_cons, List.find?_cons]
      by_cases h : k' = .str k
      · simp [h]
      · simpa [h] using ih

/-- Equal dictionaries have equal values under a string key. -/
theorem eqDict_find {d d' : Dict} {k : Str} {v : PyVal} (h : eqDict d d' = true)
    (hv : Dict.find d k = some v) : ∃ w, Dict.find d' k = some w ∧ v.eq w = true := by
  induction d with
  | nil => simp at hv
  | cons p rest ih =>
      obtain ⟨k', v'⟩ := p
      rw [eqDict, Bool.and_eq_true] at h
      rw [Dict.find_cons] at hv
      by_cases hk : k' = .str k
      · rw [if_pos hk, Option.some.injEq] at hv
        subst hk hv
        rw [findKey_str] at h
        rcases hw : Dict.find d' k with _ | w
        · simp [hw] at h
        · exact ⟨w, rfl, by simpa [hw] using h.1⟩
      · rw [if_neg hk] at hv
        exact ih h.2 hv

/-- Two values that denote the same number compare alike. -/
theorem eq_congr_num {v w w' : PyVal} {q : ℚ} (hw : w.num = some (.fin q))
    (hw' : w'.num = some (.fin q)) : v.eq w = v.eq w' := by
  cases w <;> simp only [num, Option.some.injEq, reduceCtorEq] at hw <;>
    cases w' <;> simp only [num, Option.some.injEq, reduceCtorEq] at hw' <;>
    cases v <;> simp only [eq, numEq, num, hw, hw']

/-! ## Identity of values -/

mutual

/-- The same value, `True` told apart from `1` and NaN the same as itself. -/
def same : PyVal → PyVal → Bool
  | none, none => true
  | bool a, bool b => a = b
  | int a, int b => a = b
  | float a, float b => a = b
  | str s, str t => s = t
  | list xs, list ys => sameList xs ys
  | tuple xs, tuple ys => sameList xs ys
  | dict d, dict e => sameDict d e
  | object h i, object h' j => h = h' && i = j
  | _, _ => false

def sameList : List PyVal → List PyVal → Bool
  | [], [] => true
  | x :: xs, y :: ys => same x y && sameList xs ys
  | _, _ => false

def sameDict : List (PyKey × PyVal) → List (PyKey × PyVal) → Bool
  | [], [] => true
  | (k, v) :: d, (k', w) :: e => k = k' && (same v w && sameDict d e)
  | _, _ => false

end

mutual

theorem same_iff : ∀ a b : PyVal, same a b = true ↔ a = b
  | none, b => by cases b <;> simp [same]
  | bool _, b => by cases b <;> simp [same]
  | int _, b => by cases b <;> simp [same]
  | float _, b => by cases b <;> simp [same]
  | str _, b => by cases b <;> simp [same]
  | list xs, b => by cases b <;> simp [same, sameList_iff xs]
  | tuple xs, b => by cases b <;> simp [same, sameList_iff xs]
  | dict d, b => by cases b <;> simp [same, sameDict_iff d]
  | object _ _, b => by cases b <;> simp [same]

theorem sameList_iff : ∀ xs ys : List PyVal, sameList xs ys = true ↔ xs = ys
  | [], ys => by cases ys <;> simp [sameList]
  | x :: xs, ys => by
      cases ys with
      | nil => simp [sameList]
      | cons y ys => simp [sameList, same_iff x y, sameList_iff xs ys]

theorem sameDict_iff : ∀ d e : List (PyKey × PyVal), sameDict d e = true ↔ d = e
  | [], e => by cases e <;> simp [sameDict]
  | (k, v) :: d, e => by
      cases e with
      | nil => simp [sameDict]
      | cons p e =>
          obtain ⟨k', w⟩ := p
          simp [sameDict, same_iff v w, sameDict_iff d e, and_assoc]

end

instance : DecidableEq PyVal := fun a b => decidable_of_iff _ (same_iff a b)

/-- `+ 1` on an index. -/
def addOne [Runtime] : PyVal → PyM PyVal
  | bool b => .ok (int (if b then 2 else 1))
  | int i => .ok (int (i + 1))
  | float f => .ok (float f.addOne)
  | _ => .error .typeError

/-! ## Conversions -/

/-- `bool(v)`. -/
def truthy : PyVal → Bool
  | none => false
  | bool b => b
  | int i => i ≠ 0
  | float f => f.truthy
  | str s => !s.isEmpty
  | list xs => !xs.isEmpty
  | tuple xs => !xs.isEmpty
  | dict d => !d.isEmpty
  | object _ _ => true

/-- `int(v)`. -/
def toInt : PyVal → PyM ℤ
  | bool b => .ok (if b then 1 else 0)
  | int i => .ok i
  | float f => f.toInt
  | str s => orRaise .valueError (intOfStr s)
  | _ => .error .typeError

/-- `len(v)`. -/
def len : PyVal → PyM ℕ
  | str s => .ok s.length
  | list xs => .ok xs.length
  | tuple xs => .ok xs.length
  | dict d => .ok d.length
  | _ => .error .typeError

mutual

/-- Whether `hash(v)` succeeds. -/
def hashable : PyVal → Bool
  | list _ => false
  | dict _ => false
  | tuple xs => hashableList xs
  | object h _ => h
  | _ => true

/-- Whether every element can be hashed. -/
def hashableList : List PyVal → Bool
  | [] => true
  | x :: xs => hashable x && hashableList xs

end

/-! ## Access -/

/-- `v["k"]`. -/
def item (v : PyVal) (k : Str) : PyM PyVal :=
  match v with
  | dict d => orRaise .keyError (Dict.find d k)
  | _ => .error .typeError

/-- `v.get("k", default)`. -/
def get (v : PyVal) (k : Str) (default : PyVal) : PyM PyVal :=
  match v with
  | dict d => .ok ((Dict.find d k).getD default)
  | _ => .error .attributeError

/-- `"k" in v`, where `v` is a dictionary. -/
def has (v : PyVal) (k : Str) : PyM Bool :=
  match v with
  | dict d => .ok (Dict.find d k).isSome
  | _ => .error .typeError

/-- `v["k"] = w`. -/
def setItem (v : PyVal) (k : Str) (w : PyVal) : PyM PyVal :=
  match v with
  | dict d => .ok (dict (Dict.set d k w))
  | _ => .error .typeError

theorem item_eq_ok {v w : PyVal} {k : Str} :
    v.item k = .ok w ↔ ∃ d, v = dict d ∧ Dict.find d k = some w := by
  cases v <;> simp [item]

/-- Equal values have equal entries. -/
theorem item_of_eq {x y v : PyVal} {k : Str} (h : x.eq y = true) (hv : x.item k = .ok v) :
    ∃ w, y.item k = .ok w ∧ v.eq w = true := by
  obtain ⟨d, rfl, hfind⟩ := item_eq_ok.mp hv
  cases y with
  | dict d' =>
      rw [eq, Bool.and_eq_true] at h
      obtain ⟨w, hw, heq⟩ := eqDict_find h.2 hfind
      exact ⟨w, item_eq_ok.mpr ⟨d', rfl, hw⟩, heq⟩
  | _ => simp [eq] at h

theorem get_eq_ok {v w default : PyVal} {k : Str} :
    v.get k default = .ok w ↔ ∃ d, v = dict d ∧ (Dict.find d k).getD default = w := by
  cases v <;> simp [get]

@[simp] theorem item_dict (d : Dict) (k : Str) : (dict d).item k = orRaise .keyError (Dict.find d k) := rfl

@[simp] theorem get_dict (d : Dict) (k : Str) (default : PyVal) :
    (dict d).get k default = .ok ((Dict.find d k).getD default) := rfl

@[simp] theorem setItem_dict (d : Dict) (k : Str) (w : PyVal) :
    (dict d).setItem k w = .ok (dict (Dict.set d k w)) := rfl

@[simp] theorem has_dict (d : Dict) (k : Str) : (dict d).has k = .ok (Dict.find d k).isSome := rfl

theorem has_eq_true {v : PyVal} {k : Str} : v.has k = .ok true ↔ ∃ w, v.item k = .ok w := by
  cases v <;> simp [has, item, Option.isSome_iff_exists]

/-- A value that is there is what `get` returns, whatever the default. -/
theorem get_of_item {v w default : PyVal} {k : Str} (h : v.item k = .ok w) :
    v.get k default = .ok w := by
  obtain ⟨d, rfl, hw⟩ := item_eq_ok.mp h
  simp [hw]

/-- A value other than the default that `get` returns is there. -/
theorem item_of_get {v w default : PyVal} {k : Str} (h : v.get k default = .ok w)
    (hne : w ≠ default) : v.item k = .ok w := by
  obtain ⟨d, rfl, hw⟩ := get_eq_ok.mp h
  rcases hf : Dict.find d k with _ | u
  · rw [hf] at hw
    exact absurd hw.symm hne
  · rw [hf] at hw
    obtain rfl : u = w := hw
    simp [hf]

/-! ## JSON values -/

mutual

/-- What `json.loads` can return. -/
def isJson : PyVal → Bool
  | list xs => isJsonList xs
  | dict d => isJsonDict d
  | tuple _ => false
  | object _ _ => false
  | _ => true

/-- A list of JSON values. -/
def isJsonList : List PyVal → Bool
  | [] => true
  | x :: xs => isJson x && isJsonList xs

/-- String keys, all different, over JSON values. -/
def isJsonDict : List (PyKey × PyVal) → Bool
  | [] => true
  | (.str k, v) :: rest => isJson v && (Dict.find rest k).isNone && isJsonDict rest
  | _ => false

end

example : (list [bool true, str (lit "a")]).eq (list [float (.fin 1), str (lit "a")]) = true := by
  decide

end PyVal

end EasyBlockchain.Py
