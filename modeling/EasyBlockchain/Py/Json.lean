/-
`json.dumps`, as text.

One encoder with the three options the source uses: `sort_keys`,
`ensure_ascii` and `indent=2`. Keys are sorted as Python sorts them, before
their conversion to text, so integer keys sort as numbers; a mixture of keys
that Python cannot compare raises `TypeError`. Strings are escaped as
documented; code points above `U+FFFF` become a surrogate pair under
`ensure_ascii`.

`canon` forgets what `sort_keys` forgets: the order of keys. Two values with
the same canonical form are the same JSON value up to key order.
-/
import EasyBlockchain.Py.Value
import Mathlib.Data.List.Sort

set_option autoImplicit false

namespace EasyBlockchain.Py

/-- Options of `json.dumps`. -/
structure JsonStyle where
  sortKeys : Bool
  ensureAscii : Bool
  indent : Bool

/-! ## Strings -/

/-- One lower-case hexadecimal digit. -/
def hexDigit (n : ℕ) : CodePoint := ofChar (Nat.digitChar (n % 16))

/-- The value of a hexadecimal digit. -/
def hexValue (c : CodePoint) : Option ℕ :=
  let n := c.val
  if 0x30 ≤ n ∧ n ≤ 0x39 then some (n - 0x30)
  else if 0x61 ≤ n ∧ n ≤ 0x66 then some (n - 0x61 + 10)
  else if 0x41 ≤ n ∧ n ≤ 0x46 then some (n - 0x41 + 10)
  else none

theorem hexValue_hexDigit (n : ℕ) : hexValue (hexDigit n) = some (n % 16) := by
  have h : ∀ i : Fin 16, hexValue (hexDigit i.val) = some i.val := by decide
  have hn : hexDigit n = hexDigit (n % 16) := by simp [hexDigit]
  rw [hn]
  exact h ⟨n % 16, by omega⟩

/-- A `\uXXXX` escape. -/
def unicodeEscape (n : ℕ) : Str :=
  [ofChar '\\', ofChar 'u', hexDigit (n / 0x1000), hexDigit (n / 0x100), hexDigit (n / 0x10),
    hexDigit n]

/-- One code point inside a JSON string. -/
def escapeChar (ensureAscii : Bool) (c : CodePoint) : Str :=
  let n := c.val
  if n = 0x22 then lit "\\\""
  else if n = 0x5c then lit "\\\\"
  else if n = 0x0a then lit "\\n"
  else if n = 0x0d then lit "\\r"
  else if n = 0x09 then lit "\\t"
  else if n = 0x0c then lit "\\f"
  else if n = 0x08 then lit "\\b"
  else if n < 0x20 then unicodeEscape n
  else if n < 0x7f || !ensureAscii then [c]
  else if n < 0x10000 then unicodeEscape n
  else
    unicodeEscape (0xd800 + (n - 0x10000) / 0x400) ++ unicodeEscape (0xdc00 + (n - 0x10000) % 0x400)

/-- A JSON string literal. -/
def quote (ensureAscii : Bool) (s : Str) : Str :=
  lit "\"" ++ s.flatMap (escapeChar ensureAscii) ++ lit "\""

/-! ## Layout -/

/-- A line break and the indentation of nesting level `level`. -/
def newlineIndent (level : ℕ) : Str := ofChar '\n' :: List.replicate (2 * level) (ofChar ' ')

/-- The items of a list or an object between its brackets. -/
def bracket (style : JsonStyle) (level : ℕ) (opening closing : Str) (items : List Str) : Str :=
  if items.isEmpty then opening ++ closing
  else if style.indent then
    opening ++ newlineIndent (level + 1)
      ++ List.intercalate (lit "," ++ newlineIndent (level + 1)) items
      ++ newlineIndent level ++ closing
  else opening ++ List.intercalate (lit ", ") items ++ closing

/-! ## Keys -/

/-- The text of a string key, `none` for the others. -/
def PyKey.text : PyKey → Option Str
  | .str s => some s
  | _ => Option.none

/-- `k ≤ k'` as `sorted` decides it, for keys it can compare. -/
def PyKey.le (k k' : PyKey) : Bool :=
  match k, k' with
  | .str s, .str t => s ≤ t
  | _, _ =>
    match PyVal.keyNum k, PyVal.keyNum k' with
    | some x, some y => !y.lt x
    | _, _ => true

/-- The entries ordered by key; the order of equal keys is kept. -/
def sortByKey {α : Type} (d : List (PyKey × α)) : List (PyKey × α) :=
  d.insertionSort (fun p q => p.1.le q.1)

/-- `sorted(d.items())`: raises when Python cannot compare two of the keys. -/
def sortItems {α : Type} (d : List (PyKey × α)) : PyM (List (PyKey × α)) :=
  if d.length ≤ 1 || d.all (fun p => p.1.text.isSome) || d.all (fun p => (PyVal.keyNum p.1).isSome) then
    .ok (sortByKey d)
  else .error .typeError

section Dumps

variable [Runtime]

/-- A float as `json` writes it. -/
def floatText : PyFloat → Str
  | .nan => lit "NaN"
  | .inf false => lit "Infinity"
  | .inf true => lit "-Infinity"
  | f => Runtime.floatRepr f

/-- A dictionary key as `json` writes it, before quoting. -/
def keyText : PyKey → PyM Str
  | .str s => .ok s
  | .none => .ok (lit "null")
  | .bool b => .ok (if b then lit "true" else lit "false")
  | .int i => orRaise .valueError (strOfInt i)
  | .float f => .ok (floatText f)
  | .other _ => .error .typeError

/-- The entry `"key": value`. -/
def entryText (ensureAscii : Bool) (p : PyKey × PyM Str) : PyM Str := do
  let k ← keyText p.1
  let v ← p.2
  return quote ensureAscii k ++ lit ": " ++ v

mutual

/-- The text of a value at a nesting level. -/
def dumpsAt (style : JsonStyle) : ℕ → PyVal → PyM Str
  | _, .none => .ok (lit "null")
  | _, .bool b => .ok (if b then lit "true" else lit "false")
  | _, .int i => orRaise .valueError (strOfInt i)
  | _, .float f => .ok (floatText f)
  | _, .str s => .ok (quote style.ensureAscii s)
  | level, .list xs => do
    let items ← dumpsList style (level + 1) xs
    return bracket style level (lit "[") (lit "]") items
  | level, .tuple xs => do
    let items ← dumpsList style (level + 1) xs
    return bracket style level (lit "[") (lit "]") items
  | level, .dict d => do
    let entries := dumpsDict style (level + 1) d
    let entries ← if style.sortKeys then sortItems entries else pure entries
    let items ← entries.mapM (entryText style.ensureAscii)
    return bracket style level (lit "\x7b") (lit "\x7d") items
  | _, .object _ _ => .error .typeError

/-- The texts of the elements of a sequence. -/
def dumpsList (style : JsonStyle) : ℕ → List PyVal → PyM (List Str)
  | _, [] => .ok []
  | level, x :: xs => do
    let t ← dumpsAt style level x
    let ts ← dumpsList style level xs
    return t :: ts

/-- The entries of a dictionary with the texts of their values. -/
def dumpsDict (style : JsonStyle) : ℕ → List (PyKey × PyVal) → List (PyKey × PyM Str)
  | _, [] => []
  | level, (k, v) :: rest => (k, dumpsAt style level v) :: dumpsDict style level rest

end

/-- `json.dumps(v, ...)`. -/
def dumps (style : JsonStyle) (v : PyVal) : PyM Str := dumpsAt style 0 v

/-- `s.encode()`. -/
def encode (s : Str) : PyM (List UInt8) := orRaise .unicodeEncodeError (utf8 s)

end Dumps

/-- `json.dumps(v, sort_keys=True)`. -/
def sortedAscii : JsonStyle := ⟨true, true, false⟩

/-- `json.dumps(v)`. -/
def plainAscii : JsonStyle := ⟨false, true, false⟩

/-- `json.dumps(v, sort_keys=True, ensure_ascii=False)`. -/
def sortedUtf8 : JsonStyle := ⟨true, false, false⟩

/-- `json.dumps(v, indent=2, ensure_ascii=False)`. -/
def indentedUtf8 : JsonStyle := ⟨false, false, true⟩

/-! ## `repr` of a byte string -/

/-- One byte inside a bytes literal quoted with `q`. -/
def reprByte (q : CodePoint) (b : UInt8) : Str :=
  let n := b.toNat
  if n = q.val || n = 0x5c then [ofChar '\\', ofChar (Char.ofNat n)]
  else if n = 0x09 then lit "\\t"
  else if n = 0x0a then lit "\\n"
  else if n = 0x0d then lit "\\r"
  else if n < 0x20 || 0x7f ≤ n then lit "\\x" ++ [hexDigit (n / 0x10), hexDigit n]
  else [ofChar (Char.ofNat n)]

/-- The quote `repr` chooses: double quotes only around a `'` without a `"`. -/
def reprQuote (bs : List UInt8) : CodePoint :=
  if bs.contains 0x27 && !bs.contains 0x22 then ofChar '"' else ofChar '\''

/-- `str(bs)` of a byte string, its literal with the leading `b`. -/
def reprBytes (bs : List UInt8) : Str :=
  ofChar 'b' :: reprQuote bs :: bs.flatMap (reprByte (reprQuote bs)) ++ [reprQuote bs]

theorem hexDigit_val_inj {m n : ℕ} : (hexDigit m).val = (hexDigit n).val ↔ m % 16 = n % 16 := by
  have h : ∀ i j : Fin 16, (hexDigit i.val).val = (hexDigit j.val).val → i = j := by decide
  constructor
  · intro heq
    have hm : hexDigit m = hexDigit (m % 16) := by simp [hexDigit]
    have hn : hexDigit n = hexDigit (n % 16) := by simp [hexDigit]
    rw [hm, hn] at heq
    exact congrArg Fin.val (h ⟨m % 16, by omega⟩ ⟨n % 16, by omega⟩ heq)
  · intro heq
    simp only [hexDigit, heq]

/-- Every escape starts with a backslash, and its second character tells its
length. -/
theorem reprByte_prefixCode {q : CodePoint} (hq : q.val = 0x22 ∨ q.val = 0x27) :
    Lib.PrefixCode (reprByte q) := by
  have ht : lit "\\t" = [ofChar '\\', ofChar 't'] := rfl
  have hn : lit "\\n" = [ofChar '\\', ofChar 'n'] := rfl
  have hr : lit "\\r" = [ofChar '\\', ofChar 'r'] := rfl
  have hx : lit "\\x" = [ofChar '\\', ofChar 'x'] := rfl
  have vb : (ofChar '\\').val = 0x5c := rfl
  have vt : (ofChar 't').val = 0x74 := rfl
  have vn : (ofChar 'n').val = 0x6e := rfl
  have vr : (ofChar 'r').val = 0x72 := rfl
  have vx : (ofChar 'x').val = 0x78 := rfl
  constructor
  · intro b
    simp only [reprByte, ht, hn, hr, hx]
    split_ifs <;> simp
  · intro a b hab
    have ha := a.toNat_lt
    have hb := b.toNat_lt
    apply UInt8.toNat_inj.mp
    simp only [reprByte, ht, hn, hr, hx, Bool.or_eq_true, decide_eq_true_eq] at hab
    split_ifs at hab <;>
      simp (disch := omega) only [List.cons_append, List.nil_append, List.cons_prefix_cons,
        List.nil_prefix, and_true, true_and, List.prefix_nil, reduceCtorEq, and_false, Fin.ext_iff,
        hexDigit_val_inj, ofChar_ofNat_val, vb, vt, vn, vr, vx] at hab <;>
      omega

theorem reprQuote_val (bs : List UInt8) : (reprQuote bs).val = 0x22 ∨ (reprQuote bs).val = 0x27 := by
  unfold reprQuote
  split
  · exact Or.inl rfl
  · exact Or.inr rfl

/-- A byte string is determined by its literal. -/
theorem reprBytes_injective : Function.Injective reprBytes := by
  intro bs bs' h
  unfold reprBytes at h
  obtain ⟨hquote, hbody⟩ := List.cons.inj (List.cons.inj h).2
  rw [hquote] at hbody
  have hflat := List.append_cancel_right hbody
  exact (reprByte_prefixCode (reprQuote_val bs')).flatMap_injective hflat

/-! ## Canonical forms -/

mutual

/-- The value with every dictionary ordered by key. -/
def canon : PyVal → PyVal
  | .list xs => .list (canonList xs)
  | .tuple xs => .tuple (canonList xs)
  | .dict d => .dict (sortByKey (canonDict d))
  | v => v

/-- The canonical forms of the elements. -/
def canonList : List PyVal → List PyVal
  | [] => []
  | x :: xs => canon x :: canonList xs

/-- The entries with canonical values. -/
def canonDict : List (PyKey × PyVal) → List (PyKey × PyVal)
  | [] => []
  | (k, v) :: rest => (k, canon v) :: canonDict rest

end

/-! Sorting by key is stable, so it does not change what a key finds. -/

theorem PyKey.le_refl_str (k : Str) : PyKey.le (.str k) (.str k) = true := by
  simp [PyKey.le]

theorem find_orderedInsert (p : PyKey × PyVal) (d : Dict) (k : Str) :
    Dict.find (List.orderedInsert (fun p q : PyKey × PyVal => p.1.le q.1 = true) p d) k
      = Dict.find (p :: d) k := by
  induction d with
  | nil => rfl
  | cons q rest ih =>
      obtain ⟨kp, vp⟩ := p
      obtain ⟨kq, vq⟩ := q
      rw [List.orderedInsert]
      by_cases hle : kp.le kq = true
      · rw [if_pos hle]
      · rw [if_neg hle, Dict.find_cons, ih, Dict.find_cons, Dict.find_cons, Dict.find_cons]
        by_cases hp : kp = .str k
        · -- an equal key would have been in order
          have hq : ¬ kq = .str k := by
            intro hq
            rw [hp, hq] at hle
            exact hle (PyKey.le_refl_str k)
          simp only [if_pos hp, if_neg hq]
        · simp only [if_neg hp]

@[simp] theorem find_sortByKey (d : Dict) (k : Str) : Dict.find (sortByKey d) k = Dict.find d k := by
  induction d with
  | nil => rfl
  | cons p rest ih =>
      have hsort : sortByKey (p :: rest)
          = List.orderedInsert (fun p q : PyKey × PyVal => p.1.le q.1 = true) p (sortByKey rest) :=
        rfl
      rw [hsort, find_orderedInsert, Dict.find_cons, Dict.find_cons, ih]

@[simp] theorem find_canonDict (d : Dict) (k : Str) :
    Dict.find (canonDict d) k = (Dict.find d k).map canon := by
  induction d with
  | nil => simp [canonDict]
  | cons p rest ih =>
      obtain ⟨k', v⟩ := p
      rw [canonDict, Dict.find_cons, Dict.find_cons, ih]
      split <;> rfl

/-- Only a string has the canonical form of a string. -/
theorem canon_eq_str {v : PyVal} {s : Str} : canon v = .str s ↔ v = .str s := by
  cases v <;> simp [canon]

/-- Only a dictionary has the canonical form of a dictionary. -/
theorem canon_eq_dict {v : PyVal} {e : Dict} (h : canon v = .dict e) :
    ∃ d, v = .dict d ∧ sortByKey (canonDict d) = e := by
  cases v <;> simp_all [canon]

/-- The same JSON value, up to the order of keys. -/
def JsonEq (a b : PyVal) : Prop := canon a = canon b

theorem JsonEq.refl (a : PyVal) : JsonEq a a := rfl

/-- Equal dictionaries hold equal values under every key. -/
theorem JsonEq.find {d e : Dict} (h : JsonEq (.dict d) (.dict e)) (k : Str) :
    (Dict.find d k).map canon = (Dict.find e k).map canon := by
  have hsorted : sortByKey (canonDict d) = sortByKey (canonDict e) := by
    simpa only [JsonEq, canon, PyVal.dict.injEq] using h
  have hfind := congrArg (fun s => Dict.find s k) hsorted
  simpa only [find_sortByKey, find_canonDict] using hfind

theorem JsonEq.symm {a b : PyVal} (h : JsonEq a b) : JsonEq b a := Eq.symm h

theorem JsonEq.trans {a b c : PyVal} (h : JsonEq a b) (h' : JsonEq b c) : JsonEq a c :=
  Eq.trans h h'

end EasyBlockchain.Py
