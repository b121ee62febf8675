/-
Python's `str`, as far as a program that stores, hashes and compares text can
see it: a finite sequence of Unicode code points.

The code points include the surrogates `U+D800 .. U+DFFF`. A Lean `String`
cannot hold them, a Python `str` can (`json.loads` makes one from an unpaired
`\uD800` escape), and `str.encode()` raises on exactly those, so a model over
`String` would lose an exception that the program can meet.

`int(str)` and `str(int)` follow the documented behaviour: surrounding white
space and single underscores between digits are allowed, every Unicode decimal
digit counts, and both directions raise `ValueError` above 4300 digits.
-/
import EasyBlockchain.Lib.PrefixCode
import Mathlib.Data.Nat.Digits.Defs
import Mathlib.Data.List.Lex
import Mathlib.Order.Fin.Basic

set_option autoImplicit false

namespace EasyBlockchain.Py

/-- A Unicode code point, surrogates included. -/
abbrev CodePoint : Type := Fin 0x110000

/-- A Python `str`. -/
abbrev Str : Type := List CodePoint

instance neZero_codePoint : NeZero 0x110000 := ⟨by decide⟩

instance lawfulBEq_str : LawfulBEq (List CodePoint) := List.instLawfulBEq

/-- The code point of a Lean character. -/
def ofChar (c : Char) : CodePoint :=
  ⟨c.toNat, by
    have h := c.valid
    simp only [UInt32.isValidChar, Nat.isValidChar] at h
    simp only [Char.toNat]
    omega⟩

/-- A string literal of the source. -/
def lit (s : String) : Str := s.toList.map ofChar

theorem ofChar_ofNat_val {n : ℕ} (h : n < 0xd800) : (ofChar (Char.ofNat n)).val = n := by
  have hvalid : n.isValidChar := Or.inl h
  rw [ofChar, Char.ofNat, dif_pos hvalid]
  rfl

theorem ofChar_injective : Function.Injective ofChar := by
  intro c d h
  have hv : c.toNat = d.toNat := Fin.mk.inj h
  exact Char.toNat_inj.mp hv

/-! ## Encoding -/

/-- The surrogate range, which UTF-8 does not encode. -/
def isSurrogate (c : CodePoint) : Bool := 0xD800 ≤ c.val && c.val ≤ 0xDFFF

/-- The UTF-8 bytes of one code point that is not a surrogate. -/
def utf8Bytes (c : CodePoint) : List UInt8 :=
  let n := c.val
  if n < 0x80 then [n.toUInt8]
  else if n < 0x800 then [(0xC0 + n / 0x40).toUInt8, (0x80 + n % 0x40).toUInt8]
  else if n < 0x10000 then
    [(0xE0 + n / 0x1000).toUInt8, (0x80 + n / 0x40 % 0x40).toUInt8, (0x80 + n % 0x40).toUInt8]
  else
    [(0xF0 + n / 0x40000).toUInt8, (0x80 + n / 0x1000 % 0x40).toUInt8,
      (0x80 + n / 0x40 % 0x40).toUInt8, (0x80 + n % 0x40).toUInt8]

/-- `s.encode()`: the UTF-8 bytes, or `none` where Python raises
`UnicodeEncodeError`. -/
def utf8 (s : Str) : Option (List UInt8) :=
  if s.any isSurrogate then none else some (s.flatMap utf8Bytes)

theorem toUInt8_inj {m n : ℕ} (hm : m < 256) (hn : n < 256) : m.toUInt8 = n.toUInt8 ↔ m = n := by
  constructor
  · intro h
    have h' := congrArg UInt8.toNat h
    simpa [Nat.toUInt8, Nat.mod_eq_of_lt hm, Nat.mod_eq_of_lt hn] using h'
  · rintro rfl
    rfl

/-- The lead byte of a code point tells how many bytes follow. -/
theorem utf8_prefixCode : Lib.PrefixCode utf8Bytes := by
  constructor
  · intro c
    simp only [utf8Bytes]
    split_ifs <;> simp
  · intro c d hcd
    have hc := c.isLt
    have hd := d.isLt
    apply Fin.ext
    simp only [utf8Bytes] at hcd
    -- four lengths on either side; only equal lengths have compatible lead bytes
    split_ifs at hcd <;>
      simp (disch := omega) only [List.cons_prefix_cons, List.nil_prefix, and_true,
        List.prefix_nil, reduceCtorEq, and_false, toUInt8_inj] at hcd <;>
      omega

/-- Two strings with the same encoding are equal. -/
theorem utf8_inj {s t : Str} {bytes : List UInt8} (hs : utf8 s = some bytes)
    (ht : utf8 t = some bytes) : s = t := by
  unfold utf8 at hs ht
  split at hs
  · cases hs
  · split at ht
    · cases ht
    · apply utf8_prefixCode.flatMap_injective
      exact (Option.some.inj hs).trans (Option.some.inj ht).symm

/-- A continuation byte's six bits. -/
def contBits (b : UInt8) : Option ℕ :=
  if 0x80 ≤ b.toNat ∧ b.toNat < 0xC0 then some (b.toNat - 0x80) else none

/-- A code point from a number below `0x110000`. -/
def codePoint (n : ℕ) : CodePoint := Fin.ofNat 0x110000 n

@[simp] theorem codePoint_val (c : CodePoint) : codePoint c.val = c := by
  simp [codePoint]

/-- `bytes.decode("utf-8")`, or `none` where Python raises `UnicodeDecodeError`:
overlong forms, surrogates and numbers above `0x10FFFF` are refused. -/
def utf8Decode : List UInt8 → Option Str
  | [] => some []
  | a :: rest =>
    if a.toNat < 0x80 then (utf8Decode rest).map (codePoint a.toNat :: ·)
    else if 0xC2 ≤ a.toNat ∧ a.toNat < 0xE0 then
      match rest with
      | b :: rest =>
        match contBits b with
        | some b => (utf8Decode rest).map (codePoint (0x40 * (a.toNat - 0xC0) + b) :: ·)
        | none => none
      | [] => none
    else if 0xE0 ≤ a.toNat ∧ a.toNat < 0xF0 then
      match rest with
      | b :: c :: rest =>
        match contBits b, contBits c with
        | some b, some c =>
          let n := 0x1000 * (a.toNat - 0xE0) + 0x40 * b + c
          if n < 0x800 ∨ (0xD800 ≤ n ∧ n ≤ 0xDFFF) then none
          else (utf8Decode rest).map (codePoint n :: ·)
        | _, _ => none
      | _ => none
    else if 0xF0 ≤ a.toNat ∧ a.toNat < 0xF5 then
      match rest with
      | b :: c :: d :: rest =>
        match contBits b, contBits c, contBits d with
        | some b, some c, some d =>
          let n := 0x40000 * (a.toNat - 0xF0) + 0x1000 * b + 0x40 * c + d
          if n < 0x10000 ∨ 0x10FFFF < n then none
          else (utf8Decode rest).map (codePoint n :: ·)
        | _, _, _ => none
      | _ => none
    else none

theorem toNat_toUInt8 {n : ℕ} (h : n < 256) : n.toUInt8.toNat = n := by
  simp [Nat.toUInt8, Nat.mod_eq_of_lt h]

theorem contBits_toUInt8 {n : ℕ} (h : n < 0x40) : contBits (0x80 + n).toUInt8 = some n := by
  have hn : (0x80 + n).toUInt8.toNat = 0x80 + n := toNat_toUInt8 (by omega)
  rw [contBits, hn, if_pos (by omega)]
  simp

/-- One encoded code point decodes to itself. -/
theorem utf8Decode_utf8Bytes {c : CodePoint} (h : isSurrogate c = false) (t : List UInt8) :
    utf8Decode (utf8Bytes c ++ t) = (utf8Decode t).map (c :: ·) := by
  have hc := c.isLt
  have hnot : ¬ (0xD800 ≤ c.val ∧ c.val ≤ 0xDFFF) := by
    simpa [isSurrogate] using h
  simp only [utf8Bytes]
  split_ifs with h1 h2 h3
  · have ha : c.val.toUInt8.toNat = c.val := toNat_toUInt8 (by omega)
    rw [List.cons_append, List.nil_append, utf8Decode.eq_def]
    simp only [ha, if_pos h1, codePoint_val]
  · have ha : (0xC0 + c.val / 0x40).toUInt8.toNat = 0xC0 + c.val / 0x40 := toNat_toUInt8 (by omega)
    have hn : 0x40 * (0xC0 + c.val / 0x40 - 0xC0) + c.val % 0x40 = c.val := by omega
    rw [List.cons_append, List.cons_append, List.nil_append, utf8Decode.eq_def]
    simp only [ha, contBits_toUInt8 (show c.val % 0x40 < 0x40 by omega), hn, codePoint_val]
    rw [if_neg (by omega), if_pos (by omega)]
  · have ha : (0xE0 + c.val / 0x1000).toUInt8.toNat = 0xE0 + c.val / 0x1000 :=
      toNat_toUInt8 (by omega)
    have hn : 0x1000 * (0xE0 + c.val / 0x1000 - 0xE0) + 0x40 * (c.val / 0x40 % 0x40) + c.val % 0x40
        = c.val := by omega
    rw [List.cons_append, List.cons_append, List.cons_append, List.nil_append, utf8Decode.eq_def]
    simp only [ha, contBits_toUInt8 (show c.val / 0x40 % 0x40 < 0x40 by omega),
      contBits_toUInt8 (show c.val % 0x40 < 0x40 by omega), hn, codePoint_val]
    rw [if_neg (by omega), if_neg (by omega), if_pos (by omega), if_neg (by omega)]
  · have ha : (0xF0 + c.val / 0x40000).toUInt8.toNat = 0xF0 + c.val / 0x40000 :=
      toNat_toUInt8 (by omega)
    have hn : 0x40000 * (0xF0 + c.val / 0x40000 - 0xF0) + 0x1000 * (c.val / 0x1000 % 0x40)
        + 0x40 * (c.val / 0x40 % 0x40) + c.val % 0x40 = c.val := by omega
    rw [List.cons_append, List.cons_append, List.cons_append, List.cons_append, List.nil_append,
      utf8Decode.eq_def]
    simp only [ha, contBits_toUInt8 (show c.val / 0x1000 % 0x40 < 0x40 by omega),
      contBits_toUInt8 (show c.val / 0x40 % 0x40 < 0x40 by omega),
      contBits_toUInt8 (show c.val % 0x40 < 0x40 by omega), hn, codePoint_val]
    rw [if_neg (by omega), if_neg (by omega), if_neg (by omega), if_pos (by omega),
      if_neg (by omega)]

/-- What is encoded decodes to itself. -/
theorem utf8Decode_utf8 {s : Str} {bytes : List UInt8} (h : utf8 s = some bytes) :
    utf8Decode bytes = some s := by
  unfold utf8 at h
  split at h
  · cases h
  rename_i hany
  obtain rfl := Option.some.inj h
  simp only [List.any_eq_true, not_exists, not_and, Bool.not_eq_true] at hany
  clear h
  induction s with
  | nil => rfl
  | cons c s ih =>
      rw [List.flatMap_cons, utf8Decode_utf8Bytes (hany c List.mem_cons_self),
        ih fun d hd => hany d (List.mem_cons_of_mem c hd)]
      rfl

/-! ## Digits and white space -/

/-- The code points of the Unicode digits zero; each starts a run of ten. -/
def decimalZeros : List ℕ :=
  [0x30, 0x660, 0x6f0, 0x7c0, 0x966, 0x9e6, 0xa66, 0xae6, 0xb66, 0xbe6, 0xc66, 0xce6, 0xd66,
    0xde6, 0xe50, 0xed0, 0xf20, 0x1040, 0x1090, 0x17e0, 0x1810, 0x1946, 0x19d0, 0x1a80, 0x1a90,
    0x1b50, 0x1bb0, 0x1c40, 0x1c50, 0xa620, 0xa8d0, 0xa900, 0xa9d0, 0xa9f0, 0xaa50, 0xabf0,
    0xff10, 0x104a0, 0x10d30, 0x11066, 0x110f0, 0x11136, 0x111d0, 0x112f0, 0x11450, 0x114d0,
    0x11650, 0x116c0, 0x11730, 0x118e0, 0x11950, 0x11c50, 0x11d50, 0x11da0, 0x16a60, 0x16ac0,
    0x16b50, 0x1d7ce, 0x1d7d8, 0x1d7e2, 0x1d7ec, 0x1d7f6, 0x1e140, 0x1e2f0, 0x1e950, 0x1fbf0]

/-- The value of a Unicode decimal digit (`\d` of a `str` pattern). -/
def decimal (c : CodePoint) : Option ℕ :=
  (decimalZeros.find? (fun z => z ≤ c.val && c.val < z + 10)).map (c.val - ·)

/-- `str.isspace` of one code point (`\s` of a `str` pattern). -/
def isSpace (c : CodePoint) : Bool :=
  c.val ∈ [0x9, 0xa, 0xb, 0xc, 0xd, 0x1c, 0x1d, 0x1e, 0x1f, 0x20, 0x85, 0xa0, 0x1680, 0x2000,
    0x2001, 0x2002, 0x2003, 0x2004, 0x2005, 0x2006, 0x2007, 0x2008, 0x2009, 0x200a, 0x2028,
    0x2029, 0x202f, 0x205f, 0x3000]

/-- `s.strip()`. -/
def strip (s : Str) : Str := ((s.dropWhile isSpace).reverse.dropWhile isSpace).reverse

/-! ## `str(int)` and `int(str)` -/

/-- `sys.int_info.default_max_str_digits`. -/
def maxStrDigits : ℕ := 4300

/-- The decimal digits of a natural number. -/
def natDigits (n : ℕ) : Str := (Nat.toDigits 10 n).map ofChar

/-- The decimal digits of an integer, with its sign. -/
def intDigits (i : ℤ) : Str :=
  if i < 0 then lit "-" ++ natDigits i.natAbs else natDigits i.natAbs

/-- `str(i)`, or `none` where Python raises `ValueError` for too many digits. -/
def strOfInt (i : ℤ) : Option Str :=
  if (natDigits i.natAbs).length ≤ maxStrDigits then some (intDigits i) else none

/-- Digits with single underscores between them, most significant first. -/
def digitRun : Str → Option (List ℕ)
  | [] => none
  | [c] => (decimal c).map ([·])
  | c :: d :: rest =>
    match decimal c with
    | none => none
    | some n =>
      if d = ofChar '_' then (digitRun rest).map (n :: ·) else (digitRun (d :: rest)).map (n :: ·)

/-- `int(s)`, or `none` where Python raises `ValueError`. -/
def intOfStr (s : Str) : Option ℤ :=
  let body := strip s
  let (negative, digits) :=
    match body with
    | c :: rest =>
      if c = ofChar '-' then (true, rest) else if c = ofChar '+' then (false, rest) else (false, body)
    | [] => (false, body)
  match digitRun digits with
  | none => none
  | some ds =>
    if ds.length ≤ maxStrDigits then
      let n : ℕ := ds.foldl (fun acc d => 10 * acc + d) 0
      some (if negative then -(n : ℤ) else n)
    else none

/-- Two naturals with the same digits are equal. -/
theorem natDigits_injective : Function.Injective natDigits := by
  intro m n h
  have hd : Nat.toDigits 10 m = Nat.toDigits 10 n :=
    List.map_injective_iff.mpr ofChar_injective h
  rw [← Nat.ofDigitChars_ten_toDigits (n := m), hd, Nat.ofDigitChars_ten_toDigits]

/-- Every character of a natural number's digits is an ASCII digit. -/
theorem mem_natDigits {n : ℕ} {c : CodePoint} (h : c ∈ natDigits n) :
    0x30 ≤ c.val ∧ c.val ≤ 0x39 := by
  obtain ⟨d, hd, rfl⟩ := List.mem_map.mp h
  have hdig := Nat.isDigit_of_mem_toDigits (by norm_num) (by norm_num) hd
  simp only [Char.isDigit, Bool.and_eq_true, decide_eq_true_eq] at hdig
  obtain ⟨h1, h2⟩ := hdig
  simp only [ofChar, Char.toNat]
  constructor
  · simpa using UInt32.le_iff_toNat_le.mp h1
  · simpa using UInt32.le_iff_toNat_le.mp h2

/-- UTF-8 encodes every ASCII text. -/
theorem utf8_isSome_of_ascii {s : Str} (h : ∀ c ∈ s, c.val < 0x80) : (utf8 s).isSome := by
  have hany : ¬ (s.any isSurrogate = true) := by
    rw [List.any_eq_true]
    rintro ⟨c, hc, hsurrogate⟩
    have hlt := h c hc
    simp only [isSurrogate, Bool.and_eq_true, decide_eq_true_eq] at hsurrogate
    omega
  rw [utf8, if_neg hany]
  rfl

/-- The digits of an integer are ASCII. -/
theorem ascii_intDigits {i : ℤ} {c : CodePoint} (h : c ∈ intDigits i) : c.val < 0x80 := by
  have hdigit : ∀ c ∈ natDigits i.natAbs, c.val < 0x80 := by
    intro c hc
    have hle := (mem_natDigits hc).2
    omega
  unfold intDigits at h
  split at h
  · rcases List.mem_append.mp h with hminus | hdigits
    · rw [List.mem_singleton.mp hminus]
      decide
    · exact hdigit c hdigits
  · exact hdigit c h

/-- Two integers with the same digits and sign are equal. -/
theorem intDigits_injective : Function.Injective intDigits := by
  intro i j h
  -- a minus sign is not a digit, so the signs agree before the digits do
  have hminus : ∀ (n : ℕ) (s : Str), natDigits n = lit "-" ++ s → False := by
    intro n s hs
    have hmem : ofChar '-' ∈ natDigits n := by
      rw [hs]; exact List.mem_cons_self
    exact absurd (mem_natDigits hmem).1 (by decide)
  by_cases hi : i < 0 <;> by_cases hj : j < 0
  · simp only [intDigits, if_pos hi, if_pos hj] at h
    have habs := natDigits_injective (List.append_cancel_left h)
    omega
  · simp only [intDigits, if_pos hi, if_neg hj] at h
    exact (hminus _ _ h.symm).elim
  · simp only [intDigits, if_neg hi, if_pos hj] at h
    exact (hminus _ _ h).elim
  · simp only [intDigits, if_neg hi, if_neg hj] at h
    have habs := natDigits_injective h
    omega

theorem strOfInt_eq_some {i : ℤ} {s : Str} (h : strOfInt i = some s) : s = intDigits i := by
  unfold strOfInt at h
  split at h
  · exact (Option.some.inj h).symm
  · cases h

/-- `str` does not confuse two integers. -/
theorem strOfInt_inj {i j : ℤ} {s : Str} (hi : strOfInt i = some s) (hj : strOfInt j = some s) :
    i = j :=
  intDigits_injective ((strOfInt_eq_some hi).symm.trans (strOfInt_eq_some hj))

example : intOfStr (lit " -1_0 ") = some (-10) := by decide

end EasyBlockchain.Py
