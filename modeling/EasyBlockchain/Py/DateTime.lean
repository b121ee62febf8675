/-
`datetime` values to the second, and the one format the source reads and
writes: `%Y-%m-%d %H:%M:%S`.

`strptime` is the matcher CPython builds from that format. It is looser than
`strftime`: one-digit fields, any run of white space between date and time and
Unicode digits in some places are accepted. No alternative of a field needs
backtracking, because the character after the field is never a digit.
-/
import EasyBlockchain.Py.Str

set_option autoImplicit false

namespace EasyBlockchain.Py

/-! ## The calendar -/

/-- Gregorian leap years. -/
def isLeap (year : ℕ) : Bool := year % 4 = 0 && (year % 100 ≠ 0 || year % 400 = 0)

/-- The length of a month. -/
def daysInMonth (year month : ℕ) : ℕ :=
  if month = 2 then (if isLeap year then 29 else 28)
  else if month ∈ [4, 6, 9, 11] then 30
  else 31

/-- The ranges `datetime` enforces on its fields. -/
def validFields (year month day hour minute second : ℕ) : Prop :=
  (1 ≤ year ∧ year ≤ 9999) ∧ (1 ≤ month ∧ month ≤ 12) ∧
    (1 ≤ day ∧ day ≤ daysInMonth year month) ∧ hour < 24 ∧ minute < 60 ∧ second < 60

instance (year month day hour minute second : ℕ) :
    Decidable (validFields year month day hour minute second) := by
  unfold validFields; infer_instance

theorem validFields_2024 : validFields 2024 1 1 0 0 0 := by decide

/-- A naive `datetime` without microseconds. -/
structure DateTime where
  year : ℕ
  month : ℕ
  day : ℕ
  hour : ℕ
  minute : ℕ
  second : ℕ
  valid : validFields year month day hour minute second
  deriving DecidableEq

namespace DateTime

/-- The constructor, which refuses fields out of range. -/
def make (year month day hour minute second : ℕ) : Option DateTime :=
  if h : validFields year month day hour minute second then
    some ⟨year, month, day, hour, minute, second, h⟩
  else none

/-- The day number, counted from the first of January of year one. -/
def ordinal (t : DateTime) : ℕ :=
  let y := t.year - 1
  365 * y + y / 4 - y / 100 + y / 400
    + ((List.range t.month).tail.map (daysInMonth t.year)).sum + t.day

/-- Seconds on the same scale; differences are `total_seconds()`. -/
def seconds (t : DateTime) : ℤ :=
  86400 * t.ordinal + 3600 * t.hour + 60 * t.minute + t.second

end DateTime

/-! ## `strftime` -/

/-- The digit `n`. -/
def digit (n : ℕ) : CodePoint := ofChar (Nat.digitChar n)

/-- A number below 100 with two digits. -/
def pad2 (n : ℕ) : Str := [digit (n / 10), digit (n % 10)]

/-- A number below 10000 with four digits. -/
def pad4 (n : ℕ) : Str := pad2 (n / 100) ++ pad2 (n % 100)

/-- `t.strftime("%Y-%m-%d %H:%M:%S")`. -/
def strftime (t : DateTime) : Str :=
  pad4 t.year ++ lit "-" ++ pad2 t.month ++ lit "-" ++ pad2 t.day ++ lit " "
    ++ pad2 t.hour ++ lit ":" ++ pad2 t.minute ++ lit ":" ++ pad2 t.second

/-! ## `strptime` -/

/-- An ASCII digit (`[0-9]` of a pattern). -/
def asciiDigit (c : CodePoint) : Option ℕ :=
  if 0x30 ≤ c.val ∧ c.val ≤ 0x39 then some (c.val - 0x30) else none

/-- A field of one or two characters; the two-character reading comes first. -/
def field (two : CodePoint → CodePoint → Option ℕ) (one : CodePoint → Option ℕ) :
    Str → Option (ℕ × Str)
  | [] => none
  | [a] => (one a).map (·, [])
  | a :: b :: rest =>
    match two a b with
    | some n => some (n, rest)
    | none => (one a).map (·, b :: rest)

/-- `[1-9]`. -/
def nonzeroDigit (c : CodePoint) : Option ℕ :=
  match asciiDigit c with
  | some 0 => none
  | d => d

/-- `%m`: `1[0-2]|0[1-9]` of two characters. -/
def monthTwo (a b : CodePoint) : Option ℕ :=
  match asciiDigit a, asciiDigit b with
  | some 1, some n => if n ≤ 2 then some (10 + n) else none
  | some 0, some n => if 1 ≤ n then some n else none
  | _, _ => none

/-- `%d`: `3[0-1]|[1-2]\d|0[1-9]| [1-9]` of two characters. -/
def dayTwo (a b : CodePoint) : Option ℕ :=
  match asciiDigit a with
  | some 3 => (asciiDigit b).bind fun n => if n ≤ 1 then some (30 + n) else none
  | some 0 => nonzeroDigit b
  | some m => if m ≤ 2 then (decimal b).map (10 * m + ·) else none
  | none => if a = ofChar ' ' then nonzeroDigit b else none

/-- `%H`: `2[0-3]|[0-1]\d` of two characters. -/
def hourTwo (a b : CodePoint) : Option ℕ :=
  match asciiDigit a with
  | some 2 => (asciiDigit b).bind fun n => if n ≤ 3 then some (20 + n) else none
  | some m => if m ≤ 1 then (decimal b).map (10 * m + ·) else none
  | none => none

/-- `%M`: `[0-5]\d` of two characters. -/
def minuteTwo (a b : CodePoint) : Option ℕ :=
  (asciiDigit a).bind fun m => if m ≤ 5 then (decimal b).map (10 * m + ·) else none

/-- `%S`: `6[0-1]|[0-5]\d` of two characters. -/
def secondTwo (a b : CodePoint) : Option ℕ :=
  match asciiDigit a with
  | some 6 => (asciiDigit b).bind fun n => if n ≤ 1 then some (60 + n) else none
  | _ => minuteTwo a b

/-- `%Y`: four digits. -/
def yearField : Str → Option (ℕ × Str)
  | a :: b :: c :: d :: rest => do
    let a ← decimal a
    let b ← decimal b
    let c ← decimal c
    let d ← decimal d
    return (1000 * a + 100 * b + 10 * c + d, rest)
  | _ => none

/-- One literal character of the format. -/
def literal (c : CodePoint) : Str → Option Str
  | [] => none
  | d :: rest => if d = c then some rest else none

/-- A blank of the format: a non-empty run of white space. -/
def blanks : Str → Option Str
  | [] => none
  | d :: rest => if isSpace d then some (rest.dropWhile isSpace) else none

/-- `datetime.strptime(s, "%Y-%m-%d %H:%M:%S")`, or `none` for `ValueError`. -/
def strptime (s : Str) : Option DateTime := do
  let (year, s) ← yearField s
  let s ← literal (ofChar '-') s
  let (month, s) ← field monthTwo nonzeroDigit s
  let s ← literal (ofChar '-') s
  let (day, s) ← field dayTwo nonzeroDigit s
  let s ← blanks s
  let (hour, s) ← field hourTwo decimal s
  let s ← literal (ofChar ':') s
  let (minute, s) ← field minuteTwo decimal s
  let s ← literal (ofChar ':') s
  let (second, s) ← field secondTwo decimal s
  if s = [] then DateTime.make year month day hour minute second else none

/-! ## Reading back what was written -/

theorem field_pad2 {two : CodePoint → CodePoint → Option ℕ} {one : CodePoint → Option ℕ} {n : ℕ}
    (h : two (digit (n / 10)) (digit (n % 10)) = some n) (rest : Str) :
    field two one (pad2 n ++ rest) = some (n, rest) := by
  simp [pad2, field, h]

theorem decimal_digit {n : ℕ} (h : n < 10) : decimal (digit n) = some n := by
  revert n; decide

theorem monthTwo_digits {n : ℕ} (h₁ : 1 ≤ n) (h₂ : n ≤ 12) :
    monthTwo (digit (n / 10)) (digit (n % 10)) = some n := by
  have key : ∀ n < 13, 1 ≤ n → monthTwo (digit (n / 10)) (digit (n % 10)) = some n := by decide
  exact key n (by omega) h₁

theorem dayTwo_digits {n : ℕ} (h₁ : 1 ≤ n) (h₂ : n ≤ 31) :
    dayTwo (digit (n / 10)) (digit (n % 10)) = some n := by
  have key : ∀ n < 32, 1 ≤ n → dayTwo (digit (n / 10)) (digit (n % 10)) = some n := by decide
  exact key n (by omega) h₁

theorem hourTwo_digits {n : ℕ} (h : n < 24) :
    hourTwo (digit (n / 10)) (digit (n % 10)) = some n := by
  revert n; decide

theorem minuteTwo_digits {n : ℕ} (h : n < 60) :
    minuteTwo (digit (n / 10)) (digit (n % 10)) = some n := by
  revert n; decide

theorem secondTwo_digits {n : ℕ} (h : n < 60) :
    secondTwo (digit (n / 10)) (digit (n % 10)) = some n := by
  revert n; decide

theorem yearField_pad4 {n : ℕ} (h : n < 10000) (rest : Str) :
    yearField (pad4 n ++ rest) = some (n, rest) := by
  have hd : ∀ k, decimal (digit (k % 10)) = some (k % 10) :=
    fun k => decimal_digit (Nat.mod_lt _ (by norm_num))
  have h1 : n / 100 / 10 = n / 1000 % 10 := by omega
  have h2 : n % 100 / 10 = n / 10 % 10 := by omega
  simp only [pad4, pad2, List.cons_append, List.nil_append, yearField, h1, h2, hd,
    Option.bind_eq_bind, Option.bind_some, Option.pure_def, Option.some.injEq, Prod.mk.injEq,
    and_true]
  omega

theorem daysInMonth_le (year month : ℕ) : daysInMonth year month ≤ 31 := by
  unfold daysInMonth
  split_ifs <;> omega

/-- What `strftime` writes, `strptime` reads back. -/
theorem strptime_strftime (t : DateTime) : strptime (strftime t) = some t := by
  obtain ⟨year, month, day, hour, minute, second, hv⟩ := t
  obtain ⟨⟨hy1, hy2⟩, ⟨hm1, hm2⟩, ⟨hd1, hd2⟩, hh, hmi, hs⟩ := hv
  have hd3 : day ≤ 31 := le_trans hd2 (daysInMonth_le year month)
  have hsec := @field_pad2 _ decimal _ (secondTwo_digits hs) []
  rw [List.append_nil] at hsec
  have hlit : ∀ (c : Char) (rest : Str), literal (ofChar c) (ofChar c :: rest) = some rest := by
    intro c rest
    simp [literal]
  have hdash : ∀ rest : Str, lit "-" ++ rest = ofChar '-' :: rest := fun _ => rfl
  have hcolon : ∀ rest : Str, lit ":" ++ rest = ofChar ':' :: rest := fun _ => rfl
  have hblank : ∀ rest : Str, blanks (lit " " ++ (pad2 hour ++ rest)) = some (pad2 hour ++ rest) := by
    intro rest
    have hns : ∀ n < 24, isSpace (digit (n / 10)) = false := by decide
    have hsp : isSpace (ofChar ' ') = true := by decide
    change (if isSpace (ofChar ' ') then some ((pad2 hour ++ rest).dropWhile isSpace) else none) = _
    rw [if_pos hsp]
    simp [pad2, hns hour hh]
  simp only [strptime, strftime, List.append_assoc, List.cons_append, yearField_pad4 (by omega : year < 10000),
    hdash, hcolon, hlit, hblank, field_pad2 (monthTwo_digits hm1 hm2),
    field_pad2 (dayTwo_digits hd1 hd3), field_pad2 (hourTwo_digits hh),
    field_pad2 (minuteTwo_digits hmi), hsec, Option.bind_eq_bind, Option.bind_some, if_true]
  exact dif_pos ⟨⟨hy1, hy2⟩, ⟨hm1, hm2⟩, ⟨hd1, hd2⟩, hh, hmi, hs⟩

example : (strptime (lit "2026-2-28  7:05:9")).map DateTime.hour = some 7 := by decide

end EasyBlockchain.Py
