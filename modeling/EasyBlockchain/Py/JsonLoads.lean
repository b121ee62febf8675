/-
`json.loads`, and that it reads back what `json.dumps` writes.

The parser follows the decoder of the standard library: white space between
tokens, strict strings with their escapes, the number grammar, and the three
extra constants `NaN`, `Infinity` and `-Infinity`. Every syntax error is a
`JSONDecodeError`; an integer literal that is too long is a plain `ValueError`.
The recursion is on a bound for the nesting, which the length of the text meets.
-/
import EasyBlockchain.Py.Json

set_option autoImplicit false

namespace EasyBlockchain.Py

/-! ## Tokens -/

/-- White space between tokens. -/
def isJsonSpace (c : CodePoint) : Bool := c.val ∈ [0x20, 0x0a, 0x0d, 0x09]

/-- The text from its first character that is not white space. -/
def skipSpace (s : Str) : Str := s.dropWhile isJsonSpace

/-- The value of the four digits after `\u`. -/
def hexQuad (a b c d : CodePoint) : Option ℕ := do
  let a ← hexValue a
  let b ← hexValue b
  let c ← hexValue c
  let d ← hexValue d
  return 0x1000 * a + 0x100 * b + 0x10 * c + d

/-- The character after a backslash, for the escapes of one character. -/
def unescape (c : CodePoint) : Option CodePoint :=
  if c = ofChar '"' then some (ofChar '"')
  else if c = ofChar '\\' then some (ofChar '\\')
  else if c = ofChar '/' then some (ofChar '/')
  else if c = ofChar 'b' then some ⟨0x08, by decide⟩
  else if c = ofChar 'f' then some ⟨0x0c, by decide⟩
  else if c = ofChar 'n' then some (ofChar '\n')
  else if c = ofChar 'r' then some (ofChar '\r')
  else if c = ofChar 't' then some (ofChar '\t')
  else none

/-- Text after a high surrogate that found no partner. -/
def flush (high : Option ℕ) (s : Str) : Str :=
  match high with
  | some h => codePoint h :: s
  | none => s

/-- Text after a `\uXXXX` escape; a low surrogate joins the high one before it. -/
def joinSurrogates (high : Option ℕ) (n : ℕ) (s : Str) : Str :=
  match high with
  | some h =>
    if 0xdc00 ≤ n ∧ n ≤ 0xdfff then codePoint (0x10000 + 0x400 * (h - 0xd800) + (n - 0xdc00)) :: s
    else codePoint h :: codePoint n :: s
  | none => codePoint n :: s

/-- A string after its opening quote, and the text after its closing one;
`high` is an escaped high surrogate just read. -/
def scanString : Option ℕ → Str → Option (Str × Str)
  | _, [] => none
  | high, c :: rest =>
    if c = ofChar '"' then some (flush high [], rest)
    else if c = ofChar '\\' then
      match rest with
      | [] => none
      | e :: rest =>
        match unescape e with
        | some x => (scanString none rest).map fun p => (flush high (x :: p.1), p.2)
        | none =>
          if e = ofChar 'u' then
            match rest with
            | a :: b :: c :: d :: rest =>
              match hexQuad a b c d with
              | none => none
              | some n =>
                if 0xd800 ≤ n ∧ n ≤ 0xdbff then
                  (scanString (some n) rest).map fun p => (flush high p.1, p.2)
                else (scanString none rest).map fun p => (joinSurrogates high n p.1, p.2)
            | _ => none
          else none
    else if c.val < 0x20 then none
    else (scanString none rest).map fun p => (flush high (c :: p.1), p.2)

/-! ## Numbers -/

/-- `[0-9]`. -/
def isDigit (c : CodePoint) : Bool := 0x30 ≤ c.val && c.val ≤ 0x39

/-- The number a run of digits denotes. -/
def digitsValue (ds : Str) : ℕ := ds.foldl (fun acc c => 10 * acc + (c.val - 0x30)) 0

/-- The fraction `(\.[0-9]+)?`, without its point. -/
def scanFraction : Str → Option Str × Str
  | c :: rest =>
    if c = ofChar '.' then
      let (ds, rest') := rest.span isDigit
      if ds.isEmpty then (none, c :: rest) else (some ds, rest')
    else (none, c :: rest)
  | [] => (none, [])

/-- The exponent `([eE][-+]?[0-9]+)?`. -/
def scanExponent : Str → Option ℤ × Str
  | c :: rest =>
    if c = ofChar 'e' ∨ c = ofChar 'E' then
      let (negative, digits) :=
        match rest with
        | d :: rest' =>
          if d = ofChar '-' then (true, rest') else if d = ofChar '+' then (false, rest')
          else (false, rest)
        | [] => (false, [])
      let (ds, rest') := digits.span isDigit
      if ds.isEmpty then (none, c :: rest)
      else (some (if negative then -(digitsValue ds : ℤ) else digitsValue ds), rest')
    else (none, c :: rest)
  | [] => (none, [])

section Loads

variable [Runtime]

/-- The float of a decimal number. -/
def decimalFloat (negative : Bool) (digits fraction : Str) (exponent : ℤ) : PyFloat :=
  let size : ℚ := (digitsValue (digits ++ fraction) : ℚ) * 10 ^ (exponent - fraction.length)
  if size = 0 then PyFloat.zero negative else Runtime.round (if negative then -size else size)

/-- A number after its sign. -/
def scanUnsigned (negative : Bool) (s : Str) : PyM (PyVal × Str) :=
  let (run, afterRun) := s.span isDigit
  match run with
  | [] => .error .jsonDecodeError
  | d :: ds =>
    -- a leading zero is a number of its own
    let (digits, rest) := if d = ofChar '0' then ([d], ds ++ afterRun) else (run, afterRun)
    let (fraction, rest) := scanFraction rest
    let (exponent, rest) := scanExponent rest
    if fraction.isNone ∧ exponent.isNone then
      if digits.length ≤ maxStrDigits then
        .ok (.int (if negative then -(digitsValue digits : ℤ) else digitsValue digits), rest)
      else .error .valueError
    else
      .ok (.float (decimalFloat negative digits (fraction.getD []) (exponent.getD 0)), rest)

/-- The rest of a text that starts with a word. -/
def dropWord (word s : Str) : Option Str := if word.isPrefixOf s then some (s.drop word.length) else none

/-- A number or one of the constants. -/
def scanScalar (s : Str) : PyM (PyVal × Str) :=
  match dropWord (lit "null") s, dropWord (lit "true") s, dropWord (lit "false") s,
      dropWord (lit "NaN") s, dropWord (lit "Infinity") s, dropWord (lit "-Infinity") s with
  | some rest, _, _, _, _, _ => .ok (.none, rest)
  | _, some rest, _, _, _, _ => .ok (.bool true, rest)
  | _, _, some rest, _, _, _ => .ok (.bool false, rest)
  | _, _, _, some rest, _, _ => .ok (.float .nan, rest)
  | _, _, _, _, some rest, _ => .ok (.float (.inf false), rest)
  | _, _, _, _, _, some rest => .ok (.float (.inf true), rest)
  | _, _, _, _, _, _ =>
    match s with
    | c :: rest => if c = ofChar '-' then scanUnsigned true rest else scanUnsigned false s
    | [] => .error .jsonDecodeError

/-! ## Values -/

mutual

/-- A value, and the text after it. -/
def parseValue : ℕ → Str → PyM (PyVal × Str)
  | 0, _ => .error .jsonDecodeError
  | _, [] => .error .jsonDecodeError
  | fuel + 1, c :: rest =>
    if c = ofChar '"' then do
      let (text, rest) ← orRaise .jsonDecodeError (scanString none rest)
      return (.str text, rest)
    else if c = ofChar '[' then
      match skipSpace rest with
      | [] => .error .jsonDecodeError
      | d :: rest' =>
        if d = ofChar ']' then .ok (.list [], rest')
        else do
          let (xs, rest) ← parseElements fuel (d :: rest')
          return (.list xs, rest)
    else if c = ofChar '\x7b' then
      match skipSpace rest with
      | [] => .error .jsonDecodeError
      | d :: rest' =>
        if d = ofChar '\x7d' then .ok (.dict [], rest')
        else do
          let (pairs, rest) ← parseMembers fuel (d :: rest')
          return (.dict (Dict.update [] pairs), rest)
    else scanScalar (c :: rest)

/-- The elements of an array up to its closing bracket. -/
def parseElements : ℕ → Str → PyM (List PyVal × Str)
  | 0, _ => .error .jsonDecodeError
  | fuel + 1, s => do
    let (x, rest) ← parseValue fuel s
    match skipSpace rest with
    | [] => .error .jsonDecodeError
    | d :: rest' =>
      if d = ofChar ']' then .ok ([x], rest')
      else if d = ofChar ',' then do
        let (xs, rest) ← parseElements fuel (skipSpace rest')
        return (x :: xs, rest)
      else .error .jsonDecodeError

/-- The members of an object up to its closing brace. -/
def parseMembers : ℕ → Str → PyM (Dict × Str)
  | 0, _ => .error .jsonDecodeError
  | _, [] => .error .jsonDecodeError
  | fuel + 1, c :: rest =>
    if c = ofChar '"' then do
      let (key, rest) ← orRaise .jsonDecodeError (scanString none rest)
      match skipSpace rest with
      | [] => .error .jsonDecodeError
      | d :: rest' =>
        if d = ofChar ':' then do
          let (x, rest) ← parseValue fuel (skipSpace rest')
          match skipSpace rest with
          | [] => .error .jsonDecodeError
          | d :: rest' =>
            if d = ofChar '\x7d' then .ok ([(.str key, x)], rest')
            else if d = ofChar ',' then do
              let (members, rest) ← parseMembers fuel (skipSpace rest')
              return ((.str key, x) :: members, rest)
            else .error .jsonDecodeError
        else .error .jsonDecodeError
    else .error .jsonDecodeError

end

/-- `json.loads(s)`. -/
def loads (s : Str) : PyM PyVal :=
  -- a byte order mark is refused
  if s.head? = some (codePoint 0xfeff) then .error .jsonDecodeError
  else do
    let (v, rest) ← parseValue (s.length + 1) (skipSpace s)
    if (skipSpace rest).isEmpty then return v else .error .jsonDecodeError

end Loads

/-! ## Strings read back -/

theorem hexQuad_hexDigit {n : ℕ} (h : n < 0x10000) :
    hexQuad (hexDigit (n / 0x1000)) (hexDigit (n / 0x100)) (hexDigit (n / 0x10)) (hexDigit n)
      = some n := by
  simp only [hexQuad, hexValue_hexDigit, Option.bind_eq_bind, Option.bind_some, Option.pure_def,
    Option.some.injEq]
  omega

/-- Only a low surrogate joins what is before it. -/
theorem joinSurrogates_of_not_low {n : ℕ} (h : ¬ (0xdc00 ≤ n ∧ n ≤ 0xdfff)) (high : Option ℕ)
    (s : Str) : joinSurrogates high n s = flush high (codePoint n :: s) := by
  cases high with
  | none => rfl
  | some m => rw [joinSurrogates, if_neg h, flush]

/-- An escape by number. -/
theorem scanString_unicodeEscape {n : ℕ} (hn : n < 0x10000) (high : Option ℕ) (t : Str) :
    scanString high (unicodeEscape n ++ t)
      = if 0xd800 ≤ n ∧ n ≤ 0xdbff then
          (scanString (some n) t).map fun p => (flush high p.1, p.2)
        else (scanString none t).map fun p => (joinSurrogates high n p.1, p.2) := by
  have hu : unescape (ofChar 'u') = none := by decide
  have hbs : ¬ ofChar '\\' = ofChar '"' := by decide
  rw [unicodeEscape]
  simp only [List.cons_append, List.nil_append]
  rw [scanString]
  simp only [if_neg hbs, if_true, hu, hexQuad_hexDigit hn]

/-- One escaped code point reads back. -/
theorem scanString_escapeChar (high : Option ℕ) (c : CodePoint) (t : Str) :
    scanString high (escapeChar false c ++ t)
      = (scanString none t).map fun p => (flush high (c :: p.1), p.2) := by
  have hquote : c.val = 0x22 ↔ c = ofChar '"' := ⟨fun h => Fin.ext h, fun h => by rw [h]; rfl⟩
  have hback : c.val = 0x5c ↔ c = ofChar '\\' := ⟨fun h => Fin.ext h, fun h => by rw [h]; rfl⟩
  unfold escapeChar
  simp only [Bool.not_false, Bool.or_true, if_true]
  split_ifs with h1 h2 h3 h4 h5 h6 h7 h8
  · obtain rfl := hquote.mp h1
    rfl
  · obtain rfl := hback.mp h2
    rfl
  · obtain rfl : c = ofChar '\n' := Fin.ext h3
    rfl
  · obtain rfl : c = ofChar '\r' := Fin.ext h4
    rfl
  · obtain rfl : c = ofChar '\t' := Fin.ext h5
    rfl
  · obtain rfl : c = ⟨0x0c, by decide⟩ := Fin.ext h6
    rfl
  · obtain rfl : c = ⟨0x08, by decide⟩ := Fin.ext h7
    rfl
  · -- the other control characters are escaped by number
    rw [scanString_unicodeEscape (by omega), if_neg (by omega)]
    simp only [joinSurrogates_of_not_low (n := c.val) (by omega), codePoint_val]
  · rw [List.cons_append, List.nil_append, scanString.eq_def]
    simp only [if_neg (fun h => h1 (hquote.mpr h)), if_neg (fun h => h2 (hback.mpr h)), if_neg h8]

/-- A quoted string reads back. -/
theorem scanString_quoted (s rest : Str) :
    scanString none (s.flatMap (escapeChar false) ++ ofChar '"' :: rest) = some (s, rest) := by
  induction s with
  | nil =>
      rw [List.flatMap_nil, List.nil_append, scanString.eq_def]
      simp only [if_true, flush]
  | cons c s ih =>
      rw [List.flatMap_cons, List.append_assoc, scanString_escapeChar, ih]
      rfl

/-! ## Integers read back -/

/-- What may follow a number without becoming part of it. -/
def Delimited (rest : Str) : Prop :=
  ∀ c ∈ rest.head?, isDigit c = false ∧ c ≠ ofChar '.' ∧ c ≠ ofChar 'e' ∧ c ≠ ofChar 'E'

theorem isDigit_of_mem_natDigits {n : ℕ} {c : CodePoint} (h : c ∈ natDigits n) :
    isDigit c = true := by
  obtain ⟨h1, h2⟩ := mem_natDigits h
  simp [isDigit, h1, h2]

theorem digitsValue_natDigits (n : ℕ) : digitsValue (natDigits n) = n := by
  have h : ∀ (l : List Char) (init : ℕ),
      (l.map ofChar).foldl (fun acc c => 10 * acc + (c.val - 0x30)) init
        = Nat.ofDigitChars 10 l init := by
    intro l
    induction l with
    | nil => intro init; rfl
    | cons d l ih =>
        intro init
        rw [List.map_cons, List.foldl_cons, ih, Nat.ofDigitChars_cons]
        rfl
  rw [digitsValue, natDigits, h, Nat.ofDigitChars_ten_toDigits]

/-- Only zero starts with the digit zero. -/
theorem natDigits_head {n : ℕ} (hn : n ≠ 0) : ∃ d ds, natDigits n = d :: ds ∧ d ≠ ofChar '0' := by
  induction n using Nat.strong_induction_on with
  | _ n ih =>
      rw [natDigits, Nat.toDigits_eq_if (by norm_num)]
      split
      · rename_i hlt
        refine ⟨ofChar n.digitChar, [], rfl, ?_⟩
        have h : ∀ i : Fin 10, i.val ≠ 0 → ofChar i.val.digitChar ≠ ofChar '0' := by decide
        exact h ⟨n, hlt⟩ hn
      · rename_i hge
        obtain ⟨d, ds, hds, hd⟩ := ih (n / 10) (by omega) (by omega)
        refine ⟨d, ds ++ [ofChar (n % 10).digitChar], ?_, hd⟩
        rw [List.map_append, ← natDigits, hds]
        rfl

/-- The run of digits at the start of a delimited text. -/
theorem span_natDigits (n : ℕ) {rest : Str} (h : Delimited rest) :
    (natDigits n ++ rest).span isDigit = (natDigits n, rest) := by
  have hrest : rest.span isDigit = ([], rest) := by
    rcases rest with _ | ⟨c, rest⟩
    · rfl
    · rw [List.span_eq_takeWhile_dropWhile]
      simp [(h c rfl).1]
  rw [List.span_eq_takeWhile_dropWhile] at hrest ⊢
  rw [List.takeWhile_append_of_pos (fun c hc => isDigit_of_mem_natDigits hc),
    List.dropWhile_append_of_pos (fun c hc => isDigit_of_mem_natDigits hc)]
  obtain ⟨h1, h2⟩ := Prod.mk.inj hrest
  rw [h1, h2, List.append_nil]

theorem scanFraction_delimited {rest : Str} (h : Delimited rest) :
    scanFraction rest = (none, rest) := by
  rcases rest with _ | ⟨c, rest⟩
  · rfl
  · rw [scanFraction, if_neg (h c rfl).2.1]

theorem scanExponent_delimited {rest : Str} (h : Delimited rest) :
    scanExponent rest = (none, rest) := by
  rcases rest with _ | ⟨c, rest⟩
  · rfl
  · obtain ⟨-, -, he, hE⟩ := h c rfl
    have hne : ¬ (c = ofChar 'e' ∨ c = ofChar 'E') := not_or.mpr ⟨he, hE⟩
    simp only [scanExponent, if_neg hne]

section RoundTrip

variable [Runtime]

/-- The digits of a number read back. -/
theorem scanUnsigned_natDigits (negative : Bool) {n : ℕ} {rest : Str} (h : Delimited rest)
    (hlen : (natDigits n).length ≤ maxStrDigits) :
    scanUnsigned negative (natDigits n ++ rest)
      = .ok (.int (if negative then -(n : ℤ) else n), rest) := by
  unfold scanUnsigned
  rw [span_natDigits n h]
  by_cases hn : n = 0
  · subst hn
    have hzero : natDigits 0 = [ofChar '0'] := by decide
    have hvalue : digitsValue [ofChar '0'] = 0 := by decide
    simp [hzero, scanFraction_delimited h, scanExponent_delimited h, maxStrDigits, hvalue]
  · obtain ⟨d, ds, hds, hd⟩ := natDigits_head hn
    have hvalue := digitsValue_natDigits n
    rw [hds] at hvalue hlen ⊢
    simp only [if_neg hd, scanFraction_delimited h, scanExponent_delimited h, Option.isNone_none,
      and_self, if_true, hlen, hvalue]

omit [Runtime] in
theorem dropWord_of_ne {w c : CodePoint} (h : w ≠ c) (ws s : Str) :
    dropWord (w :: ws) (c :: s) = none := by
  simp [dropWord, h]

omit [Runtime] in
theorem ne_of_isDigit {w c : CodePoint} (hw : isDigit w = false) (hc : isDigit c = true) : w ≠ c := by
  rintro rfl
  rw [hw] at hc
  cases hc

theorem scanScalar_of_digit {c : CodePoint} (h : isDigit c = true) (s : Str) :
    scanScalar (c :: s) = scanUnsigned false (c :: s) := by
  have hne : ∀ w ws, isDigit w = false → dropWord (w :: ws) (c :: s) = none :=
    fun w ws hw => dropWord_of_ne (ne_of_isDigit hw h) ws s
  have hminus : ¬ c = ofChar '-' := (ne_of_isDigit (by decide) h).symm
  unfold scanScalar
  rw [show lit "null" = ofChar 'n' :: lit "ull" by rfl, hne _ _ (by decide),
    show lit "true" = ofChar 't' :: lit "rue" by rfl, hne _ _ (by decide),
    show lit "false" = ofChar 'f' :: lit "alse" by rfl, hne _ _ (by decide),
    show lit "NaN" = ofChar 'N' :: lit "aN" by rfl, hne _ _ (by decide),
    show lit "Infinity" = ofChar 'I' :: lit "nfinity" by rfl, hne _ _ (by decide),
    show lit "-Infinity" = ofChar '-' :: lit "Infinity" by rfl, hne _ _ (by decide)]
  simp only [if_neg hminus]

theorem scanScalar_of_minus {c : CodePoint} (h : isDigit c = true) (s : Str) :
    scanScalar (ofChar '-' :: c :: s) = scanUnsigned true (c :: s) := by
  have hne : ∀ w ws, w ≠ ofChar '-' → dropWord (w :: ws) (ofChar '-' :: c :: s) = none :=
    fun w ws hw => dropWord_of_ne hw ws (c :: s)
  have hinf : dropWord (lit "-Infinity") (ofChar '-' :: c :: s) = none := by
    have hI : ¬ ofChar 'I' = c := ne_of_isDigit (by decide) h
    rw [show lit "-Infinity" = ofChar '-' :: ofChar 'I' :: lit "nfinity" by rfl]
    simp [dropWord, hI]
  unfold scanScalar
  rw [show lit "null" = ofChar 'n' :: lit "ull" by rfl, hne _ _ (by decide),
    show lit "true" = ofChar 't' :: lit "rue" by rfl, hne _ _ (by decide),
    show lit "false" = ofChar 'f' :: lit "alse" by rfl, hne _ _ (by decide),
    show lit "NaN" = ofChar 'N' :: lit "aN" by rfl, hne _ _ (by decide),
    show lit "Infinity" = ofChar 'I' :: lit "nfinity" by rfl, hne _ _ (by decide), hinf]
  simp only [if_true]

/-- An integer reads back. -/
theorem scanScalar_strOfInt {i : ℤ} {text rest : Str} (h : strOfInt i = some text)
    (hrest : Delimited rest) : scanScalar (text ++ rest) = .ok (.int i, rest) := by
  have hlen : (natDigits i.natAbs).length ≤ maxStrDigits := by
    unfold strOfInt at h
    split at h
    · assumption
    · cases h
  obtain rfl := strOfInt_eq_some h
  obtain ⟨d, ds, hds⟩ : ∃ d ds, natDigits i.natAbs = d :: ds := by
    apply List.exists_cons_of_ne_nil
    simp [natDigits, Nat.toDigits_ne_nil]
  have hd : isDigit d = true := isDigit_of_mem_natDigits (hds ▸ List.mem_cons_self)
  unfold intDigits
  split
  · rename_i hneg
    have hscan := scanUnsigned_natDigits true hrest hlen
    rw [hds] at hscan ⊢
    rw [show lit "-" = [ofChar '-'] by rfl, List.cons_append, List.nil_append, List.cons_append,
      List.cons_append, scanScalar_of_minus hd]
    rw [List.cons_append] at hscan
    rw [hscan]
    simp only [if_true, Except.ok.injEq, Prod.mk.injEq, PyVal.int.injEq, and_true]
    omega
  · rename_i hnonneg
    have hscan := scanUnsigned_natDigits false hrest hlen
    rw [hds] at hscan ⊢
    rw [List.cons_append] at hscan ⊢
    rw [scanScalar_of_digit hd, hscan]
    simp only [Bool.false_eq_true, if_false, Except.ok.injEq, Prod.mk.injEq, PyVal.int.injEq,
      and_true]
    omega

/-! ## Values read back -/

/-- A text is read as a value wherever it stands. -/
def Parses (text : Str) (v : PyVal) : Prop :=
  ∀ fuel rest, text.length + 1 ≤ fuel → Delimited rest → parseValue fuel (text ++ rest) = .ok (v, rest)

omit [Runtime] in
theorem isJsonSpace_iff {c : CodePoint} : isJsonSpace c = true ↔ c = ⟨0x20, by decide⟩ ∨
    c = ⟨0x0a, by decide⟩ ∨ c = ⟨0x0d, by decide⟩ ∨ c = ⟨0x09, by decide⟩ := by
  simp [isJsonSpace, Fin.ext_iff]

/-- Only scalars start with something other than a quote or a bracket. -/
theorem parseValue_scalar {fuel : ℕ} {c : CodePoint} {s : Str} (h1 : c ≠ ofChar '"')
    (h2 : c ≠ ofChar '[') (h3 : c ≠ ofChar '\x7b') :
    parseValue (fuel + 1) (c :: s) = scanScalar (c :: s) := by
  rw [parseValue.eq_def]
  simp only [if_neg h1, if_neg h2, if_neg h3]

/-- A value starts neither with white space nor with a closing bracket. -/
theorem head_of_parseValue {fuel : ℕ} {s : Str} {p : PyVal × Str} (h : parseValue fuel s = .ok p) :
    ∃ c t, s = c :: t ∧ isJsonSpace c = false ∧ c ≠ ofChar ']' := by
  rcases fuel with _ | fuel
  · rw [parseValue.eq_def] at h
    cases h
  rcases s with _ | ⟨c, t⟩
  · rw [parseValue.eq_def] at h
    cases h
  refine ⟨c, t, rfl, ?_⟩
  by_contra hc
  -- no token starts this way
  have hc : (c = ⟨0x20, by decide⟩ ∨ c = ⟨0x0a, by decide⟩ ∨ c = ⟨0x0d, by decide⟩ ∨
      c = ⟨0x09, by decide⟩) ∨ c = ofChar ']' := by
    by_cases hb : c = ofChar ']'
    · exact Or.inr hb
    · simp only [ne_eq, hb, not_false_eq_true, and_true, Bool.not_eq_false] at hc
      exact Or.inl (isJsonSpace_iff.mp hc)
  have hscalar : parseValue (fuel + 1) (c :: t) = scanScalar (c :: t) := by
    apply parseValue_scalar <;> rcases hc with (rfl | rfl | rfl | rfl) | rfl <;> decide
  rw [hscalar] at h
  rcases hc with (rfl | rfl | rfl | rfl) | rfl <;> cases h

theorem Parses.head {text : Str} {v : PyVal} (h : Parses text v) {rest : Str}
    (hrest : Delimited rest) :
    ∃ c t, text ++ rest = c :: t ∧ isJsonSpace c = false ∧ c ≠ ofChar ']' :=
  head_of_parseValue (h _ rest le_rfl hrest)

omit [Runtime] in
theorem skipSpace_pad {pad s : Str} (hpad : ∀ c ∈ pad, isJsonSpace c = true)
    (hs : ∃ c t, s = c :: t ∧ isJsonSpace c = false) : skipSpace (pad ++ s) = s := by
  obtain ⟨c, t, rfl, hc⟩ := hs
  rw [skipSpace, List.dropWhile_append_of_pos hpad]
  simp [hc]

omit [Runtime] in
theorem delimited_cons {c : CodePoint} {rest : Str}
    (h : c = ofChar ',' ∨ c = ofChar ']' ∨ c = ofChar '\x7d' ∨ isJsonSpace c = true) :
    Delimited (c :: rest) := by
  rintro d ⟨⟩
  rcases h with rfl | rfl | rfl | h
  · decide
  · decide
  · decide
  · rcases isJsonSpace_iff.mp h with rfl | rfl | rfl | rfl <;> decide

omit [Runtime] in
theorem delimited_pad {pad : Str} (hpad : ∀ c ∈ pad, isJsonSpace c = true) {c : CodePoint}
    {rest : Str} (hc : c = ofChar ']' ∨ c = ofChar '\x7d') : Delimited (pad ++ c :: rest) := by
  rcases pad with _ | ⟨d, pad⟩
  · apply delimited_cons
    rcases hc with rfl | rfl
    · exact Or.inr (Or.inl rfl)
    · exact Or.inr (Or.inr (Or.inl rfl))
  · exact delimited_cons (Or.inr (Or.inr (Or.inr (hpad d List.mem_cons_self))))

omit [Runtime] in
theorem intercalate_cons_cons {α : Type} (sep x y : List α) (ys : List (List α)) :
    List.intercalate sep (x :: y :: ys) = x ++ sep ++ List.intercalate sep (y :: ys) := by
  simp [List.intercalate]

/-- The elements of an array, with white space after each comma and before the
closing bracket. -/
theorem parseElements_items {gap pad : Str} (hgap : ∀ c ∈ gap, isJsonSpace c = true)
    (hpad : ∀ c ∈ pad, isJsonSpace c = true) {ts : List Str} {xs : List PyVal}
    (h : List.Forall₂ Parses ts xs) (hne : ts ≠ []) {fuel : ℕ} {rest : Str}
    (hfuel : (List.intercalate (ofChar ',' :: gap) ts).length + 2 ≤ fuel) :
    parseElements fuel (List.intercalate (ofChar ',' :: gap) ts ++ pad ++ ofChar ']' :: rest)
      = .ok (xs, rest) := by
  induction h generalizing fuel with
  | nil => exact absurd rfl hne
  | @cons t x ts xs htx hall ih =>
      obtain ⟨fuel, rfl⟩ : ∃ n, fuel = n + 1 := ⟨fuel - 1, by omega⟩
      cases hall with
      | nil =>
          -- the last element, then the bracket
          have hone : List.intercalate (ofChar ',' :: gap) [t] = t := by simp [List.intercalate]
          rw [hone] at hfuel ⊢
          have hparse := htx fuel (pad ++ ofChar ']' :: rest) (by omega)
            (delimited_pad hpad (Or.inl rfl))
          have hskip : skipSpace (pad ++ ofChar ']' :: rest) = ofChar ']' :: rest :=
            skipSpace_pad hpad ⟨_, _, rfl, by decide⟩
          rw [List.append_assoc, parseElements, hparse]
          simp only [ok_bind, hskip, if_true]
      | @cons u y us ys huy _ =>
          rw [intercalate_cons_cons] at hfuel ⊢
          simp only [List.length_append, List.length_cons] at hfuel
          set tail := List.intercalate (ofChar ',' :: gap) (u :: us) with htail
          have hnext : parseElements fuel (tail ++ pad ++ ofChar ']' :: rest) = .ok (y :: ys, rest) :=
            ih (by simp) (by omega)
          have hparse := htx fuel (ofChar ',' :: (gap ++ (tail ++ pad ++ ofChar ']' :: rest)))
            (by omega) (delimited_cons (Or.inl rfl))
          -- the next element starts right after the gap
          have hhead : ∃ c r, tail ++ pad ++ ofChar ']' :: rest = c :: r ∧ isJsonSpace c = false := by
            obtain ⟨n, rfl⟩ : ∃ n, fuel = n + 1 := ⟨fuel - 1, by omega⟩
            rw [parseElements] at hnext
            obtain ⟨p, hp, -⟩ := bind_eq_ok.mp hnext
            obtain ⟨c, r, heq, hc, -⟩ := head_of_parseValue hp
            exact ⟨c, r, heq, hc⟩
          have hcomma : isJsonSpace (ofChar ',') = false := by decide
          have hne : ¬ ofChar ',' = ofChar ']' := by decide
          have hshape : t ++ ofChar ',' :: gap ++ tail ++ pad ++ ofChar ']' :: rest
              = t ++ ofChar ',' :: (gap ++ (tail ++ pad ++ ofChar ']' :: rest)) := by
            simp only [List.append_assoc, List.cons_append]
          have hskip : skipSpace (ofChar ',' :: (gap ++ (tail ++ pad ++ ofChar ']' :: rest)))
              = ofChar ',' :: (gap ++ (tail ++ pad ++ ofChar ']' :: rest)) := by
            simp [skipSpace, hcomma]
          rw [hshape, parseElements, hparse]
          simp only [ok_bind, hskip, if_neg hne, if_true, skipSpace_pad hgap hhead, hnext, pure_eq]

/-- The text of one member of an object. -/
def MemberText (text : Str) (p : PyKey × PyVal) : Prop :=
  ∃ k value, p.1 = .str k ∧ text = quote false k ++ lit ": " ++ value ∧ Parses value p.2

omit [Runtime] in
/-- A quoted text is read as the string `k` wherever it stands. -/
def Quotes (ascii : Bool) (text k : Str) : Prop :=
  ∀ rest, scanString none (text.flatMap (escapeChar ascii) ++ ofChar '"' :: rest) = some (k, rest)

/-- The text of one member, whatever its key is written as. -/
def MemberReads (ascii : Bool) (text : Str) (p : PyKey × PyVal) : Prop :=
  ∃ key k value, p.1 = .str k ∧ text = quote ascii key ++ lit ": " ++ value ∧ Quotes ascii key k ∧
    Parses value p.2

theorem MemberText.reads {text : Str} {p : PyKey × PyVal} (h : MemberText text p) :
    MemberReads false text p := by
  obtain ⟨k, value, hk, htext, hvalue⟩ := h
  exact ⟨k, k, value, hk, htext, scanString_quoted k, hvalue⟩

/-- One member is read, then what follows it decides. -/
theorem parseMembers_entry {ascii : Bool} {key k value : Str} {v : PyVal}
    (hkey : Quotes ascii key k) (hvalue : Parses value v) {fuel : ℕ}
    {more : Str} (hfuel : value.length + 1 ≤ fuel) (hmore : Delimited more) :
    parseMembers (fuel + 1) (quote ascii key ++ lit ": " ++ value ++ more)
      = (match skipSpace more with
        | [] => .error .jsonDecodeError
        | d :: rest' =>
          if d = ofChar '\x7d' then .ok ([(.str k, v)], rest')
          else if d = ofChar ',' then do
            let (members, rest) ← parseMembers fuel (skipSpace rest')
            return ((.str k, v) :: members, rest)
          else .error .jsonDecodeError) := by
  have hquote : quote ascii key ++ lit ": " ++ value ++ more = ofChar '"' ::
      (key.flatMap (escapeChar ascii) ++ ofChar '"' :: ofChar ':' :: ofChar ' ' :: (value ++ more)) := by
    rw [quote, show lit "\"" = [ofChar '"'] by rfl, show lit ": " = [ofChar ':', ofChar ' '] by rfl]
    simp only [List.append_assoc, List.cons_append, List.nil_append]
  have hcolon : skipSpace (ofChar ':' :: ofChar ' ' :: (value ++ more))
      = ofChar ':' :: ofChar ' ' :: (value ++ more) := by
    have h : isJsonSpace (ofChar ':') = false := by decide
    simp [skipSpace, h]
  have hskip : skipSpace (ofChar ' ' :: (value ++ more)) = value ++ more := by
    obtain ⟨c, t, heq, hc, -⟩ := hvalue.head hmore
    have hpad : ∀ c ∈ [ofChar ' '], isJsonSpace c = true := by
      intro c hc
      obtain rfl := List.mem_singleton.mp hc
      decide
    exact skipSpace_pad hpad ⟨c, t, heq, hc⟩
  rw [hquote, parseMembers]
  simp only [if_true, hkey _, orRaise_some, ok_bind, hcolon, hskip, hvalue fuel more hfuel hmore]

/-- The members of an object, with white space after each comma and before the
closing brace. -/
theorem parseMembers_items {ascii : Bool} {gap pad : Str}
    (hgap : ∀ c ∈ gap, isJsonSpace c = true)
    (hpad : ∀ c ∈ pad, isJsonSpace c = true) {ts : List Str} {d : Dict}
    (h : List.Forall₂ (MemberReads ascii) ts d) (hne : ts ≠ []) {fuel : ℕ} {rest : Str}
    (hfuel : (List.intercalate (ofChar ',' :: gap) ts).length + 2 ≤ fuel) :
    parseMembers fuel (List.intercalate (ofChar ',' :: gap) ts ++ pad ++ ofChar '\x7d' :: rest)
      = .ok (d, rest) := by
  induction h generalizing fuel with
  | nil => exact absurd rfl hne
  | @cons t p ts d htp hall ih =>
      obtain ⟨fuel, rfl⟩ : ∃ n, fuel = n + 1 := ⟨fuel - 1, by omega⟩
      obtain ⟨key, v⟩ := p
      obtain ⟨written, k, value, rfl, rfl, hkey, hvalue⟩ := htp
      cases hall with
      | nil =>
          have hone : List.intercalate (ofChar ',' :: gap) [quote ascii written ++ lit ": " ++ value]
              = quote ascii written ++ lit ": " ++ value := by simp [List.intercalate]
          rw [hone] at hfuel ⊢
          simp only [List.length_append] at hfuel
          have hskip : skipSpace (pad ++ ofChar '\x7d' :: rest) = ofChar '\x7d' :: rest :=
            skipSpace_pad hpad ⟨_, _, rfl, by decide⟩
          rw [List.append_assoc, parseMembers_entry hkey hvalue (by omega)
            (delimited_pad hpad (Or.inr rfl)), hskip]
          simp only [if_true]
      | @cons u q us d huq _ =>
          rw [intercalate_cons_cons] at hfuel ⊢
          simp only [List.length_append, List.length_cons] at hfuel
          set tail := List.intercalate (ofChar ',' :: gap) (u :: us) with htail
          have hnext : parseMembers fuel (tail ++ pad ++ ofChar '\x7d' :: rest)
              = .ok (q :: d, rest) := ih (by simp) (by omega)
          -- the next member starts with the quote of its key
          have hhead : ∃ c r, tail ++ pad ++ ofChar '\x7d' :: rest = c :: r ∧
              isJsonSpace c = false := by
            obtain ⟨n, rfl⟩ : ∃ n, fuel = n + 1 := ⟨fuel - 1, by omega⟩
            rcases htext : tail ++ pad ++ ofChar '\x7d' :: rest with _ | ⟨c, r⟩
            · simp at htext
            · rw [htext, parseMembers] at hnext
              by_cases hc : c = ofChar '"'
              · subst hc
                exact ⟨_, r, rfl, by decide⟩
              · simp [hc] at hnext
          have hcomma : isJsonSpace (ofChar ',') = false := by decide
          have hne : ¬ ofChar ',' = ofChar '\x7d' := by decide
          have hshape : quote ascii written ++ lit ": " ++ value ++ ofChar ',' :: gap ++ tail ++ pad
                ++ ofChar '\x7d' :: rest
              = quote ascii written ++ lit ": " ++ value
                ++ ofChar ',' :: (gap ++ (tail ++ pad ++ ofChar '\x7d' :: rest)) := by
            simp only [List.append_assoc, List.cons_append]
          have hskip : skipSpace (ofChar ',' :: (gap ++ (tail ++ pad ++ ofChar '\x7d' :: rest)))
              = ofChar ',' :: (gap ++ (tail ++ pad ++ ofChar '\x7d' :: rest)) := by
            simp [skipSpace, hcomma]
          rw [hshape, parseMembers_entry hkey hvalue (by omega) (delimited_cons (Or.inl rfl)), hskip]
          simp only [if_neg hne, if_true, skipSpace_pad hgap hhead, hnext, ok_bind, pure_eq]

mutual

/-- A value that a JSON text can hold: no tuples, no objects, string keys that
all differ, and floats that `repr` writes so that they read back. -/
def Readable : PyVal → Prop
  | .float f => Parses (floatText f) (.float f)
  | .list xs => ReadableList xs
  | .dict d => ReadableDict d
  | .tuple _ => False
  | .object _ _ => False
  | _ => True

/-- A list of readable values. -/
def ReadableList : List PyVal → Prop
  | [] => True
  | x :: xs => Readable x ∧ ReadableList xs

/-- Readable values under string keys that all differ. -/
def ReadableDict : List (PyKey × PyVal) → Prop
  | [] => True
  | (.str k, v) :: rest => Readable v ∧ Dict.find rest k = none ∧ ReadableDict rest
  | _ => False

end

omit [Runtime] in
theorem setKey_of_find_none {d : Dict} {k : Str} (h : Dict.find d k = none) (v : PyVal) :
    Dict.setKey d (.str k) v = d ++ [(.str k, v)] := by
  induction d with
  | nil => rfl
  | cons p rest ih =>
      obtain ⟨k', v'⟩ := p
      rw [Dict.find_cons] at h
      by_cases hk : k' = .str k
      · simp [hk] at h
      · rw [if_neg hk] at h
        rw [Dict.setKey, if_neg hk, ih h, List.cons_append]

omit [Runtime] in
theorem find_append_of_none {d e : Dict} {k : Str} (h : Dict.find d k = none) :
    Dict.find (d ++ e) k = Dict.find e k := by
  induction d with
  | nil => rfl
  | cons p rest ih =>
      obtain ⟨k', v'⟩ := p
      rw [Dict.find_cons] at h
      by_cases hk : k' = .str k
      · simp [hk] at h
      · rw [if_neg hk] at h
        rw [List.cons_append, Dict.find_cons, if_neg hk, ih h]

/-- Members with different keys are a dictionary as they are. -/
theorem update_of_readable {d e : Dict} (he : ReadableDict e)
    (h : ∀ k v, (PyKey.str k, v) ∈ e → Dict.find d k = none) : Dict.update d e = d ++ e := by
  induction e generalizing d with
  | nil => simp [Dict.update]
  | cons p rest ih =>
      obtain ⟨key, v⟩ := p
      cases key with
      | str k =>
          obtain ⟨-, hnone, hrest⟩ := he
          have hk := h k v List.mem_cons_self
          have hstep : Dict.update d ((.str k, v) :: rest)
              = Dict.update (Dict.setKey d (.str k) v) rest := rfl
          rw [hstep, setKey_of_find_none hk, ih hrest]
          · simp
          · intro k' v' hmem
            rw [find_append_of_none (h k' v' (List.mem_cons_of_mem _ hmem)), Dict.find_cons]
            have hne : ¬ PyKey.str k = .str k' := by
              intro heq
              obtain rfl := PyKey.str.inj heq
              -- a later member with the same key would be found
              have hsome : ∀ (e : Dict), (PyKey.str k, v') ∈ e → Dict.find e k ≠ none := by
                intro e hin
                induction e with
                | nil => cases hin
                | cons q e ihe =>
                    obtain ⟨kq, vq⟩ := q
                    rw [Dict.find_cons]
                    by_cases hq : kq = .str k
                    · simp [hq]
                    · rw [if_neg hq]
                      rcases List.mem_cons.mp hin with heq | hin
                      · exact absurd (Prod.mk.inj heq).1.symm hq
                      · exact ihe hin
              exact hsome rest hmem hnone
            rw [if_neg hne]
            rfl
      | _ => cases he

omit [Runtime] in
theorem isJsonSpace_newlineIndent (level : ℕ) : ∀ c ∈ newlineIndent level, isJsonSpace c = true := by
  intro c hc
  rcases List.mem_cons.mp hc with rfl | hc
  · decide
  · obtain rfl := List.eq_of_mem_replicate hc
    decide

omit [Runtime] in
/-- The items between brackets, with white space where the layout puts it. -/
theorem bracket_shape (style : JsonStyle) (level : ℕ) (opening closing : Str) {items : List Str}
    (hne : items ≠ []) : ∃ first gap pad : Str, (∀ c ∈ first, isJsonSpace c = true) ∧
      (∀ c ∈ gap, isJsonSpace c = true) ∧ (∀ c ∈ pad, isJsonSpace c = true) ∧
      bracket style level opening closing items
        = opening ++ first ++ List.intercalate (ofChar ',' :: gap) items ++ pad ++ closing := by
  have hempty : ¬ items.isEmpty = true := by simpa using hne
  rw [bracket, if_neg hempty]
  split
  · exact ⟨newlineIndent (level + 1), newlineIndent (level + 1), newlineIndent level,
      isJsonSpace_newlineIndent _, isJsonSpace_newlineIndent _, isJsonSpace_newlineIndent _, rfl⟩
  · refine ⟨[], [ofChar ' '], [], by simp, ?_, by simp, ?_⟩
    · intro c hc
      obtain rfl := List.mem_singleton.mp hc
      decide
    · rw [show lit ", " = [ofChar ',', ofChar ' '] by rfl]
      simp

/-- A text that does not start with a quote or a bracket is read as a scalar. -/
theorem parses_scalar {c : CodePoint} {t : Str} {v : PyVal} (h1 : c ≠ ofChar '"')
    (h2 : c ≠ ofChar '[') (h3 : c ≠ ofChar '\x7b')
    (h : ∀ rest, Delimited rest → scanScalar (c :: t ++ rest) = .ok (v, rest)) :
    Parses (c :: t) v := by
  intro fuel rest hfuel hrest
  obtain ⟨fuel, rfl⟩ : ∃ n, fuel = n + 1 := ⟨fuel - 1, by omega⟩
  rw [List.cons_append, parseValue_scalar h1 h2 h3]
  exact h rest hrest

theorem parses_int {i : ℤ} {text : Str} (h : strOfInt i = some text) : Parses text (.int i) := by
  obtain ⟨c, t, rfl, hc⟩ : ∃ c t, text = c :: t ∧ (isDigit c = true ∨ c = ofChar '-') := by
    obtain rfl := strOfInt_eq_some h
    unfold intDigits
    split
    · exact ⟨_, _, rfl, Or.inr rfl⟩
    · obtain ⟨d, ds, hds⟩ : ∃ d ds, natDigits i.natAbs = d :: ds := by
        apply List.exists_cons_of_ne_nil
        simp [natDigits, Nat.toDigits_ne_nil]
      exact ⟨d, ds, hds, Or.inl (isDigit_of_mem_natDigits (hds ▸ List.mem_cons_self))⟩
  have hne : ∀ w, isDigit w = false → w ≠ ofChar '-' → c ≠ w := by
    rintro w hw hminus rfl
    rcases hc with hc | hc
    · rw [hw] at hc
      cases hc
    · exact hminus hc
  exact parses_scalar (hne _ (by decide) (by decide)) (hne _ (by decide) (by decide))
    (hne _ (by decide) (by decide)) fun rest hrest => scanScalar_strOfInt h hrest

theorem parses_str {ascii : Bool} {s k : Str} (h : Quotes ascii s k) :
    Parses (quote ascii s) (.str k) := by
  intro fuel rest hfuel _
  obtain ⟨fuel, rfl⟩ : ∃ n, fuel = n + 1 := ⟨fuel - 1, by omega⟩
  have htext : quote ascii s ++ rest
      = ofChar '"' :: (s.flatMap (escapeChar ascii) ++ ofChar '"' :: rest) := by
    rw [quote, show lit "\"" = [ofChar '"'] by rfl]
    simp only [List.append_assoc, List.cons_append, List.nil_append]
  rw [htext, parseValue, if_pos rfl, h rest]
  rfl

theorem parses_list {style : JsonStyle} {level : ℕ} {ts : List Str} {xs : List PyVal}
    (h : List.Forall₂ Parses ts xs) :
    Parses (bracket style level (lit "[") (lit "]") ts) (.list xs) := by
  intro fuel rest hfuel hrest
  obtain ⟨fuel, rfl⟩ : ∃ n, fuel = n + 1 := ⟨fuel - 1, by omega⟩
  rcases ts with _ | ⟨t, ts⟩
  · cases h
    rfl
  obtain ⟨first, gap, pad, hfirst, hgap, hpad, hshape⟩ :=
    bracket_shape style level (lit "[") (lit "]") (List.cons_ne_nil t ts)
  rw [hshape] at hfuel ⊢
  rw [show lit "[" = [ofChar '['] by rfl, show lit "]" = [ofChar ']'] by rfl] at *
  simp only [List.length_append, List.length_singleton] at hfuel
  set items := List.intercalate (ofChar ',' :: gap) (t :: ts) with hitems
  have hparse : parseElements fuel (items ++ pad ++ ofChar ']' :: rest) = .ok (xs, rest) :=
    parseElements_items hgap hpad h (List.cons_ne_nil t ts) (by rw [← hitems]; omega)
  obtain ⟨c, r, heq, hc, hbracket⟩ : ∃ c r, items ++ pad ++ ofChar ']' :: rest = c :: r ∧
      isJsonSpace c = false ∧ c ≠ ofChar ']' := by
    obtain ⟨n, rfl⟩ : ∃ n, fuel = n + 1 := ⟨fuel - 1, by omega⟩
    rw [parseElements] at hparse
    obtain ⟨p, hp, -⟩ := bind_eq_ok.mp hparse
    exact head_of_parseValue hp
  have htext : [ofChar '['] ++ first ++ items ++ pad ++ [ofChar ']'] ++ rest
      = ofChar '[' :: (first ++ (items ++ pad ++ ofChar ']' :: rest)) := by
    simp only [List.append_assoc, List.cons_append, List.nil_append]
  have hskip := skipSpace_pad hfirst ⟨c, r, heq, hc⟩
  have hquote : ¬ ofChar '[' = ofChar '"' := by decide
  rw [htext, parseValue, if_neg hquote, if_pos rfl, hskip, heq]
  simp only [if_neg hbracket, ← heq, hparse, ok_bind, pure_eq]

theorem parses_dict {style : JsonStyle} {level : ℕ} {ascii : Bool} {ts : List Str} {d : Dict}
    (h : List.Forall₂ (MemberReads ascii) ts d) :
    Parses (bracket style level (lit "\x7b") (lit "\x7d") ts) (.dict (Dict.update [] d)) := by
  intro fuel rest hfuel hrest
  obtain ⟨fuel, rfl⟩ : ∃ n, fuel = n + 1 := ⟨fuel - 1, by omega⟩
  rcases ts with _ | ⟨t, ts⟩
  · cases h
    rfl
  obtain ⟨first, gap, pad, hfirst, hgap, hpad, hshape⟩ :=
    bracket_shape style level (lit "\x7b") (lit "\x7d") (List.cons_ne_nil t ts)
  rw [hshape] at hfuel ⊢
  rw [show lit "\x7b" = [ofChar '\x7b'] by rfl, show lit "\x7d" = [ofChar '\x7d'] by rfl] at *
  simp only [List.length_append, List.length_singleton] at hfuel
  set items := List.intercalate (ofChar ',' :: gap) (t :: ts) with hitems
  have hparse : parseMembers fuel (items ++ pad ++ ofChar '\x7d' :: rest) = .ok (d, rest) :=
    parseMembers_items hgap hpad h (List.cons_ne_nil t ts) (by rw [← hitems]; omega)
  obtain ⟨r, heq⟩ : ∃ r, items ++ pad ++ ofChar '\x7d' :: rest = ofChar '"' :: r := by
    obtain ⟨n, rfl⟩ : ∃ n, fuel = n + 1 := ⟨fuel - 1, by omega⟩
    rcases htail : items ++ pad ++ ofChar '\x7d' :: rest with _ | ⟨c, r⟩
    · simp at htail
    · rw [htail, parseMembers] at hparse
      by_cases hc : c = ofChar '"'
      · exact ⟨r, by rw [hc]⟩
      · simp [hc] at hparse
  have htext : [ofChar '\x7b'] ++ first ++ items ++ pad ++ [ofChar '\x7d'] ++ rest
      = ofChar '\x7b' :: (first ++ (items ++ pad ++ ofChar '\x7d' :: rest)) := by
    simp only [List.append_assoc, List.cons_append, List.nil_append]
  have hskip := skipSpace_pad hfirst ⟨_, r, heq, by decide⟩
  have hquote : ¬ ofChar '\x7b' = ofChar '"' := by decide
  have hbracket : ¬ ofChar '\x7b' = ofChar '[' := by decide
  have hclose : ¬ ofChar '"' = ofChar '\x7d' := by decide
  rw [htext, parseValue, if_neg hquote, if_neg hbracket, if_pos rfl, hskip, heq]
  simp only [if_neg hclose, ← heq, hparse, ok_bind, pure_eq]

mutual

/-- What `json.dumps` writes of a readable value parses back to it. -/
theorem parses_dumps {style : JsonStyle} (hascii : style.ensureAscii = false)
    (hsort : style.sortKeys = false) : ∀ (v : PyVal) {level : ℕ} {text : Str}, Readable v →
      dumpsAt style level v = .ok text → Parses text v
  | .none, _, _, _, h => by
      obtain rfl := Except.ok.inj h
      exact parses_scalar (by decide) (by decide) (by decide) fun rest _ => rfl
  | .bool true, _, _, _, h => by
      obtain rfl := Except.ok.inj h
      exact parses_scalar (by decide) (by decide) (by decide) fun rest _ => rfl
  | .bool false, _, _, _, h => by
      obtain rfl := Except.ok.inj h
      exact parses_scalar (by decide) (by decide) (by decide) fun rest _ => rfl
  | .int _, _, _, _, h => parses_int (orRaise_eq_ok.mp h)
  | .float _, _, _, hv, h => by
      obtain rfl := Except.ok.inj h
      exact hv
  | .str s, _, _, _, h => by
      obtain rfl := Except.ok.inj h
      rw [hascii]
      exact parses_str (scanString_quoted s)
  | .list xs, _, _, hv, h => by
      simp only [dumpsAt, bind_eq_ok, pure_eq, Except.ok.injEq] at h
      obtain ⟨ts, hts, rfl⟩ := h
      exact parses_list (parses_dumpsList hascii hsort xs hv hts)
  | .dict d, level, _, hv, h => by
      simp only [dumpsAt, hsort, bind_eq_ok, pure_eq, Except.ok.injEq, Bool.false_eq_true, if_false,
        hascii] at h
      obtain ⟨_, rfl, ts, hts, rfl⟩ := h
      have hupdate : Dict.update [] d = d := by
        have h := @update_of_readable _ [] d hv fun k v _ => rfl
        simpa using h
      have hparses := @parses_dict _ style level false ts d
        ((parses_dumpsDict hascii hsort d hv hts).imp fun _ _ => MemberText.reads)
      rw [hupdate] at hparses
      exact hparses
  | .tuple _, _, _, hv, _ => hv.elim
  | .object _ _, _, _, hv, _ => hv.elim

theorem parses_dumpsList {style : JsonStyle} (hascii : style.ensureAscii = false)
    (hsort : style.sortKeys = false) : ∀ (xs : List PyVal) {level : ℕ} {ts : List Str},
      ReadableList xs → dumpsList style level xs = .ok ts → List.Forall₂ Parses ts xs
  | [], _, _, _, h => by
      obtain rfl := Except.ok.inj h
      exact List.Forall₂.nil
  | x :: xs, _, _, hv, h => by
      simp only [dumpsList, bind_eq_ok, pure_eq, Except.ok.injEq] at h
      obtain ⟨t, ht, ts, hts, rfl⟩ := h
      exact List.Forall₂.cons (parses_dumps hascii hsort x hv.1 ht)
        (parses_dumpsList hascii hsort xs hv.2 hts)

theorem parses_dumpsDict {style : JsonStyle} (hascii : style.ensureAscii = false)
    (hsort : style.sortKeys = false) : ∀ (d : List (PyKey × PyVal)) {level : ℕ} {ts : List Str},
      ReadableDict d → (dumpsDict style level d).mapM (entryText false) = .ok ts →
        List.Forall₂ MemberText ts d
  | [], _, _, _, h => by
      obtain rfl := Except.ok.inj h
      exact List.Forall₂.nil
  | (.str k, v) :: rest, _, _, hv, h => by
      simp only [dumpsDict, List.mapM_cons, entryText, keyText, bind_eq_ok, pure_eq,
        Except.ok.injEq] at h
      obtain ⟨t, ⟨_, rfl, value, hvalue, rfl⟩, ts, hts, rfl⟩ := h
      exact List.Forall₂.cons ⟨k, value, rfl, rfl, parses_dumps hascii hsort v hv.1 hvalue⟩
        (parses_dumpsDict hascii hsort rest hv.2.2 hts)
  | (.none, _) :: _, _, _, hv, _ => hv.elim
  | (.bool _, _) :: _, _, _, hv, _ => hv.elim
  | (.int _, _) :: _, _, _, hv, _ => hv.elim
  | (.float _, _) :: _, _, _, hv, _ => hv.elim
  | (.other _, _) :: _, _, _, hv, _ => hv.elim

end

/-- A text that is read as a value wherever it stands is a JSON text of it. -/
theorem loads_of_parses {text : Str} {v : PyVal} (h : Parses text v) : loads text = .ok v := by
  have hend : Delimited [] := by simp [Delimited]
  obtain ⟨c, t, heq, hspace, -⟩ := h.head hend
  rw [List.append_nil] at heq
  have hparse := h (text.length + 1) [] le_rfl hend
  rw [List.append_nil] at hparse
  have hskip : skipSpace text = text := by
    rw [heq]
    simp [skipSpace, hspace]
  have hbom : ¬ text.head? = some (codePoint 0xfeff) := by
    rw [heq]
    rintro ⟨⟩
    -- no value starts with a byte order mark
    rw [heq, parseValue_scalar (by decide) (by decide) (by decide)] at hparse
    cases hparse
  rw [loads, if_neg hbom, hskip, hparse]
  rfl

/-- `json.loads(json.dumps(v, ensure_ascii=False, ...))` is `v` again. -/
theorem loads_dumps {style : JsonStyle} (hascii : style.ensureAscii = false)
    (hsort : style.sortKeys = false) {v : PyVal} (hv : Readable v) {text : Str}
    (h : dumps style v = .ok text) : loads text = .ok v :=
  loads_of_parses (parses_dumps hascii hsort v hv h)

end RoundTrip

end EasyBlockchain.Py
