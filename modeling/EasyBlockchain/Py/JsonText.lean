/-
Which values have a JSON text with UTF-8 bytes.

Under `ensure_ascii=False` a string stands in the text as it is, so a text can be
encoded when none of its strings holds a surrogate. `Writable` says which values
have such a text, without writing it; it does not depend on the layout.
-/
import EasyBlockchain.Py.JsonSize

set_option autoImplicit false

namespace EasyBlockchain.Py

/-! ## Texts that can be encoded -/

/-- No code point is a surrogate. -/
def Scalars (s : Str) : Prop := ∀ c ∈ s, isSurrogate c = false

theorem utf8_isSome_iff {s : Str} : (utf8 s).isSome ↔ Scalars s := by
  unfold utf8 Scalars
  split
  · rename_i hany
    obtain ⟨c, hc, hsurrogate⟩ := List.any_eq_true.mp hany
    simp only [Option.isSome_none, Bool.false_eq_true, false_iff, not_forall]
    exact ⟨c, hc, by simp [hsurrogate]⟩
  · rename_i hany
    simpa using hany

@[simp] theorem scalars_append {s t : Str} : Scalars (s ++ t) ↔ Scalars s ∧ Scalars t := by
  simp only [Scalars, List.mem_append, or_imp, forall_and]

@[simp] theorem scalars_nil : Scalars [] := by
  intro c hc
  cases hc

theorem scalars_of_ascii {s : Str} (h : ∀ c ∈ s, c.val < 0x80) : Scalars s :=
  utf8_isSome_iff.mp (utf8_isSome_of_ascii h)

/-- A literal is looked through. -/
theorem scalars_of_any {s : Str} (h : s.any isSurrogate = false) : Scalars s := by
  simpa [Scalars] using h

theorem scalars_natDigits (n : ℕ) : Scalars (natDigits n) := by
  intro c hc
  obtain ⟨h1, h2⟩ := mem_natDigits hc
  simp only [isSurrogate, Bool.and_eq_false_iff, decide_eq_false_iff_not]
  omega

theorem scalars_strOfInt {i : ℤ} {text : Str} (h : strOfInt i = some text) : Scalars text := by
  obtain rfl := strOfInt_eq_some h
  unfold intDigits
  split
  · intro c hc
    rcases List.mem_cons.mp hc with rfl | hc
    · decide
    · exact scalars_natDigits _ c hc
  · exact scalars_natDigits _

/-- Escaping without `ensure_ascii` keeps the surrogates. -/
theorem scalars_escapeChar (c : CodePoint) :
    Scalars (escapeChar false c) ↔ isSurrogate c = false := by
  have hlit : ∀ s : Str, Scalars s → (c.val < 0x80) → (Scalars s ↔ isSurrogate c = false) := by
    intro s hs hc
    refine iff_of_true hs ?_
    simp only [isSurrogate, Bool.and_eq_false_iff, decide_eq_false_iff_not]
    omega
  have hhex : ∀ n, (hexDigit n).val < 0x80 := by
    intro n
    have h : ∀ i : Fin 16, (hexDigit i.val).val < 0x80 := by decide
    have hn : hexDigit n = hexDigit (n % 16) := by simp [hexDigit]
    rw [hn]
    exact h ⟨n % 16, by omega⟩
  unfold escapeChar
  simp only [Bool.not_false, Bool.or_true, if_true]
  split_ifs with h1 h2 h3 h4 h5 h6 h7 h8
  · exact hlit _ (scalars_of_any (by decide)) (by omega)
  · exact hlit _ (scalars_of_any (by decide)) (by omega)
  · exact hlit _ (scalars_of_any (by decide)) (by omega)
  · exact hlit _ (scalars_of_any (by decide)) (by omega)
  · exact hlit _ (scalars_of_any (by decide)) (by omega)
  · exact hlit _ (scalars_of_any (by decide)) (by omega)
  · exact hlit _ (scalars_of_any (by decide)) (by omega)
  · refine hlit _ (scalars_of_ascii ?_) (by omega)
    intro d hd
    simp only [unicodeEscape, List.mem_cons, List.not_mem_nil, or_false] at hd
    rcases hd with rfl | rfl | rfl | rfl | rfl | rfl
    · decide
    · decide
    · exact hhex _
    · exact hhex _
    · exact hhex _
    · exact hhex _
  · simp [Scalars]

theorem scalars_quote {s : Str} : Scalars (quote false s) ↔ Scalars s := by
  have hmark : Scalars (lit "\"") := scalars_of_any (by decide)
  rw [quote, scalars_append, scalars_append]
  simp only [hmark, true_and, and_true]
  constructor
  · intro h c hc
    rw [← scalars_escapeChar]
    exact fun d hd => h d (List.mem_flatMap.mpr ⟨c, hc, hd⟩)
  · intro h d hd
    obtain ⟨c, hc, hd⟩ := List.mem_flatMap.mp hd
    exact (scalars_escapeChar c).mpr (h c hc) d hd

theorem scalars_intercalate {sep : Str} (hsep : Scalars sep) {texts : List Str} :
    Scalars (List.intercalate sep texts) ↔ ∀ t ∈ texts, Scalars t := by
  induction texts with
  | nil => simp [List.intercalate]
  | cons t texts ih =>
      cases texts with
      | nil => simp [List.intercalate]
      | cons u texts =>
          have hcons : List.intercalate sep (t :: u :: texts)
              = t ++ sep ++ List.intercalate sep (u :: texts) := by simp [List.intercalate]
          rw [hcons, scalars_append, scalars_append, ih, List.forall_mem_cons (l := u :: texts)]
          simp only [hsep, and_true]

theorem scalars_bracket (style : JsonStyle) (level : ℕ) {opening closing : Str}
    (hopening : Scalars opening) (hclosing : Scalars closing) {items : List Str} :
    Scalars (bracket style level opening closing items) ↔ ∀ t ∈ items, Scalars t := by
  have hnewline : ∀ n, Scalars (newlineIndent n) := by
    intro n c hc
    rcases List.mem_cons.mp hc with rfl | hc
    · decide
    · obtain rfl := List.eq_of_mem_replicate hc
      decide
  have hcomma : Scalars (lit ",") := scalars_of_any (by decide)
  have hsep : Scalars (lit ", ") := scalars_of_any (by decide)
  unfold bracket
  split
  · rename_i hempty
    rw [List.isEmpty_iff] at hempty
    simp [hopening, hclosing, hempty]
  · split
    · simp only [scalars_append, hopening, hclosing, hnewline, true_and, and_true]
      exact scalars_intercalate (scalars_append.mpr ⟨hcomma, hnewline _⟩)
    · simp only [scalars_append, hopening, hclosing, true_and, and_true]
      exact scalars_intercalate hsep

/-! ## Values that can be written -/

section Writable

variable [Runtime]

mutual

/-- A value with a JSON text that has UTF-8 bytes: its keys and integers have a
text, its strings and keys hold no surrogates, and where keys are sorted, Python
can compare them. -/
def Writable (sortKeys : Bool) : PyVal → Prop
  | .none => True
  | .bool _ => True
  | .int i => (strOfInt i).isSome
  | .float f => Scalars (floatText f)
  | .str s => Scalars s
  | .list xs => WritableList sortKeys xs
  | .tuple xs => WritableList sortKeys xs
  | .dict d => (sortKeys = true → ∃ sorted, sortItems d = .ok sorted) ∧ WritableDict sortKeys d
  | .object _ _ => False

def WritableList (sortKeys : Bool) : List PyVal → Prop
  | [] => True
  | x :: xs => Writable sortKeys x ∧ WritableList sortKeys xs

def WritableDict (sortKeys : Bool) : List (PyKey × PyVal) → Prop
  | [] => True
  | (k, v) :: rest => (∃ text, keyText k = .ok text ∧ Scalars text) ∧ Writable sortKeys v ∧
      WritableDict sortKeys rest

end

/-- A text that can be encoded. -/
def Encodes (x : PyM Str) : Prop := ∃ text, x = .ok text ∧ Scalars text

omit [Runtime] in
theorem encodes_ok {text : Str} : Encodes (.ok text) ↔ Scalars text := by
  simp [Encodes]

/-- The entries of an object can be written when each of them can. -/
theorem encodes_entries {style : JsonStyle} (hascii : style.ensureAscii = false) {level : ℕ}
    {d : Dict} :
    (∃ ts, (d.map fun p => (p.1, dumpsAt style level p.2)).mapM (entryText style.ensureAscii)
        = .ok ts ∧ ∀ t ∈ ts, Scalars t) ↔
      ∀ p ∈ d, Encodes (keyText p.1) ∧ Encodes (dumpsAt style level p.2) := by
  have hcolon : Scalars (lit ": ") := scalars_of_any (by decide)
  have hentry : ∀ p : PyKey × PyVal, Encodes (entryText style.ensureAscii
      (p.1, dumpsAt style level p.2)) ↔ Encodes (keyText p.1) ∧ Encodes (dumpsAt style level p.2) := by
    intro p
    simp only [Encodes, entryText, hascii, bind_eq_ok, pure_eq, Except.ok.injEq]
    constructor
    · rintro ⟨_, ⟨key, hkey, value, hvalue, rfl⟩, htext⟩
      rw [scalars_append, scalars_append, scalars_quote] at htext
      exact ⟨⟨key, hkey, htext.1.1⟩, value, hvalue, htext.2⟩
    · rintro ⟨⟨key, hkey, hk⟩, value, hvalue, hv⟩
      refine ⟨_, ⟨key, hkey, value, hvalue, rfl⟩, ?_⟩
      rw [scalars_append, scalars_append, scalars_quote]
      exact ⟨⟨hk, hcolon⟩, hv⟩
  induction d with
  | nil => simp
  | cons p d ih =>
      simp only [List.map_cons, List.mapM_cons, bind_eq_ok, pure_eq, Except.ok.injEq]
      constructor
      · rintro ⟨_, ⟨t, ht, ts, hts, rfl⟩, hall⟩
        obtain ⟨hscalar, hall⟩ := List.forall_mem_cons.mp hall
        exact List.forall_mem_cons.mpr ⟨(hentry p).mp ⟨t, ht, hscalar⟩, ih.mp ⟨ts, hts, hall⟩⟩
      · intro h
        obtain ⟨hp, hd⟩ := List.forall_mem_cons.mp h
        obtain ⟨t, ht, hscalar⟩ := (hentry p).mpr hp
        obtain ⟨ts, hts, hall⟩ := ih.mpr hd
        exact ⟨t :: ts, ⟨t, ht, ts, hts, rfl⟩, List.forall_mem_cons.mpr ⟨hscalar, hall⟩⟩

mutual

/-- Without `ensure_ascii` the text of a value can be encoded exactly when the
value is writable. -/
theorem encodes_dumps {style : JsonStyle} (hascii : style.ensureAscii = false) :
    ∀ (v : PyVal) (level : ℕ), Encodes (dumpsAt style level v) ↔ Writable style.sortKeys v
  | .none, _ => iff_of_true ⟨_, rfl, scalars_of_any (by decide)⟩ trivial
  | .bool true, _ => iff_of_true ⟨_, rfl, scalars_of_any (by decide)⟩ trivial
  | .bool false, _ => iff_of_true ⟨_, rfl, scalars_of_any (by decide)⟩ trivial
  | .int i, _ => by
      rw [dumpsAt, Writable, Encodes]
      rcases hi : strOfInt i with _ | text
      · simp [orRaise]
      · simp [scalars_strOfInt hi]
  | .float f, _ => encodes_ok
  | .str s, _ => by
      rw [dumpsAt, hascii, encodes_ok]
      exact scalars_quote
  | .list xs, level => by
      rw [Writable, ← encodes_dumpsList hascii xs (level + 1), dumpsAt, Encodes]
      simp only [bind_eq_ok, pure_eq, Except.ok.injEq]
      constructor
      · rintro ⟨_, ⟨ts, hts, rfl⟩, h⟩
        exact ⟨ts, hts, (scalars_bracket style level (scalars_of_any (by decide))
          (scalars_of_any (by decide))).mp h⟩
      · rintro ⟨ts, hts, h⟩
        exact ⟨_, ⟨ts, hts, rfl⟩, (scalars_bracket style level (scalars_of_any (by decide))
          (scalars_of_any (by decide))).mpr h⟩
  | .tuple xs, level => by
      rw [Writable, ← encodes_dumpsList hascii xs (level + 1), dumpsAt, Encodes]
      simp only [bind_eq_ok, pure_eq, Except.ok.injEq]
      constructor
      · rintro ⟨_, ⟨ts, hts, rfl⟩, h⟩
        exact ⟨ts, hts, (scalars_bracket style level (scalars_of_any (by decide))
          (scalars_of_any (by decide))).mp h⟩
      · rintro ⟨ts, hts, h⟩
        exact ⟨_, ⟨ts, hts, rfl⟩, (scalars_bracket style level (scalars_of_any (by decide))
          (scalars_of_any (by decide))).mpr h⟩
  | .dict d, level => by
      rw [Writable, ← encodes_dumpsDict hascii d (level + 1)]
      have hbracket := fun ts => @scalars_bracket style level _ _
        (scalars_of_any (s := lit "\x7b") (by decide)) (scalars_of_any (s := lit "\x7d") (by decide)) ts
      rcases hsort : style.sortKeys with _ | _
      · rw [← encodes_entries hascii]
        simp only [Encodes, dumpsAt, dumpsDict_eq_map, hsort, Bool.false_eq_true, if_false, bind_eq_ok,
          pure_eq, Except.ok.injEq, IsEmpty.forall_iff, true_and]
        constructor
        · rintro ⟨_, ⟨_, rfl, ts, hts, rfl⟩, h⟩
          exact ⟨ts, hts, (hbracket ts).mp h⟩
        · rintro ⟨ts, hts, h⟩
          exact ⟨_, ⟨_, rfl, ts, hts, rfl⟩, (hbracket ts).mpr h⟩
      · simp only [Encodes, dumpsAt, dumpsDict_eq_map, hsort, if_true, bind_eq_ok, pure_eq,
          Except.ok.injEq, sortItems_map_eq_ok, forall_const]
        constructor
        · rintro ⟨_, ⟨_, ⟨sorted, hsorted, rfl⟩, ts, hts, rfl⟩, h⟩
          have hall := (encodes_entries hascii).mp ⟨ts, hts, (hbracket ts).mp h⟩
          exact ⟨⟨sorted, hsorted⟩, fun p hp =>
            hall p ((perm_of_sortItems hsorted).mem_iff.mp hp)⟩
        · rintro ⟨⟨sorted, hsorted⟩, hall⟩
          obtain ⟨ts, hts, h⟩ := (encodes_entries hascii).mpr fun p hp =>
            hall p ((perm_of_sortItems hsorted).mem_iff.mpr hp)
          exact ⟨_, ⟨_, ⟨sorted, hsorted, rfl⟩, ts, hts, rfl⟩, (hbracket ts).mpr h⟩
  | .object _ _, _ => by
      simp [dumpsAt, Encodes, Writable]

theorem encodes_dumpsList {style : JsonStyle} (hascii : style.ensureAscii = false) :
    ∀ (xs : List PyVal) (level : ℕ), (∃ ts, dumpsList style level xs = .ok ts ∧ ∀ t ∈ ts, Scalars t)
      ↔ WritableList style.sortKeys xs
  | [], _ => by simp [dumpsList, WritableList]
  | x :: xs, level => by
      rw [WritableList, ← encodes_dumps hascii x level, ← encodes_dumpsList hascii xs level]
      simp only [dumpsList, bind_eq_ok, pure_eq, Except.ok.injEq]
      constructor
      · rintro ⟨_, ⟨t, ht, ts, hts, rfl⟩, hall⟩
        obtain ⟨hscalar, hall⟩ := List.forall_mem_cons.mp hall
        exact ⟨⟨t, ht, hscalar⟩, ts, hts, hall⟩
      · rintro ⟨⟨t, ht, hscalar⟩, ts, hts, hall⟩
        exact ⟨t :: ts, ⟨t, ht, ts, hts, rfl⟩, List.forall_mem_cons.mpr ⟨hscalar, hall⟩⟩

theorem encodes_dumpsDict {style : JsonStyle} (hascii : style.ensureAscii = false) :
    ∀ (d : List (PyKey × PyVal)) (level : ℕ),
      (∀ p ∈ d, Encodes (keyText p.1) ∧ Encodes (dumpsAt style level p.2))
        ↔ WritableDict style.sortKeys d
  | [], _ => by simp [WritableDict]
  | (k, v) :: rest, level => by
      rw [WritableDict, ← encodes_dumps hascii v level, List.forall_mem_cons]
      have hrest := encodes_dumpsDict hascii rest level
      constructor
      · rintro ⟨⟨hk, hv⟩, h⟩
        exact ⟨hk, hv, hrest.mp h⟩
      · rintro ⟨hk, hv, h⟩
        exact ⟨⟨hk, hv⟩, hrest.mpr h⟩

end

mutual

/-- What can be written with sorted keys can be written in any order. -/
theorem writable_unsorted {sortKeys : Bool} :
    ∀ v : PyVal, Writable sortKeys v → Writable false v
  | .none, h => h
  | .bool _, h => h
  | .int _, h => h
  | .float _, h => h
  | .str _, h => h
  | .list xs, h => writable_unsortedList xs h
  | .tuple xs, h => writable_unsortedList xs h
  | .dict d, h => ⟨fun hfalse => Bool.noConfusion hfalse, writable_unsortedDict d h.2⟩
  | .object _ _, h => h

theorem writable_unsortedList {sortKeys : Bool} :
    ∀ xs : List PyVal, WritableList sortKeys xs → WritableList false xs
  | [], h => h
  | x :: xs, h => ⟨writable_unsorted x h.1, writable_unsortedList xs h.2⟩

theorem writable_unsortedDict {sortKeys : Bool} :
    ∀ d : List (PyKey × PyVal), WritableDict sortKeys d → WritableDict false d
  | [], h => h
  | (_, v) :: rest, h => ⟨h.1, writable_unsorted v h.2.1, writable_unsortedDict rest h.2.2⟩

end

/-- The bytes of a text exist exactly when the value is writable. -/
theorem encode_dumps {style : JsonStyle} (hascii : style.ensureAscii = false) {v : PyVal} :
    (∃ text bytes, dumps style v = .ok text ∧ encode text = .ok bytes) ↔
      Writable style.sortKeys v := by
  rw [← encodes_dumps hascii v 0]
  constructor
  · rintro ⟨text, bytes, htext, hbytes⟩
    exact ⟨text, htext, utf8_isSome_iff.mp (Option.isSome_of_eq_some (orRaise_eq_ok.mp hbytes))⟩
  · rintro ⟨text, htext, hscalars⟩
    obtain ⟨bytes, hbytes⟩ := Option.isSome_iff_exists.mp (utf8_isSome_iff.mpr hscalars)
    exact ⟨text, bytes, htext, orRaise_eq_ok.mpr hbytes⟩

end Writable

end EasyBlockchain.Py
