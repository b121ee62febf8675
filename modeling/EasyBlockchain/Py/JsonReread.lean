/-
What `json.loads` makes of a text that `json.dumps` wrote.

Not every value comes back as it was: keys become texts, and of two keys with
one text the later value stays; tuples become lists; escaped surrogates that
stand next to each other become one character. `reread` is the value that comes
back, and `rereads_dumps` says so for every option of the encoder.
-/
import EasyBlockchain.Py.JsonLoads
import EasyBlockchain.Py.JsonSize

set_option autoImplicit false

namespace EasyBlockchain.Py

/-! ## Strings written in ASCII -/

/-- Code points that were written as escapes; `high` is the one before, if it was
a high surrogate. -/
def joinPairs : Option ℕ → Str → Str
  | high, [] => flush high []
  | high, c :: s =>
    if 0xd800 ≤ c.val ∧ c.val ≤ 0xdbff then flush high (joinPairs (some c.val) s)
    else joinSurrogates high c.val (joinPairs none s)

/-- A string that was written and read again. -/
def rereadStr (ensureAscii : Bool) (s : Str) : Str := if ensureAscii then joinPairs none s else s

/-- One code point that was written in ASCII. -/
theorem scanString_escapeAscii (high : Option ℕ) (c : CodePoint) (t : Str) :
    scanString high (escapeChar true c ++ t)
      = if 0xd800 ≤ c.val ∧ c.val ≤ 0xdbff then
          (scanString (some c.val) t).map fun p => (flush high p.1, p.2)
        else (scanString none t).map fun p => (joinSurrogates high c.val p.1, p.2) := by
  by_cases hsmall : c.val < 0x7f
  · -- no difference below `0x7f`
    have hsame : escapeChar true c = escapeChar false c := by simp [escapeChar, hsmall]
    rw [hsame, scanString_escapeChar, if_neg (by omega)]
    simp only [joinSurrogates_of_not_low (n := c.val) (by omega), codePoint_val]
  have hescape : escapeChar true c = if c.val < 0x10000 then unicodeEscape c.val
      else unicodeEscape (0xd800 + (c.val - 0x10000) / 0x400)
        ++ unicodeEscape (0xdc00 + (c.val - 0x10000) % 0x400) := by
    simp (disch := omega) [escapeChar, hsmall, if_neg]
  rw [hescape]
  by_cases hbasic : c.val < 0x10000
  · rw [if_pos hbasic, scanString_unicodeEscape hbasic]
  · -- a character above `0xffff` is a high and a low surrogate
    have hc := c.isLt
    rw [if_neg hbasic, List.append_assoc, scanString_unicodeEscape (by omega), if_pos (by omega),
      scanString_unicodeEscape (by omega), if_neg (by omega), if_neg (by omega)]
    have hlow : 0xdc00 ≤ 0xdc00 + (c.val - 0x10000) % 0x400 ∧
        0xdc00 + (c.val - 0x10000) % 0x400 ≤ 0xdfff := by omega
    have hjoined : 0x10000 + 0x400 * (0xd800 + (c.val - 0x10000) / 0x400 - 0xd800)
        + (0xdc00 + (c.val - 0x10000) % 0x400 - 0xdc00) = c.val := by omega
    simp only [Option.map_map, Function.comp_def, joinSurrogates, if_pos hlow, hjoined,
      codePoint_val]
    rcases high with _ | m
    · rfl
    · simp only [flush, if_neg (show ¬ (0xdc00 ≤ c.val ∧ c.val ≤ 0xdfff) by omega)]

/-- A string that was written in ASCII reads as its joined code points. -/
theorem scanString_ascii (high : Option ℕ) (s rest : Str) :
    scanString high (s.flatMap (escapeChar true) ++ ofChar '"' :: rest)
      = some (joinPairs high s, rest) := by
  induction s generalizing high with
  | nil =>
      rw [List.flatMap_nil, List.nil_append, scanString.eq_def]
      simp only [if_true, joinPairs]
  | cons c s ih =>
      rw [List.flatMap_cons, List.append_assoc, scanString_escapeAscii, ih, ih, joinPairs]
      split
      · rfl
      · rfl

theorem quotes_rereadStr (ascii : Bool) (s : Str) : Quotes ascii s (rereadStr ascii s) := by
  cases ascii with
  | true => exact scanString_ascii none s
  | false => exact scanString_quoted s

/-! ## Values -/

section Reread

variable [Runtime]

/-- The text of a key. -/
def keyString (k : PyKey) : Str := ((keyText k).toOption).getD []

/-- The members of an object in the order they are written, under the keys that
are read. -/
def members (style : JsonStyle) (d : Dict) : Dict :=
  (if style.sortKeys then sortByKey d else d).map fun p =>
    (.str (rereadStr style.ensureAscii (keyString p.1)), p.2)

mutual

/-- The value that was written and read again. -/
def reread (style : JsonStyle) : PyVal → PyVal
  | .str s => .str (rereadStr style.ensureAscii s)
  | .list xs => .list (rereadList style xs)
  | .tuple xs => .list (rereadList style xs)
  | .dict d => .dict (Dict.update [] (members style (rereadDict style d)))
  | v => v

/-- The elements of a sequence, read again. -/
def rereadList (style : JsonStyle) : List PyVal → List PyVal
  | [] => []
  | x :: xs => reread style x :: rereadList style xs

/-- The entries of a dictionary with their values read again. -/
def rereadDict (style : JsonStyle) : List (PyKey × PyVal) → List (PyKey × PyVal)
  | [] => []
  | (k, v) :: rest => (k, reread style v) :: rereadDict style rest

end

mutual

/-- Every float in a value is read back from the text that `repr` gives it. -/
def FloatsRead : PyVal → Prop
  | .float f => Parses (floatText f) (.float f)
  | .list xs => FloatsReadList xs
  | .tuple xs => FloatsReadList xs
  | .dict d => FloatsReadDict d
  | _ => True

def FloatsReadList : List PyVal → Prop
  | [] => True
  | x :: xs => FloatsRead x ∧ FloatsReadList xs

def FloatsReadDict : List (PyKey × PyVal) → Prop
  | [] => True
  | (_, v) :: rest => FloatsRead v ∧ FloatsReadDict rest

end

theorem rereadDict_eq_map (style : JsonStyle) (d : Dict) :
    rereadDict style d = d.map fun p => (p.1, reread style p.2) := by
  induction d with
  | nil => rfl
  | cons p rest ih =>
      obtain ⟨k, v⟩ := p
      rw [rereadDict, List.map_cons, ih]

/-- The members of an object, each of them read. -/
theorem reads_members {style : JsonStyle} {level : ℕ} {e : Dict}
    (he : ∀ p ∈ e, ∀ text, dumpsAt style level p.2 = .ok text → Parses text (reread style p.2))
    {ts : List Str}
    (h : (e.map fun p => (p.1, dumpsAt style level p.2)).mapM (entryText style.ensureAscii)
      = .ok ts) :
    List.Forall₂ (MemberReads style.ensureAscii) ts (e.map fun p =>
      (PyKey.str (rereadStr style.ensureAscii (keyString p.1)), reread style p.2)) := by
  induction e generalizing ts with
  | nil =>
      obtain rfl := Except.ok.inj h
      exact List.Forall₂.nil
  | cons p e ih =>
      simp only [List.map_cons, List.mapM_cons, entryText, bind_eq_ok, pure_eq,
        Except.ok.injEq] at h
      obtain ⟨t, ⟨key, hkey, value, hvalue, rfl⟩, ts, hts, rfl⟩ := h
      have hstring : keyString p.1 = key := by rw [keyString, hkey]; rfl
      refine List.Forall₂.cons ⟨key, _, value, rfl, rfl, ?_, he p List.mem_cons_self value hvalue⟩
        (ih (fun q hq => he q (List.mem_cons_of_mem p hq)) hts)
      rw [hstring]
      exact quotes_rereadStr _ key

mutual

/-- What `json.dumps` writes is read as `reread` says. -/
theorem parses_reread (style : JsonStyle) : ∀ (v : PyVal) {level : ℕ} {text : Str}, FloatsRead v →
    dumpsAt style level v = .ok text → Parses text (reread style v)
  | .none, _, _, _, h => by
      obtain rfl := Except.ok.inj h
      exact parses_scalar (by decide) (by decide) (by decide) fun rest _ => rfl
  | .bool true, _, _, _, h => by
      obtain rfl := Except.ok.inj h
      exact parses_scalar (by decide) (by decide) (by decide) fun rest _ => rfl
  | .bool false, _, _, _, h => by
      obtain rfl := Except.ok.inj h
      exact parses_scalar (by decide) (by decide) (by decide) fun rest _ => rfl
  | .int _, _, _, _, h => parses_int (orRaise_eq_ok.mp h)
  | .float _, _, _, hv, h => by
      obtain rfl := Except.ok.inj h
      exact hv
  | .str s, _, _, _, h => by
      obtain rfl := Except.ok.inj h
      exact parses_str (quotes_rereadStr _ s)
  | .list xs, _, _, hv, h => by
      simp only [dumpsAt, bind_eq_ok, pure_eq, Except.ok.injEq] at h
      obtain ⟨ts, hts, rfl⟩ := h
      exact parses_list (parses_rereadList style xs hv hts)
  | .tuple xs, _, _, hv, h => by
      simp only [dumpsAt, bind_eq_ok, pure_eq, Except.ok.injEq] at h
      obtain ⟨ts, hts, rfl⟩ := h
      exact parses_list (parses_rereadList style xs hv hts)
  | .dict d, level, _, hv, h => by
      have hd := @parses_rereadDict style d (level + 1) hv
      rw [reread, members, rereadDict_eq_map]
      rcases hsort : style.sortKeys with _ | _
      · simp only [dumpsAt, hsort, Bool.false_eq_true, if_false, bind_eq_ok, pure_eq,
          Except.ok.injEq, dumpsDict_eq_map] at h
        obtain ⟨_, rfl, ts, hts, rfl⟩ := h
        rw [if_neg (by decide), List.map_map]
        exact parses_dict (reads_members hd hts)
      · simp only [dumpsAt, hsort, if_true, bind_eq_ok, pure_eq, Except.ok.injEq,
          dumpsDict_eq_map] at h
        obtain ⟨entries, hentries, ts, hts, rfl⟩ := h
        -- the order of the keys is that of the entries
        obtain ⟨sorted, hsorted, rfl⟩ := (sortItems_map_eq_ok _).mp hentries
        rw [if_pos rfl, sortByKey_map, ← sortByKey_of_sortItems hsorted, List.map_map]
        exact parses_dict (reads_members
          (fun p hp => hd p ((perm_of_sortItems hsorted).mem_iff.mpr hp)) hts)
  | .object _ _, _, _, _, h => by cases h

theorem parses_rereadList (style : JsonStyle) : ∀ (xs : List PyVal) {level : ℕ} {ts : List Str},
    FloatsReadList xs → dumpsList style level xs = .ok ts →
      List.Forall₂ Parses ts (rereadList style xs)
  | [], _, _, _, h => by
      obtain rfl := Except.ok.inj h
      exact List.Forall₂.nil
  | x :: xs, _, _, hv, h => by
      simp only [dumpsList, bind_eq_ok, pure_eq, Except.ok.injEq] at h
      obtain ⟨t, ht, ts, hts, rfl⟩ := h
      exact List.Forall₂.cons (parses_reread style x hv.1 ht) (parses_rereadList style xs hv.2 hts)

theorem parses_rereadDict (style : JsonStyle) : ∀ (d : List (PyKey × PyVal)) {level : ℕ},
    FloatsReadDict d → ∀ p ∈ d, ∀ text, dumpsAt style level p.2 = .ok text →
      Parses text (reread style p.2)
  | [], _, _, p, hp => by cases hp
  | (k, v) :: rest, _, hv, p, hp => by
      intro text htext
      rcases List.mem_cons.mp hp with rfl | hp
      · exact parses_reread style v hv.1 htext
      · exact parses_rereadDict style rest hv.2 p hp text htext

end

/-- `json.loads(json.dumps(v, ...))`. -/
theorem loads_reread {style : JsonStyle} {v : PyVal} (hv : FloatsRead v) {text : Str}
    (h : dumps style v = .ok text) : loads text = .ok (reread style v) :=
  loads_of_parses (parses_reread style v hv h)

end Reread

end EasyBlockchain.Py
