/-
Which values keep their sorted text when they are written and read again.

`sort_keys` orders the keys of an object as Python orders them and writes their
texts; after a round trip it orders the texts. The text stays the same exactly
when, in every object, the two orders agree and no two keys have one text.
-/
import EasyBlockchain.Py.JsonReread
import EasyBlockchain.Py.StrDict

set_option autoImplicit false

namespace EasyBlockchain.Py

/-! ## Texts without separators of their own -/

theorem intercalate_cons {α : Type} (sep x : List α) (xs : List (List α)) :
    List.intercalate sep (x :: xs) = x ++ xs.flatMap (sep ++ ·) := by
  induction xs generalizing x with
  | nil => simp [List.intercalate]
  | cons y ys ih =>
      rw [intercalate_cons_cons, ih, List.flatMap_cons]
      simp only [List.append_assoc]

/-- The first text ends at the same place in both, whatever follows. -/
def EndsAlike (t t' : Str) : Prop :=
  ∀ r r', Delimited r → Delimited r' → t ++ r = t' ++ r' → t = t'

theorem delimited_flatMap (ts : List Str) : Delimited (ts.flatMap (lit ", " ++ ·)) := by
  rcases ts with _ | ⟨t, ts⟩
  · rintro c ⟨⟩
  · exact delimited_cons (Or.inl rfl)

theorem flatMap_inj {ts ts' : List Str} (h : ∀ t ∈ ts, ∀ t' ∈ ts', EndsAlike t t')
    (heq : ts.flatMap (lit ", " ++ ·) = ts'.flatMap (lit ", " ++ ·)) : ts = ts' := by
  induction ts generalizing ts' with
  | nil =>
      rcases ts' with _ | ⟨t', ts'⟩
      · rfl
      · cases heq
  | cons t ts ih =>
      rcases ts' with _ | ⟨t', ts'⟩
      · cases heq
      · rw [List.flatMap_cons, List.flatMap_cons, List.append_assoc, List.append_assoc] at heq
        have hfirst := List.append_cancel_left heq
        obtain rfl := h t List.mem_cons_self t' List.mem_cons_self _ _ (delimited_flatMap ts)
          (delimited_flatMap ts') hfirst
        have hrest := List.append_cancel_left hfirst
        rw [ih (fun u hu u' hu' => h u (List.mem_cons_of_mem _ hu) u' (List.mem_cons_of_mem _ hu'))
          hrest]

/-- The items between brackets are determined when each of them ends alike. -/
theorem bracket_inj {style : JsonStyle} (hindent : style.indent = false) {level : ℕ}
    {opening closing : Str} {ts ts' : List Str} (h : ∀ t ∈ ts, ∀ t' ∈ ts', EndsAlike t t')
    (hne : ∀ t ∈ ts, t ≠ []) (hne' : ∀ t ∈ ts', t ≠ [])
    (heq : bracket style level opening closing ts = bracket style level opening closing ts') :
    ts = ts' := by
  have hflat : ∀ items : List Str, bracket style level opening closing items
      = opening ++ (List.intercalate (lit ", ") items ++ closing) := by
    intro items
    cases items with
    | nil => rfl
    | cons t ts => simp [bracket, hindent]
  rw [hflat, hflat] at heq
  have hitems := List.append_cancel_right (List.append_cancel_left heq)
  rcases ts with _ | ⟨t, ts⟩
  · rcases ts' with _ | ⟨t', ts'⟩
    · rfl
    · rw [intercalate_cons] at hitems
      exact absurd (List.append_eq_nil_iff.mp hitems.symm).1 (hne' t' List.mem_cons_self)
  · rcases ts' with _ | ⟨t', ts'⟩
    · rw [intercalate_cons] at hitems
      exact absurd (List.append_eq_nil_iff.mp hitems).1 (hne t List.mem_cons_self)
    · rw [intercalate_cons, intercalate_cons] at hitems
      obtain rfl := h t List.mem_cons_self t' List.mem_cons_self _ _ (delimited_flatMap ts)
        (delimited_flatMap ts') hitems
      rw [flatMap_inj (fun u hu u' hu' => h u (List.mem_cons_of_mem _ hu) u'
        (List.mem_cons_of_mem _ hu')) (List.append_cancel_left hitems)]

section Read

variable [Runtime]

/-- A text that is read wherever it stands ends where its value does. -/
theorem Parses.endsAlike {t t' : Str} {v v' : PyVal} (h : Parses t v) (h' : Parses t' v') :
    EndsAlike t t' := by
  intro r r' hr hr' heq
  have hparse := h (t.length + t'.length + 1) r (by omega) hr
  have hparse' := h' (t.length + t'.length + 1) r' (by omega) hr'
  rw [heq, hparse', Except.ok.injEq, Prod.mk.injEq] at hparse
  rw [hparse.2] at heq
  exact List.append_cancel_right heq

theorem Parses.ne_nil {t : Str} {v : PyVal} (h : Parses t v) : t ≠ [] := by
  rintro rfl
  have hend : Delimited [] := by simp [Delimited]
  obtain ⟨c, s, heq, -⟩ := h.head hend
  cases heq

omit [Runtime] in
theorem quote_append (ascii : Bool) (s rest : Str) : quote ascii s ++ rest
    = ofChar '"' :: (s.flatMap (escapeChar ascii) ++ ofChar '"' :: rest) := by
  rw [quote, show lit "\"" = [ofChar '"'] by rfl]
  simp only [List.append_assoc, List.cons_append, List.nil_append]

omit [Runtime] in
/-- A quoted key ends where it is read to end. -/
theorem Quotes.append_inj {ascii : Bool} {s s' k k' rest rest' : Str} (h : Quotes ascii s k)
    (h' : Quotes ascii s' k') (heq : quote ascii s ++ rest = quote ascii s' ++ rest') :
    k = k' ∧ rest = rest' := by
  rw [quote_append, quote_append] at heq
  have hscan := h rest
  rw [(List.cons.inj heq).2, h' rest', Option.some.injEq, Prod.mk.injEq] at hscan
  exact ⟨hscan.1.symm, hscan.2.symm⟩

/-- The same for a member of an object, and its key is the same. -/
theorem MemberReads.endsAlike {ascii : Bool} {t t' : Str} {p p' : PyKey × PyVal}
    (h : MemberReads ascii t p) (h' : MemberReads ascii t' p') : EndsAlike t t' := by
  obtain ⟨key, k, value, -, rfl, hkey, hvalue⟩ := h
  obtain ⟨key', k', value', -, rfl, hkey', hvalue'⟩ := h'
  intro r r' hr hr' heq
  simp only [List.append_assoc] at heq
  obtain ⟨-, hrest⟩ := hkey.append_inj hkey' heq
  have hrest := List.append_cancel_left hrest
  obtain rfl := hvalue.endsAlike hvalue' r r' hr hr' hrest
  obtain rfl := List.append_cancel_left hrest
  simp only [← List.append_assoc] at heq
  exact List.append_cancel_right heq

theorem MemberReads.ne_nil {ascii : Bool} {t : Str} {p : PyKey × PyVal}
    (h : MemberReads ascii t p) : t ≠ [] := by
  obtain ⟨key, k, value, -, rfl, -, -⟩ := h
  rw [List.append_assoc, quote_append]
  exact List.cons_ne_nil _ _

end Read

/-! ## Objects with string keys -/

/-- The entries under string keys. -/
def strEntries {α : Type} (l : List (Str × α)) : List (PyKey × α) :=
  l.map fun p => (.str p.1, p.2)

theorem map_strEntries {α β : Type} (f : α → β) (l : List (Str × α)) :
    (strEntries l).map (fun p => (p.1, f p.2)) = strEntries (l.map fun p => (p.1, f p.2)) := by
  simp only [strEntries, List.map_map, Function.comp_def]

/-- String keys are sorted as strings. -/
theorem sortByKey_strEntries {α : Type} (m : StrDict α) :
    sortByKey (strEntries m.entries) = strEntries m.sorted := by
  symm
  apply List.map_insertionSort
  intro p _ q _
  simp [PyKey.le]

/-- A dictionary with string keys is sorted by increasing keys. -/
theorem increasing_sorted {α : Type} (m : StrDict α) :
    (m.sorted.map Prod.fst).Pairwise (· < ·) := by
  have : Std.Total fun p q : Str × α => p.1 ≤ q.1 := ⟨fun p q => le_total p.1 q.1⟩
  have : IsTrans (Str × α) fun p q => p.1 ≤ q.1 := ⟨fun _ _ _ => le_trans⟩
  have hnodup : (m.sorted.map Prod.fst).Nodup :=
    ((List.perm_insertionSort _ m.entries).map Prod.fst).nodup_iff.mpr m.nodup
  have hle : (m.sorted.map Prod.fst).Pairwise (· ≤ ·) := List.pairwise_map.mpr
    (List.pairwise_insertionSort (fun p q : Str × α => p.1 ≤ q.1) m.entries)
  exact (hle.and hnodup).imp fun h => lt_of_le_of_ne h.1 h.2

/-- Entries with increasing keys are the sorted form of their permutations. -/
theorem sorted_of_increasing {α : Type} {m : StrDict α} {l : List (Str × α)}
    (hperm : m.entries.Perm l) (h : (l.map Prod.fst).Pairwise (· < ·)) : m.sorted = l := by
  have hlt : l.Pairwise fun p q => p.1 < q.1 := List.pairwise_map.mp h
  have hsorted : m.sorted.Pairwise fun p q => p.1 < q.1 :=
    List.pairwise_map.mp (increasing_sorted m)
  refine List.Perm.eq_of_pairwise ?_ hsorted hlt
    ((List.perm_insertionSort _ m.entries).trans hperm)
  intro p q _ _ hpq hqp
  exact absurd hqp (lt_asymm hpq)

/-- `m.update(l)`. -/
def StrDict.update {α : Type} (m : StrDict α) (l : List (Str × α)) : StrDict α :=
  l.foldl (fun m p => m.set p.1 p.2) m

theorem StrDict.update_cons {α : Type} (m : StrDict α) (p : Str × α) (l : List (Str × α)) :
    m.update (p :: l) = (m.set p.1 p.2).update l := rfl

theorem update_strEntries (m : StrDict PyVal) (l : List (Str × PyVal)) :
    Dict.update (strEntries m.entries) (strEntries l) = strEntries (m.update l).entries := by
  have hset : ∀ (e : List (Str × PyVal)) (k : Str) (v : PyVal),
      Dict.setKey (strEntries e) (.str k) v = strEntries (StrDict.setEntries k v e) := by
    intro e k v
    induction e with
    | nil => rfl
    | cons p e ih =>
        obtain ⟨k', v'⟩ := p
        have hcons : strEntries ((k', v') :: e) = (.str k', v') :: strEntries e := rfl
        rw [hcons, Dict.setKey, StrDict.setEntries, ih]
        by_cases hk : k' = k
        · rw [if_pos hk, if_pos (congrArg PyKey.str hk)]
          rfl
        · rw [if_neg hk, if_neg (fun h => hk (PyKey.str.inj h))]
          rfl
  induction l generalizing m with
  | nil => rfl
  | cons p l ih =>
      rw [StrDict.update_cons, ← ih]
      exact congrArg (fun d => Dict.update d (strEntries l)) (hset m.entries p.1 p.2)

theorem mem_update {α : Type} {m : StrDict α} {l : List (Str × α)} {p : Str × α}
    (h : p ∈ (m.update l).entries) : p ∈ m.entries ∨ p ∈ l := by
  have hset : ∀ (e : List (Str × α)) (k : Str) (v : α), ∀ q ∈ StrDict.setEntries k v e,
      q ∈ e ∨ q = (k, v) := by
    intro e k v q hq
    induction e with
    | nil => exact Or.inr (List.mem_singleton.mp hq)
    | cons p e ih =>
        rw [StrDict.setEntries] at hq
        split at hq
        · rename_i hk
          rcases List.mem_cons.mp hq with rfl | hq
          · exact Or.inr (by rw [hk])
          · exact Or.inl (List.mem_cons_of_mem _ hq)
        · rcases List.mem_cons.mp hq with rfl | hq
          · exact Or.inl List.mem_cons_self
          · rcases ih hq with hq | hq
            · exact Or.inl (List.mem_cons_of_mem _ hq)
            · exact Or.inr hq
  induction l generalizing m with
  | nil => exact Or.inl h
  | cons q l ih =>
      rw [StrDict.update_cons] at h
      rcases ih h with h | h
      · rcases hset m.entries q.1 q.2 p h with h | rfl
        · exact Or.inl h
        · exact Or.inr List.mem_cons_self
      · exact Or.inr (List.mem_cons_of_mem _ h)

/-- New keys that all differ are added at the end. -/
theorem update_of_nodup {α : Type} {m : StrDict α} {l : List (Str × α)}
    (h : ((m.entries ++ l).map Prod.fst).Nodup) : (m.update l).entries = m.entries ++ l := by
  induction l generalizing m with
  | nil => exact (List.append_nil _).symm
  | cons p l ih =>
      have hp : p.1 ∉ m.entries.map Prod.fst := by
        rw [List.map_append, List.map_cons] at h
        intro hmem
        exact (List.nodup_append.mp h).2.2 _ hmem _ List.mem_cons_self rfl
      have hset : (m.set p.1 p.2).entries = m.entries ++ [p] := StrDict.setEntries_of_not_mem hp
      have happend : m.entries ++ p :: l = m.entries ++ [p] ++ l := by simp
      rw [StrDict.update_cons, happend, ← hset]
      apply ih
      rw [hset, ← happend]
      exact h

section Stable

variable [Runtime]

/-- The key under which an entry is read back. -/
def rereadKey (ascii : Bool) (k : PyKey) : Str := rereadStr ascii (keyString k)

/-- Every member of an object is read under a string key. -/
theorem members_eq_strEntries (style : JsonStyle) (d : Dict) : members style (rereadDict style d)
    = strEntries ((if style.sortKeys then sortByKey d else d).map fun p =>
        (rereadKey style.ensureAscii p.1, reread style p.2)) := by
  rw [members, rereadDict_eq_map, strEntries, List.map_map]
  cases style.sortKeys with
  | true =>
      rw [if_pos rfl, if_pos rfl, sortByKey_map, List.map_map]
      rfl
  | false =>
      rw [if_neg (by decide), if_neg (by decide), List.map_map]
      rfl

/-- The dictionary that is read. -/
def rereadEntries (style : JsonStyle) (d : Dict) : StrDict PyVal :=
  StrDict.empty.update ((if style.sortKeys then sortByKey d else d).map fun p =>
    (rereadKey style.ensureAscii p.1, reread style p.2))

theorem reread_dict (style : JsonStyle) (d : Dict) :
    reread style (.dict d) = .dict (strEntries (rereadEntries style d).entries) := by
  rw [reread, members_eq_strEntries, rereadEntries, ← update_strEntries]
  rfl

theorem mem_rereadEntries {style : JsonStyle} {d : Dict} {q : Str × PyVal}
    (h : q ∈ (rereadEntries style d).entries) :
    ∃ p ∈ d, q = (rereadKey style.ensureAscii p.1, reread style p.2) := by
  have hperm : (if style.sortKeys then sortByKey d else d).Perm d := by
    split
    · exact List.perm_insertionSort _ d
    · exact List.Perm.refl d
  rcases mem_update h with h | h
  · cases h
  · obtain ⟨p, hp, rfl⟩ := List.mem_map.mp h
    exact ⟨p, hperm.mem_iff.mp hp, rfl⟩

/-! ## Floats read again -/

theorem floatsReadList_iff {xs : List PyVal} : FloatsReadList xs ↔ ∀ x ∈ xs, FloatsRead x := by
  induction xs with
  | nil => simp [FloatsReadList]
  | cons x xs ih => rw [FloatsReadList, ih, List.forall_mem_cons]

theorem floatsReadDict_iff {d : Dict} : FloatsReadDict d ↔ ∀ p ∈ d, FloatsRead p.2 := by
  induction d with
  | nil => simp [FloatsReadDict]
  | cons p d ih =>
      obtain ⟨k, v⟩ := p
      rw [FloatsReadDict, ih, List.forall_mem_cons]

mutual

theorem floatsRead_reread (style : JsonStyle) : ∀ v : PyVal, FloatsRead v →
    FloatsRead (reread style v)
  | .none, h => h
  | .bool _, h => h
  | .int _, h => h
  | .float _, h => h
  | .str _, _ => trivial
  | .list xs, h => floatsRead_rereadList style xs h
  | .tuple xs, h => floatsRead_rereadList style xs h
  | .dict d, h => by
      rw [reread_dict, FloatsRead, floatsReadDict_iff]
      intro q hq
      obtain ⟨r, hr, rfl⟩ := List.mem_map.mp hq
      obtain ⟨p, hp, rfl⟩ := mem_rereadEntries hr
      exact floatsRead_rereadDict style d h p hp
  | .object _ _, h => h

theorem floatsRead_rereadList (style : JsonStyle) : ∀ xs : List PyVal, FloatsReadList xs →
    FloatsReadList (rereadList style xs)
  | [], h => h
  | x :: xs, h => ⟨floatsRead_reread style x h.1, floatsRead_rereadList style xs h.2⟩

theorem floatsRead_rereadDict (style : JsonStyle) : ∀ d : List (PyKey × PyVal), FloatsReadDict d →
    ∀ p ∈ d, FloatsRead (reread style p.2)
  | [], _, p, hp => by cases hp
  | (k, v) :: rest, h, p, hp => by
      rcases List.mem_cons.mp hp with rfl | hp
      · exact floatsRead_reread style v h.1
      · exact floatsRead_rereadDict style rest h.2 p hp

end

/-! ## Strings written again -/

omit [Runtime] in
/-- A surrogate is escaped by its number. -/
theorem escapeChar_surrogate {n : ℕ} (h : 0xd800 ≤ n) (h' : n ≤ 0xdfff) :
    escapeChar true (codePoint n) = unicodeEscape n := by
  have hval : (codePoint n).val = n := Nat.mod_eq_of_lt (by omega)
  unfold escapeChar
  simp (disch := omega) only [hval, if_neg, Bool.not_true, Bool.or_false, decide_eq_true_eq, if_pos]

omit [Runtime] in
/-- Joined surrogates have the escapes they were joined from. -/
theorem flatMap_joinPairs (high : Option ℕ) (hhigh : ∀ n ∈ high, 0xd800 ≤ n ∧ n ≤ 0xdbff)
    (s : Str) : (joinPairs high s).flatMap (escapeChar true)
      = (flush high []).flatMap (escapeChar true) ++ s.flatMap (escapeChar true) := by
  have hflush : ∀ t : Str, (flush high t).flatMap (escapeChar true)
      = (flush high []).flatMap (escapeChar true) ++ t.flatMap (escapeChar true) := by
    intro t
    cases high with
    | none => rfl
    | some n => simp [flush]
  induction s generalizing high with
  | nil =>
      rw [joinPairs, List.flatMap_nil, List.append_nil]
  | cons c s ih =>
      rw [joinPairs, List.flatMap_cons]
      split
      · -- a high surrogate waits for what follows
        rename_i hc
        have hrest := ih (some c.val) (by rintro n ⟨⟩; exact hc) (fun t => by simp [flush])
        rw [hflush, hrest]
        simp [flush]
      · have hrest := ih none (by rintro n ⟨⟩) (fun t => rfl)
        rw [flush, List.flatMap_nil, List.nil_append] at hrest
        by_cases hlow : 0xdc00 ≤ c.val ∧ c.val ≤ 0xdfff
        · cases high with
          | none => rw [joinSurrogates, codePoint_val, List.flatMap_cons, hrest, flush]; rfl
          | some n =>
              -- the pair is one character, escaped as the two were
              obtain ⟨hn, hn'⟩ := hhigh n rfl
              have hval : (codePoint (0x10000 + 0x400 * (n - 0xd800) + (c.val - 0xdc00))).val
                  = 0x10000 + 0x400 * (n - 0xd800) + (c.val - 0xdc00) :=
                Nat.mod_eq_of_lt (by omega)
              have hpair : escapeChar true
                    (codePoint (0x10000 + 0x400 * (n - 0xd800) + (c.val - 0xdc00)))
                  = unicodeEscape n ++ unicodeEscape c.val := by
                have hfirst : 0xd800 + (0x10000 + 0x400 * (n - 0xd800) + (c.val - 0xdc00) - 0x10000)
                    / 0x400 = n := by omega
                have hsecond : 0xdc00 + (0x10000 + 0x400 * (n - 0xd800) + (c.val - 0xdc00) - 0x10000)
                    % 0x400 = c.val := by omega
                unfold escapeChar
                simp (disch := omega) only [hval, if_neg, Bool.not_true, Bool.or_false,
                  decide_eq_true_eq]
                rw [hfirst, hsecond]
              have hc : escapeChar true c = unicodeEscape c.val := by
                have h := escapeChar_surrogate (n := c.val) (by omega) (by omega)
                rwa [codePoint_val] at h
              rw [joinSurrogates, if_pos hlow, List.flatMap_cons, hrest, hpair, flush,
                List.flatMap_cons, List.flatMap_nil, List.append_nil,
                escapeChar_surrogate hn (by omega), hc, List.append_assoc]
        · rw [joinSurrogates_of_not_low hlow, hflush, List.flatMap_cons, codePoint_val, hrest]

omit [Runtime] in
theorem quote_rereadStr (ascii : Bool) (s : Str) :
    quote ascii (rereadStr ascii s) = quote ascii s := by
  cases ascii with
  | false => rfl
  | true =>
      have h := flatMap_joinPairs none (by rintro n ⟨⟩) s
      rw [flush, List.flatMap_nil, List.nil_append] at h
      rw [quote, quote, rereadStr, if_pos rfl, h]

omit [Runtime] in
/-- What was read once is read the same again. -/
theorem rereadStr_idem (ascii : Bool) (s : Str) :
    rereadStr ascii (rereadStr ascii s) = rereadStr ascii s := by
  have h : quote ascii (rereadStr ascii s) ++ [] = quote ascii s ++ [] := by
    rw [quote_rereadStr]
  exact ((quotes_rereadStr ascii _).append_inj (quotes_rereadStr ascii s) h).1

/-! ## Objects written again -/

/-- The keys of an object, as they are sorted, are read as increasing strings. -/
def KeysIncrease (ascii : Bool) (d : Dict) : Prop :=
  ((sortByKey d).map fun p => rereadKey ascii p.1).Pairwise (· < ·)

instance (ascii : Bool) (d : Dict) : Decidable (KeysIncrease ascii d) :=
  inferInstanceAs (Decidable (List.Pairwise _ _))

mutual

/-- In every object of a value, the keys are read in the order they are sorted,
and no two are read as one. -/
def KeysStable (ascii : Bool) : PyVal → Prop
  | .list xs => KeysStableList ascii xs
  | .tuple xs => KeysStableList ascii xs
  | .dict d => KeysIncrease ascii d ∧ KeysStableDict ascii d
  | _ => True

def KeysStableList (ascii : Bool) : List PyVal → Prop
  | [] => True
  | x :: xs => KeysStable ascii x ∧ KeysStableList ascii xs

def KeysStableDict (ascii : Bool) : List (PyKey × PyVal) → Prop
  | [] => True
  | (_, v) :: rest => KeysStable ascii v ∧ KeysStableDict ascii rest

end

/-- The dictionary that is read, sorted, when its keys increase. -/
theorem sorted_rereadEntries {style : JsonStyle} {d : Dict}
    (h : KeysIncrease style.ensureAscii d) : (rereadEntries style d).sorted
      = (sortByKey d).map fun p => (rereadKey style.ensureAscii p.1, reread style p.2) := by
  have hperm : (if style.sortKeys then sortByKey d else d).Perm (sortByKey d) := by
    split
    · exact List.Perm.refl _
    · exact (List.perm_insertionSort _ d).symm
  have hkeys : (((sortByKey d).map fun p =>
      (rereadKey style.ensureAscii p.1, reread style p.2)).map Prod.fst).Pairwise (· < ·) := by
    rw [List.map_map]
    exact h
  have hnodup := (hkeys.imp fun h => ne_of_lt h : List.Nodup _)
  apply sorted_of_increasing _ hkeys
  have hentries : (rereadEntries style d).entries = (if style.sortKeys then sortByKey d else d).map
      fun p => (rereadKey style.ensureAscii p.1, reread style p.2) := by
    apply update_of_nodup
    exact ((hperm.map _).map Prod.fst).nodup_iff.mpr hnodup
  rw [hentries]
  exact hperm.map _

/-- How an object is written with sorted keys. -/
theorem dumpsAt_sorted {style : JsonStyle} (hsort : style.sortKeys = true) {level : ℕ} {d : Dict}
    {text : Str} : dumpsAt style level (.dict d) = .ok text ↔
      ∃ sorted, sortItems d = .ok sorted ∧ ∃ ts,
        (sorted.map fun p => (p.1, dumpsAt style (level + 1) p.2)).mapM
          (entryText style.ensureAscii) = .ok ts ∧
        text = bracket style level (lit "\x7b") (lit "\x7d") ts := by
  simp only [dumpsAt, hsort, if_true, bind_eq_ok, pure_eq, Except.ok.injEq, dumpsDict_eq_map,
    sortItems_map_eq_ok]
  constructor
  · rintro ⟨_, ⟨sorted, hsorted, rfl⟩, ts, hts, rfl⟩
    exact ⟨sorted, hsorted, ts, hts, rfl⟩
  · rintro ⟨sorted, hsorted, ts, hts, rfl⟩
    exact ⟨_, ⟨sorted, hsorted, rfl⟩, ts, hts, rfl⟩

/-- How an object with string keys is written. -/
theorem dumpsAt_strEntries {style : JsonStyle} (hsort : style.sortKeys = true) {level : ℕ}
    {m : StrDict PyVal} {text : Str} :
    dumpsAt style level (.dict (strEntries m.entries)) = .ok text ↔ ∃ ts,
      ((strEntries m.sorted).map fun p => (p.1, dumpsAt style (level + 1) p.2)).mapM
        (entryText style.ensureAscii) = .ok ts ∧
      text = bracket style level (lit "\x7b") (lit "\x7d") ts := by
  obtain ⟨sorted, hsorted⟩ : ∃ sorted, sortItems (strEntries m.entries) = .ok sorted := by
    apply sortItems_of_str
    intro p hp
    obtain ⟨q, -, rfl⟩ := List.mem_map.mp hp
    exact ⟨q.1, rfl⟩
  have heq : sorted = strEntries m.sorted := by
    rw [sortByKey_of_sortItems hsorted, sortByKey_strEntries]
  rw [dumpsAt_sorted hsort, hsorted]
  constructor
  · rintro ⟨_, h, hts⟩
    rwa [← Except.ok.inj h, heq] at hts
  · intro hts
    exact ⟨sorted, rfl, heq ▸ hts⟩

/-- The items of entries with the same texts under keys read again. -/
theorem entries_reread {style style' : JsonStyle} (hascii : style'.ensureAscii = style.ensureAscii)
    {level : ℕ} {e : Dict} {ts : List Str}
    (hvalues : ∀ p ∈ e, ∀ text, dumpsAt style level p.2 = .ok text →
      dumpsAt style level (reread style' p.2) = .ok text)
    (h : (e.map fun p => (p.1, dumpsAt style level p.2)).mapM (entryText style.ensureAscii)
      = .ok ts) :
    ((strEntries (e.map fun p => (rereadKey style'.ensureAscii p.1, reread style' p.2))).map
      fun p => (p.1, dumpsAt style level p.2)).mapM (entryText style.ensureAscii) = .ok ts := by
  induction e generalizing ts with
  | nil => exact h
  | cons p e ih =>
      simp only [List.map_cons, List.mapM_cons, entryText, bind_eq_ok, pure_eq,
        Except.ok.injEq] at h
      obtain ⟨_, ⟨key, hkey, value, hvalue, rfl⟩, us, hus, rfl⟩ := h
      have hrest := ih (fun q hq => hvalues q (List.mem_cons_of_mem p hq)) hus
      have hstring : keyString p.1 = key := by rw [keyString, hkey]; rfl
      have hentry : entryText style.ensureAscii (.str (rereadKey style'.ensureAscii p.1),
          dumpsAt style level (reread style' p.2))
            = .ok (quote style.ensureAscii key ++ lit ": " ++ value) := by
        rw [entryText, hvalues p List.mem_cons_self value hvalue, keyText, rereadKey, hascii, hstring]
        simp only [ok_bind, pure_eq, quote_rereadStr]
      rw [strEntries, List.map_cons, List.map_cons, List.map_cons, List.mapM_cons, hentry, ok_bind]
      rw [strEntries] at hrest
      rw [hrest]
      rfl

mutual

/-- When the keys are stable, what is written of a value is written of the value
that is read. -/
theorem dumps_reread_of_stable {style style' : JsonStyle} (hsort : style.sortKeys = true)
    (hascii : style'.ensureAscii = style.ensureAscii) : ∀ (v : PyVal) {level : ℕ} {text : Str},
      KeysStable style.ensureAscii v → dumpsAt style level v = .ok text →
        dumpsAt style level (reread style' v) = .ok text
  | .none, _, _, _, h => h
  | .bool _, _, _, _, h => h
  | .int _, _, _, _, h => h
  | .float _, _, _, _, h => h
  | .str s, _, _, _, h => by
      rw [reread, dumpsAt, hascii, quote_rereadStr]
      exact h
  | .list xs, level, _, hv, h => by
      simp only [dumpsAt, bind_eq_ok, pure_eq, Except.ok.injEq] at h
      obtain ⟨ts, hts, rfl⟩ := h
      rw [reread, dumpsAt, dumps_reread_of_stableList hsort hascii xs hv hts]
      rfl
  | .tuple xs, level, _, hv, h => by
      simp only [dumpsAt, bind_eq_ok, pure_eq, Except.ok.injEq] at h
      obtain ⟨ts, hts, rfl⟩ := h
      rw [reread, dumpsAt, dumps_reread_of_stableList hsort hascii xs hv hts]
      rfl
  | .dict d, level, _, hv, h => by
      obtain ⟨sorted, hsorted, ts, hts, rfl⟩ := (dumpsAt_sorted hsort).mp h
      have hmem : ∀ p, p ∈ d ↔ p ∈ sorted := fun p => (perm_of_sortItems hsorted).mem_iff
      obtain rfl := sortByKey_of_sortItems hsorted
      have hkeys : KeysIncrease style'.ensureAscii d := by
        rw [hascii]
        exact hv.1
      rw [reread_dict, dumpsAt_strEntries hsort]
      refine ⟨ts, ?_, rfl⟩
      rw [sorted_rereadEntries hkeys]
      refine entries_reread hascii ?_ hts
      intro p hp value hvalue
      exact dumps_reread_of_stableDict hsort hascii d hv.2 p ((hmem p).mpr hp) value hvalue
  | .object _ _, _, _, _, h => h

theorem dumps_reread_of_stableList {style style' : JsonStyle} (hsort : style.sortKeys = true)
    (hascii : style'.ensureAscii = style.ensureAscii) : ∀ (xs : List PyVal) {level : ℕ}
      {ts : List Str}, KeysStableList style.ensureAscii xs → dumpsList style level xs = .ok ts →
        dumpsList style level (rereadList style' xs) = .ok ts
  | [], _, _, _, h => h
  | x :: xs, level, _, hv, h => by
      simp only [dumpsList, bind_eq_ok, pure_eq, Except.ok.injEq] at h
      obtain ⟨t, ht, ts, hts, rfl⟩ := h
      rw [rereadList, dumpsList, dumps_reread_of_stable hsort hascii x hv.1 ht, ok_bind,
        dumps_reread_of_stableList hsort hascii xs hv.2 hts]
      rfl

theorem dumps_reread_of_stableDict {style style' : JsonStyle} (hsort : style.sortKeys = true)
    (hascii : style'.ensureAscii = style.ensureAscii) : ∀ (d : List (PyKey × PyVal)) {level : ℕ},
      KeysStableDict style.ensureAscii d → ∀ p ∈ d, ∀ text, dumpsAt style level p.2 = .ok text →
        dumpsAt style level (reread style' p.2) = .ok text
  | [], _, _, p, hp => by cases hp
  | (k, v) :: rest, _, hv, p, hp => by
      intro text htext
      rcases List.mem_cons.mp hp with rfl | hp
      · exact dumps_reread_of_stable hsort hascii v hv.1 htext
      · exact dumps_reread_of_stableDict hsort hascii rest hv.2 p hp text htext

end

/-! ## When the text stays the same -/

omit [Runtime] in
theorem exists_of_forall₂ {α β : Type} {R : α → β → Prop} {as : List α} {bs : List β}
    (h : List.Forall₂ R as bs) : ∀ a ∈ as, ∃ b, R a b := by
  induction h with
  | nil => simp
  | cons hab _ ih => exact List.forall_mem_cons.mpr ⟨⟨_, hab⟩, ih⟩

/-- The items of two sequences with one text. -/
theorem items_eq {style : JsonStyle} (hindent : style.indent = false) {level : ℕ}
    {opening closing : Str} {ts ts' : List Str} {xs xs' : List PyVal}
    (h : List.Forall₂ Parses ts xs) (h' : List.Forall₂ Parses ts' xs')
    (heq : bracket style level opening closing ts = bracket style level opening closing ts') :
    ts = ts' := by
  apply bracket_inj hindent _ _ _ heq
  · intro t ht t' ht'
    obtain ⟨v, hv⟩ := exists_of_forall₂ h t ht
    obtain ⟨v', hv'⟩ := exists_of_forall₂ h' t' ht'
    exact hv.endsAlike hv'
  · intro t ht
    obtain ⟨v, hv⟩ := exists_of_forall₂ h t ht
    exact hv.ne_nil
  · intro t ht
    obtain ⟨v, hv⟩ := exists_of_forall₂ h' t ht
    exact hv.ne_nil

/-- The members of two objects with one text. -/
theorem members_eq {style : JsonStyle} (hindent : style.indent = false) {level : ℕ} {ascii : Bool}
    {opening closing : Str} {ts ts' : List Str} {d d' : Dict}
    (h : List.Forall₂ (MemberReads ascii) ts d) (h' : List.Forall₂ (MemberReads ascii) ts' d')
    (heq : bracket style level opening closing ts = bracket style level opening closing ts') :
    ts = ts' := by
  apply bracket_inj hindent _ _ _ heq
  · intro t ht t' ht'
    obtain ⟨p, hp⟩ := exists_of_forall₂ h t ht
    obtain ⟨p', hp'⟩ := exists_of_forall₂ h' t' ht'
    exact hp.endsAlike hp'
  · intro t ht
    obtain ⟨p, hp⟩ := exists_of_forall₂ h t ht
    exact hp.ne_nil
  · intro t ht
    obtain ⟨p, hp⟩ := exists_of_forall₂ h' t ht
    exact hp.ne_nil

/-- One text of a member has one key. -/
theorem MemberReads.key_eq {ascii : Bool} {t : Str} {p p' : PyKey × PyVal}
    (h : MemberReads ascii t p) (h' : MemberReads ascii t p') : p.1 = p'.1 := by
  obtain ⟨key, k, value, hp, htext, hkey, -⟩ := h
  obtain ⟨key', k', value', hp', htext', hkey', -⟩ := h'
  rw [htext, List.append_assoc, List.append_assoc] at htext'
  rw [hp, hp', (hkey.append_inj hkey' htext').1]

theorem keys_eq_of_reads {ascii : Bool} {ts : List Str} {d d' : Dict}
    (h : List.Forall₂ (MemberReads ascii) ts d) (h' : List.Forall₂ (MemberReads ascii) ts d') :
    d.map Prod.fst = d'.map Prod.fst := by
  induction h generalizing d' with
  | nil =>
      cases h'
      rfl
  | cons hp _ ih =>
      cases h' with
      | cons hp' hrest' => rw [List.map_cons, List.map_cons, hp.key_eq hp', ih hrest']

/-- Entries with the same items under keys read again have values with the same
text. -/
theorem values_of_entries {style style' : JsonStyle} (hascii : style'.ensureAscii = style.ensureAscii)
    {level : ℕ} {e : Dict} {ts : List Str}
    (h : (e.map fun p => (p.1, dumpsAt style level p.2)).mapM (entryText style.ensureAscii)
      = .ok ts)
    (h' : ((strEntries (e.map fun p => (rereadKey style'.ensureAscii p.1, reread style' p.2))).map
      fun p => (p.1, dumpsAt style level p.2)).mapM (entryText style.ensureAscii) = .ok ts) :
    ∀ p ∈ e, ∃ text, dumpsAt style level p.2 = .ok text ∧
      dumpsAt style level (reread style' p.2) = .ok text := by
  induction e generalizing ts with
  | nil => simp
  | cons p e ih =>
      simp only [List.map_cons, List.mapM_cons, entryText, bind_eq_ok, pure_eq, Except.ok.injEq] at h
      simp only [strEntries, List.map_cons, List.mapM_cons, entryText, keyText, ok_bind, bind_eq_ok,
        pure_eq, Except.ok.injEq] at h'
      obtain ⟨_, ⟨key, hkey, value, hvalue, rfl⟩, us, hus, rfl⟩ := h
      obtain ⟨_, ⟨value', hvalue', rfl⟩, us', hus', heq⟩ := h'
      obtain ⟨htext, rfl⟩ := List.cons.inj heq
      have hstring : keyString p.1 = key := by rw [keyString, hkey]; rfl
      rw [rereadKey, hascii, hstring, quote_rereadStr] at htext
      obtain rfl := List.append_cancel_left htext
      exact List.forall_mem_cons.mpr ⟨⟨value', hvalue, hvalue'⟩, ih hus hus'⟩

mutual

/-- When what is written of a value is written of the value that is read, the
keys are stable. -/
theorem stable_of_dumps_reread {style style' : JsonStyle} (hsort : style.sortKeys = true)
    (hindent : style.indent = false) (hascii : style'.ensureAscii = style.ensureAscii) :
    ∀ (v : PyVal) {level : ℕ} {text : Str}, FloatsRead v → dumpsAt style level v = .ok text →
      dumpsAt style level (reread style' v) = .ok text → KeysStable style.ensureAscii v
  | .none, _, _, _, _, _ => trivial
  | .bool _, _, _, _, _, _ => trivial
  | .int _, _, _, _, _, _ => trivial
  | .float _, _, _, _, _, _ => trivial
  | .str _, _, _, _, _, _ => trivial
  | .list xs, _, _, hv, h, h' => by
      simp only [reread, dumpsAt, bind_eq_ok, pure_eq, Except.ok.injEq] at h h'
      obtain ⟨ts, hts, rfl⟩ := h
      obtain ⟨ts', hts', heq⟩ := h'
      have hreads := parses_rereadList style xs hv hts
      have hreads' := parses_rereadList style (rereadList style' xs)
        (floatsRead_rereadList style' xs hv) hts'
      obtain rfl := items_eq hindent hreads' hreads heq
      exact stable_of_dumps_rereadList hsort hindent hascii xs hv hts hts'
  | .tuple xs, _, _, hv, h, h' => by
      simp only [reread, dumpsAt, bind_eq_ok, pure_eq, Except.ok.injEq] at h h'
      obtain ⟨ts, hts, rfl⟩ := h
      obtain ⟨ts', hts', heq⟩ := h'
      have hreads := parses_rereadList style xs hv hts
      have hreads' := parses_rereadList style (rereadList style' xs)
        (floatsRead_rereadList style' xs hv) hts'
      obtain rfl := items_eq hindent hreads' hreads heq
      exact stable_of_dumps_rereadList hsort hindent hascii xs hv hts hts'
  | .dict d, level, _, hv, h, h' => by
      have hfloats := floatsRead_reread style' (.dict d) hv
      rw [reread_dict] at h' hfloats
      obtain ⟨sorted, hsorted, ts, hts, rfl⟩ := (dumpsAt_sorted hsort).mp h
      obtain ⟨ts', hts', heq⟩ := (dumpsAt_strEntries hsort).mp h'
      have hmem : ∀ p, p ∈ d ↔ p ∈ sorted := fun p => (perm_of_sortItems hsorted).mem_iff
      have hreads := reads_members
        (fun p hp => parses_rereadDict style d hv p ((hmem p).mpr hp)) hts
      have hentry : ∀ p ∈ strEntries (rereadEntries style' d).sorted,
          p ∈ strEntries (rereadEntries style' d).entries := by
        intro p hp
        obtain ⟨q, hq, rfl⟩ := List.mem_map.mp hp
        exact List.mem_map.mpr ⟨q, (List.perm_insertionSort _ _).mem_iff.mp hq, rfl⟩
      have hreads' := reads_members
        (fun p hp => parses_rereadDict style _ hfloats p (hentry p hp)) hts'
      obtain rfl := members_eq hindent hreads hreads' heq
      obtain rfl := sortByKey_of_sortItems hsorted
      -- the keys that are read are those of the sorted dictionary
      have hkeys : ((sortByKey d).map fun p => rereadKey style.ensureAscii p.1)
          = (rereadEntries style' d).sorted.map Prod.fst := by
        have hread := keys_eq_of_reads hreads hreads'
        have hfixed : ∀ q ∈ (rereadEntries style' d).sorted,
            rereadKey style.ensureAscii (.str q.1) = q.1 := by
          intro q hq
          obtain ⟨p, -, rfl⟩ := mem_rereadEntries ((List.perm_insertionSort _ _).mem_iff.mp hq)
          rw [rereadKey, rereadKey, hascii]
          exact rereadStr_idem _ _
        rw [strEntries, List.map_map, List.map_map, List.map_map] at hread
        apply List.map_injective_iff.mpr (fun _ _ => PyKey.str.inj)
        rw [List.map_map, List.map_map]
        refine hread.trans (List.map_congr_left fun q hq => ?_)
        exact congrArg PyKey.str (hfixed q hq)
      have hincrease : KeysIncrease style.ensureAscii d := by
        rw [KeysIncrease, hkeys]
        exact increasing_sorted _
      rw [sorted_rereadEntries (hascii ▸ hincrease)] at hts'
      have hvalues := values_of_entries hascii hts hts'
      exact ⟨hincrease, stable_of_dumps_rereadDict hsort hindent hascii d hv
        fun p hp => hvalues p ((hmem p).mp hp)⟩
  | .object _ _, _, _, _, h, _ => by cases h

theorem stable_of_dumps_rereadList {style style' : JsonStyle} (hsort : style.sortKeys = true)
    (hindent : style.indent = false) (hascii : style'.ensureAscii = style.ensureAscii) :
    ∀ (xs : List PyVal) {level : ℕ} {ts : List Str}, FloatsReadList xs →
      dumpsList style level xs = .ok ts → dumpsList style level (rereadList style' xs) = .ok ts →
        KeysStableList style.ensureAscii xs
  | [], _, _, _, _, _ => trivial
  | x :: xs, _, _, hv, h, h' => by
      simp only [rereadList, dumpsList, bind_eq_ok, pure_eq, Except.ok.injEq] at h h'
      obtain ⟨t, ht, ts, hts, rfl⟩ := h
      obtain ⟨t', ht', ts', hts', heq⟩ := h'
      obtain ⟨rfl, rfl⟩ := List.cons.inj heq
      exact ⟨stable_of_dumps_reread hsort hindent hascii x hv.1 ht ht',
        stable_of_dumps_rereadList hsort hindent hascii xs hv.2 hts hts'⟩

theorem stable_of_dumps_rereadDict {style style' : JsonStyle} (hsort : style.sortKeys = true)
    (hindent : style.indent = false) (hascii : style'.ensureAscii = style.ensureAscii) :
    ∀ (d : List (PyKey × PyVal)) {level : ℕ}, FloatsReadDict d →
      (∀ p ∈ d, ∃ text, dumpsAt style level p.2 = .ok text ∧
        dumpsAt style level (reread style' p.2) = .ok text) → KeysStableDict style.ensureAscii d
  | [], _, _, _ => trivial
  | (k, v) :: rest, _, hv, h => by
      obtain ⟨⟨text, ht, ht'⟩, hrest⟩ := List.forall_mem_cons.mp h
      exact ⟨stable_of_dumps_reread hsort hindent hascii v hv.1 ht ht',
        stable_of_dumps_rereadDict hsort hindent hascii rest hv.2 hrest⟩

end

/-- The sorted text of a value is that of the value that is read exactly when its
keys are stable. -/
theorem dumps_reread_iff {style style' : JsonStyle} (hsort : style.sortKeys = true)
    (hindent : style.indent = false) (hascii : style'.ensureAscii = style.ensureAscii) {v : PyVal}
    (hv : FloatsRead v) {text : Str} (h : dumps style v = .ok text) :
    dumps style (reread style' v) = .ok text ↔ KeysStable style.ensureAscii v :=
  ⟨stable_of_dumps_reread hsort hindent hascii v hv h,
    fun hstable => dumps_reread_of_stable hsort hascii v hstable h⟩

end Stable

end EasyBlockchain.Py
