/-
What `json.loads` returns, whatever the text.

Its dictionaries have string keys that all differ and its sequences are lists.
On such values writing with sorted keys in UTF-8 and reading again only orders
the keys, so two of them with one text are the same up to that order.
-/
import EasyBlockchain.Py.JsonFields

set_option autoImplicit false

namespace EasyBlockchain.Py

open PyVal

/-! ## The values of a parser -/

/-- A parser that only returns values with a property. -/
def Yields {α : Type} (P : α → Prop) (x : PyM (α × Str)) : Prop := ∀ p, x = .ok p → P p.1

section Yields

variable {α β : Type} {P : α → Prop} {Q : β → Prop}

theorem yields_ok {a : α} (h : P a) (rest : Str) : Yields P (.ok (a, rest)) := by
  intro p hp
  obtain rfl := Except.ok.inj hp
  exact h

theorem yields_error (e : PyErr) : Yields P (.error e) := fun _ h => by cases h

theorem yields_bind {x : PyM (α × Str)} {f : α × Str → PyM (β × Str)} (hx : Yields P x)
    (hf : ∀ p, P p.1 → Yields Q (f p)) : Yields Q (x >>= f) := by
  intro q hq
  obtain ⟨p, hp, hfp⟩ := bind_eq_ok.mp hq
  exact hf p (hx p hp) q hfp

theorem yields_ite {c : Prop} [Decidable c] {x y : PyM (α × Str)} (hx : Yields P x)
    (hy : Yields P y) : Yields P (if c then x else y) := by
  split
  · exact hx
  · exact hy

theorem yields_any (x : PyM (α × Str)) : Yields (fun _ => True) x := fun _ _ => trivial

end Yields

/-- A value of JSON. -/
def JsonValue (v : PyVal) : Prop := v.isJson = true

/-- The elements of an array. -/
def JsonElements (xs : List PyVal) : Prop := isJsonList xs = true

theorem jsonElements_nil : JsonElements [] := rfl

/-- String keys over JSON values; a parser may meet one key twice. -/
def JsonMembers (d : Dict) : Prop := ∀ p ∈ d, (∃ k, p.1 = .str k) ∧ p.2.isJson = true

theorem jsonMembers_nil : JsonMembers [] := fun _ hp => by cases hp

theorem isJsonDict_iff {d : Dict} :
    isJsonDict d = true ↔ Object d ∧ ∀ p ∈ d, p.2.isJson = true := by
  induction d with
  | nil => simpa [isJsonDict] using (⟨by simp, List.nodup_nil⟩ : Object [])
  | cons q d ih =>
      obtain ⟨key, v⟩ := q
      have hfind : ∀ k, (Dict.find d k).isNone = true ↔ PyKey.str k ∉ d.map Prod.fst := by
        intro k
        rw [Option.isNone_iff_eq_none]
        refine ⟨not_mem_of_find_none, fun h => ?_⟩
        rcases hv : Dict.find d k with _ | w
        · rfl
        · exact absurd (List.mem_map_of_mem (mem_of_find hv)) h
      cases key with
      | str k =>
          simp only [isJsonDict, Bool.and_eq_true, hfind, ih, List.forall_mem_cons]
          constructor
          · rintro ⟨⟨hv, hk⟩, hd, hall⟩
            refine ⟨⟨List.forall_mem_cons.mpr ⟨⟨k, rfl⟩, hd.str⟩, ?_⟩, hv, hall⟩
            rw [List.map_cons, List.nodup_cons]
            exact ⟨hk, hd.nodup⟩
          · rintro ⟨hd, hv, hall⟩
            have hnodup := hd.nodup
            rw [List.map_cons, List.nodup_cons] at hnodup
            exact ⟨⟨hv, hnodup.1⟩, ⟨fun p hp => hd.str p (List.mem_cons_of_mem _ hp), hnodup.2⟩,
              hall⟩
      | _ =>
          refine ⟨fun h => by simp [isJsonDict] at h, fun h => ?_⟩
          obtain ⟨k, hk⟩ := h.1.str _ List.mem_cons_self
          cases hk

/-- A later member with the same key takes the place of the earlier one. -/
theorem isJsonDict_update {members : Dict} (h : JsonMembers members) :
    isJsonDict (Dict.update [] members) = true := by
  have hentries : ∃ l : List (Str × PyVal), members = strEntries l ∧ ∀ p ∈ l, p.2.isJson = true := by
    induction members with
    | nil => exact ⟨[], rfl, by simp⟩
    | cons p members ih =>
        obtain ⟨l, rfl, hl⟩ := ih fun q hq => h q (List.mem_cons_of_mem p hq)
        obtain ⟨⟨k, hk⟩, hv⟩ := h p List.mem_cons_self
        obtain ⟨key, v⟩ := p
        obtain rfl : key = .str k := hk
        exact ⟨(k, v) :: l, rfl, List.forall_mem_cons.mpr ⟨hv, hl⟩⟩
  obtain ⟨l, rfl, hl⟩ := hentries
  have hupdate : Dict.update [] (strEntries l) = strEntries ((StrDict.empty).update l).entries :=
    update_strEntries StrDict.empty l
  rw [hupdate, isJsonDict_iff]
  refine ⟨⟨?_, ?_⟩, ?_⟩
  · intro p hp
    obtain ⟨q, -, rfl⟩ := List.mem_map.mp hp
    exact ⟨q.1, rfl⟩
  · have hkeys : (strEntries ((StrDict.empty).update l).entries).map Prod.fst
        = (((StrDict.empty).update l).entries.map Prod.fst).map PyKey.str := by
      rw [strEntries, List.map_map, List.map_map]
      rfl
    rw [hkeys]
    exact ((StrDict.empty).update l).nodup.map fun _ _ h => PyKey.str.inj h
  · intro p hp
    obtain ⟨q, hq, rfl⟩ := List.mem_map.mp hp
    rcases mem_update hq with hq | hq
    · cases hq
    · exact hl q hq

theorem yields_value {v : PyVal} (h : v.isJson = true) (rest : Str) :
    Yields JsonValue (.ok (v, rest)) := by
  have hvalue : JsonValue v := h
  exact yields_ok hvalue rest

theorem yields_list {xs : List PyVal} (h : JsonElements xs) (rest : Str) :
    Yields JsonValue (.ok (.list xs, rest)) := by
  have hlist : JsonValue (.list xs) := h
  exact yields_ok hlist rest

theorem yields_dict {members : Dict} (h : JsonMembers members) (rest : Str) :
    Yields JsonValue (.ok (.dict (Dict.update [] members), rest)) := by
  have hdict : JsonValue (.dict (Dict.update [] members)) := isJsonDict_update h
  exact yields_ok hdict rest

theorem yields_elements {v : PyVal} (hv : JsonValue v) {xs : List PyVal} (h : JsonElements xs)
    (rest : Str) : Yields JsonElements (.ok (v :: xs, rest)) := by
  have hcons : JsonElements (v :: xs) := Bool.and_eq_true_iff.mpr ⟨hv, h⟩
  exact yields_ok hcons rest

theorem yields_members {key : Str} {v : PyVal} (hv : JsonValue v) {d : Dict} (h : JsonMembers d)
    (rest : Str) : Yields JsonMembers (.ok ((.str key, v) :: d, rest)) := by
  have hcons : JsonMembers ((.str key, v) :: d) := by
    intro p hp
    rcases List.mem_cons.mp hp with rfl | hp
    · exact ⟨⟨key, rfl⟩, hv⟩
    · exact h p hp
  exact yields_ok hcons rest

section Loads

variable [Runtime]

theorem isJson_scanUnsigned (negative : Bool) (s : Str) :
    Yields JsonValue (scanUnsigned negative s) := by
  unfold scanUnsigned
  dsimp only
  split
  · exact yields_error _
  · exact yields_ite (yields_ite (yields_value rfl _) (yields_error _)) (yields_value rfl _)

theorem isJson_scanScalar (s : Str) : Yields JsonValue (scanScalar s) := by
  unfold scanScalar
  split
  iterate 6 exact yields_value rfl _
  split
  · exact yields_ite (isJson_scanUnsigned _ _) (isJson_scanUnsigned _ _)
  · exact yields_error _

/-- The three parsers call each other with less fuel. -/
theorem isJson_parse (fuel : ℕ) :
    (∀ s, Yields JsonValue (parseValue fuel s)) ∧
      (∀ s, Yields JsonElements (parseElements fuel s)) ∧
      ∀ s, Yields JsonMembers (parseMembers fuel s) := by
  induction fuel with
  | zero =>
      refine ⟨?_, ?_, ?_⟩
      · intro s
        rw [parseValue]
        exact yields_error _
      · intro s
        rw [parseElements]
        exact yields_error _
      · intro s
        rw [parseMembers]
        exact yields_error _
  | succ fuel ih =>
      obtain ⟨hvalue, helements, hmembers⟩ := ih
      refine ⟨?_, ?_, ?_⟩
      · intro s
        cases s with
        | nil =>
            rw [parseValue]
            exact yields_error _
            simp
        | cons c rest =>
            rw [parseValue]
            refine yields_ite ?_ (yields_ite ?_ (yields_ite ?_ (isJson_scanScalar _)))
            · refine yields_bind (yields_any _) ?_
              rintro ⟨text, rest⟩ -
              exact yields_value rfl _
            · split
              · exact yields_error _
              · refine yields_ite (yields_value rfl _) (yields_bind (helements _) ?_)
                rintro ⟨xs, rest⟩ hxs
                exact yields_list hxs _
            · split
              · exact yields_error _
              · refine yields_ite (yields_value rfl _) (yields_bind (hmembers _) ?_)
                rintro ⟨d, rest⟩ hd
                exact yields_dict hd _
      · intro s
        rw [parseElements]
        refine yields_bind (hvalue s) ?_
        rintro ⟨v, rest⟩ hv
        dsimp only
        split
        · exact yields_error _
        · refine yields_ite (yields_elements hv jsonElements_nil _) (yields_ite ?_ (yields_error _))
          refine yields_bind (helements _) ?_
          rintro ⟨xs, rest⟩ hxs
          exact yields_elements hv hxs _
      · intro s
        cases s with
        | nil =>
            rw [parseMembers]
            exact yields_error _
            simp
        | cons c rest =>
            rw [parseMembers]
            refine yields_ite (yields_bind (yields_any _) ?_) (yields_error _)
            rintro ⟨key, rest⟩ -
            dsimp only
            split
            · exact yields_error _
            · refine yields_ite (yields_bind (hvalue _) ?_) (yields_error _)
              rintro ⟨v, rest⟩ hv
              dsimp only
              split
              · exact yields_error _
              · refine yields_ite (yields_members hv jsonMembers_nil _)
                  (yields_ite ?_ (yields_error _))
                refine yields_bind (hmembers _) ?_
                rintro ⟨d, rest⟩ hd
                exact yields_members hv hd _

/-- `json.loads` returns JSON values. -/
theorem isJson_loads {s : Str} {v : PyVal} (h : loads s = .ok v) : v.isJson = true := by
  unfold loads at h
  by_cases hmark : s.head? = some (codePoint 0xfeff)
  · rw [if_pos hmark] at h
    cases h
  · rw [if_neg hmark] at h
    obtain ⟨⟨w, rest⟩, hparse, hrest⟩ := bind_eq_ok.mp h
    have hw := (isJson_parse _).1 _ _ hparse
    dsimp only at hrest
    split at hrest
    · obtain rfl := Except.ok.inj hrest
      exact hw
    · cases hrest

/-! ## Sorted texts in UTF-8 -/

omit [Runtime] in
theorem canonDict_eq_map (d : Dict) : canonDict d = d.map fun p => (p.1, canon p.2) := by
  induction d with
  | nil => rfl
  | cons p d ih =>
      obtain ⟨k, v⟩ := p
      rw [canonDict, ih, List.map_cons]

/-- With sorted keys in UTF-8, an object is read with its own keys, in their order. -/
theorem Object.reread_eq {d : Dict} (h : Object d) {style : JsonStyle}
    (hsort : style.sortKeys = true) (hascii : style.ensureAscii = false) :
    reread style (.dict d) = .dict (rereadRecord style d) := by
  have hperm : (sortByKey d).Perm d := List.perm_insertionSort _ d
  have hkey : ∀ p ∈ sortByKey d, PyKey.str (rereadKey style.ensureAscii p.1) = p.1 := by
    intro p hp
    obtain ⟨k, hk⟩ := h.str p (hperm.mem_iff.mp hp)
    rw [hk, hascii]
    rfl
  set entries := (sortByKey d).map fun p =>
    (rereadKey style.ensureAscii p.1, reread style p.2) with hentries
  have hread : strEntries entries = rereadRecord style d := by
    rw [hentries, strEntries, List.map_map]
    apply List.map_congr_left
    intro p hp
    simp only [Function.comp_apply, hkey p hp]
  have hnodup : (entries.map Prod.fst).Nodup := by
    -- under the constructor of the keys, these are the sorted keys
    apply List.Nodup.of_map PyKey.str
    have hkeys : (entries.map Prod.fst).map PyKey.str = (sortByKey d).map Prod.fst := by
      rw [hentries, List.map_map, List.map_map]
      apply List.map_congr_left
      intro p hp
      exact hkey p hp
    rw [hkeys]
    exact (hperm.map Prod.fst).nodup_iff.mpr h.nodup
  rw [reread_dict, rereadEntries, hsort, if_pos rfl, ← hentries]
  have hupdate : (StrDict.empty.update entries).entries = entries := update_of_nodup hnodup
  rw [hupdate, hread]

mutual

/-- What is left of a JSON value written with sorted keys in UTF-8. -/
theorem reread_eq_canon {style : JsonStyle} (hsort : style.sortKeys = true)
    (hascii : style.ensureAscii = false) :
    ∀ v : PyVal, v.isJson = true → reread style v = canon v
  | .none, _ => rfl
  | .bool _, _ => rfl
  | .int _, _ => rfl
  | .float _, _ => rfl
  | .str s, _ => by
      rw [reread, hascii]
      rfl
  | .list xs, h => by
      rw [reread, canon, reread_eq_canonList hsort hascii xs h]
  | .tuple _, h => by cases h
  | .object _ _, h => by cases h
  | .dict d, h => by
      have hjson := isJsonDict_iff.mp h
      have hvalues := reread_eq_canonDict hsort hascii d h
      rw [hjson.1.reread_eq hsort hascii, canon, canonDict_eq_map, ← hvalues, sortByKey_map]
      rfl

theorem reread_eq_canonList {style : JsonStyle} (hsort : style.sortKeys = true)
    (hascii : style.ensureAscii = false) :
    ∀ xs : List PyVal, isJsonList xs = true → rereadList style xs = canonList xs
  | [], _ => rfl
  | x :: xs, h => by
      rw [isJsonList, Bool.and_eq_true] at h
      rw [rereadList, canonList, reread_eq_canon hsort hascii x h.1,
        reread_eq_canonList hsort hascii xs h.2]

theorem reread_eq_canonDict {style : JsonStyle} (hsort : style.sortKeys = true)
    (hascii : style.ensureAscii = false) :
    ∀ d : List (PyKey × PyVal), isJsonDict d = true →
      (d.map fun p => (p.1, reread style p.2)) = d.map fun p => (p.1, canon p.2)
  | [], _ => rfl
  | (.str k, v) :: d, h => by
      rw [isJsonDict, Bool.and_eq_true, Bool.and_eq_true] at h
      rw [List.map_cons, List.map_cons, reread_eq_canon hsort hascii v h.1.1,
        reread_eq_canonDict hsort hascii d h.2]
  | (.int _, _) :: _, h => by cases h
  | (.float _, _) :: _, h => by cases h
  | (.bool _, _) :: _, h => by cases h
  | (.none, _) :: _, h => by cases h

end

/-- A JSON value with the sorted text of another value is, up to the order of its
keys, what that text is read as. -/
theorem canon_eq_reread_of_dumps {style : JsonStyle} (hsort : style.sortKeys = true)
    (hascii : style.ensureAscii = false) {v w : PyVal} (hjson : v.isJson = true)
    (hv : FloatsRead v) (hw : FloatsRead w) {text : Str} (h : dumps style v = .ok text)
    (h' : dumps style w = .ok text) : canon v = reread style w :=
  (reread_eq_canon hsort hascii v hjson).symm.trans (reread_eq_of_dumps hv hw h h')

/-- Under every key an object holds what it is read with. -/
theorem Object.find_of_reread {d e : Dict} (hd : Object d) (he : Object e) {style : JsonStyle}
    (hsort : style.sortKeys = true) (hascii : style.ensureAscii = false)
    (h : reread style (.dict d) = reread style (.dict e)) (k : Str) :
    (Dict.find d k).map (reread style) = (Dict.find e k).map (reread style) := by
  rw [hd.reread_eq hsort hascii, he.reread_eq hsort hascii] at h
  rw [← find_rereadRecord, ← find_rereadRecord, PyVal.dict.inj h]

end Loads

end EasyBlockchain.Py
