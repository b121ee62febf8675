/-
Dictionaries that JSON gives back as they are, but for the order of their keys.

A record has string keys that all differ and hold no surrogates. Written with
sorted keys and read again, it finds under every key what it found before, read
again.
-/
import EasyBlockchain.Py.JsonStable
import EasyBlockchain.Py.JsonText

set_option autoImplicit false

namespace EasyBlockchain.Py

/-- A string without surrogates is read as it is. -/
theorem rereadStr_of_scalars (ascii : Bool) {s : Str} (h : Scalars s) : rereadStr ascii s = s := by
  have hjoin : ∀ t : Str, Scalars t → joinPairs none t = t := by
    intro t ht
    induction t with
    | nil => rfl
    | cons c t ih =>
        have hc := ht c List.mem_cons_self
        simp only [isSurrogate, Bool.and_eq_false_iff, decide_eq_false_iff_not] at hc
        rw [joinPairs, if_neg (by omega), ih fun d hd => ht d (List.mem_cons_of_mem c hd),
          joinSurrogates, codePoint_val]
  unfold rereadStr
  split
  · exact hjoin s h
  · rfl

/-- Different string keys without surrogates. -/
structure Record (d : Dict) : Prop where
  str : ∀ p ∈ d, ∃ k, p.1 = .str k ∧ Scalars k
  nodup : (d.map Prod.fst).Nodup

/-- A record as a dictionary with string keys. -/
theorem Record.eq_strEntries {d : Dict} (h : Record d) :
    ∃ m : StrDict PyVal, d = strEntries m.entries ∧ ∀ p ∈ m.entries, Scalars p.1 := by
  have hentries : ∀ e : Dict, (∀ p ∈ e, ∃ k, p.1 = .str k ∧ Scalars k) →
      ∃ l : List (Str × PyVal), e = strEntries l ∧ ∀ p ∈ l, Scalars p.1 := by
    intro e he
    induction e with
    | nil => exact ⟨[], rfl, by simp⟩
    | cons p e ih =>
        obtain ⟨l, rfl, hl⟩ := ih fun q hq => he q (List.mem_cons_of_mem p hq)
        obtain ⟨k, hk, hscalars⟩ := he p List.mem_cons_self
        obtain ⟨key, v⟩ := p
        obtain rfl : key = .str k := hk
        exact ⟨(k, v) :: l, rfl, List.forall_mem_cons.mpr ⟨hscalars, hl⟩⟩
  obtain ⟨l, rfl, hl⟩ := hentries d h.str
  have hnodup := h.nodup
  rw [strEntries, List.map_map] at hnodup
  have hkeys : (l.map Prod.fst).map PyKey.str = l.map (Prod.fst ∘ fun p => (PyKey.str p.1, p.2)) := by
    rw [List.map_map]
    rfl
  rw [← hkeys] at hnodup
  exact ⟨⟨l, hnodup.of_map _⟩, rfl, hl⟩

theorem Record.without {d : Dict} (h : Record d) (k : Str) : Record (Dict.without d k) where
  str p hp := h.str p (List.mem_of_mem_filter hp)
  nodup := h.nodup.sublist (List.filter_sublist.map Prod.fst)

theorem Record.sortByKey {d : Dict} (h : Record d) : Record (sortByKey d) where
  str p hp := h.str p ((List.perm_insertionSort _ d).mem_iff.mp hp)
  nodup := ((List.perm_insertionSort _ d).map Prod.fst).nodup_iff.mpr h.nodup

/-- Sorting and removing a key commute. -/
theorem Record.sortByKey_without {d : Dict} (h : Record d) (k : Str) :
    Py.sortByKey (Dict.without d k) = Dict.without (Py.sortByKey d) k := by
  obtain ⟨m, rfl, -⟩ := h.eq_strEntries
  have hfilter : ∀ l : List (Str × PyVal),
      Dict.without (strEntries l) k = strEntries (l.filter fun p => p.1 ≠ k) := by
    intro l
    rw [Dict.without, strEntries, List.filter_map, strEntries]
    congr 1
    apply List.filter_congr
    intro p _
    simp
  have hrest : ((m.entries.filter fun p => p.1 ≠ k).map Prod.fst).Nodup :=
    m.nodup.sublist (List.filter_sublist.map Prod.fst)
  have hsorted := sorted_of_increasing (m := ⟨m.entries.filter fun p => p.1 ≠ k, hrest⟩)
    ((List.perm_insertionSort _ m.entries).symm.filter fun p => p.1 ≠ k)
    ((increasing_sorted m).sublist (List.filter_sublist.map Prod.fst))
  rw [hfilter, sortByKey_strEntries, hfilter]
  exact (sortByKey_strEntries ⟨_, hrest⟩).trans (congrArg strEntries hsorted)

section Reread

variable [Runtime]

theorem rereadKey_str (ascii : Bool) {k : Str} (h : Scalars k) : rereadKey ascii (.str k) = k :=
  rereadStr_of_scalars ascii h

/-- The keys of a record increase. -/
theorem Record.keysIncrease {d : Dict} (h : Record d) (ascii : Bool) : KeysIncrease ascii d := by
  obtain ⟨m, rfl, hm⟩ := h.eq_strEntries
  rw [KeysIncrease, sortByKey_strEntries, strEntries, List.map_map]
  have hkeys : m.sorted.map ((fun p : PyKey × PyVal => rereadKey ascii p.1) ∘
      fun p => (PyKey.str p.1, p.2)) = m.sorted.map Prod.fst := by
    apply List.map_congr_left
    intro p hp
    exact rereadKey_str ascii (hm p ((List.perm_insertionSort _ _).mem_iff.mp hp))
  rw [hkeys]
  exact increasing_sorted m

/-- What a record written with sorted keys is read as. -/
def rereadRecord (style : JsonStyle) (d : Dict) : Dict :=
  (sortByKey d).map fun p => (p.1, reread style p.2)

theorem Record.reread_eq {d : Dict} (h : Record d) {style : JsonStyle}
    (hsort : style.sortKeys = true) : reread style (.dict d) = .dict (rereadRecord style d) := by
  have hread : strEntries ((Py.sortByKey d).map fun p =>
      (rereadKey style.ensureAscii p.1, reread style p.2)) = rereadRecord style d := by
    rw [strEntries, List.map_map]
    apply List.map_congr_left
    intro p hp
    obtain ⟨k, hk, hscalars⟩ := h.sortByKey.str p hp
    simp only [Function.comp_apply, hk, rereadKey_str _ hscalars]
  have hnodup : (((Py.sortByKey d).map fun p =>
      (rereadKey style.ensureAscii p.1, reread style p.2)).map Prod.fst).Nodup := by
    rw [List.map_map]
    exact (h.keysIncrease style.ensureAscii).imp fun hlt => ne_of_lt hlt
  rw [reread_dict, rereadEntries, hsort, if_pos rfl, update_of_nodup hnodup]
  exact congrArg PyVal.dict hread

/-- Under every key stands what stood there, read again. -/
theorem find_rereadRecord (style : JsonStyle) (d : Dict) (k : Str) :
    Dict.find (rereadRecord style d) k = (Dict.find d k).map (reread style) := by
  have hmap : ∀ e : Dict, Dict.find (e.map fun p => (p.1, reread style p.2)) k
      = (Dict.find e k).map (reread style) := by
    intro e
    induction e with
    | nil => rfl
    | cons p e ih =>
        obtain ⟨key, v⟩ := p
        rw [List.map_cons, Dict.find_cons, Dict.find_cons, ih]
        split
        · rfl
        · rfl
  rw [rereadRecord, hmap, find_sortByKey]

theorem Record.rereadRecord_without {d : Dict} (h : Record d) (style : JsonStyle) (k : Str) :
    rereadRecord style (Dict.without d k) = Dict.without (rereadRecord style d) k := by
  rw [rereadRecord, h.sortByKey_without, rereadRecord, Dict.without, Dict.without, List.filter_map]
  rfl

/-! ## Values -/

theorem keysStableDict_iff {ascii : Bool} {d : Dict} :
    KeysStableDict ascii d ↔ ∀ p ∈ d, KeysStable ascii p.2 := by
  induction d with
  | nil => simp [KeysStableDict]
  | cons p d ih =>
      obtain ⟨k, v⟩ := p
      rw [KeysStableDict, ih, List.forall_mem_cons]

theorem Record.keysStable {ascii : Bool} {d : Dict} (h : Record d) :
    KeysStable ascii (.dict d) ↔ ∀ p ∈ d, KeysStable ascii p.2 := by
  rw [KeysStable, keysStableDict_iff]
  exact and_iff_right (h.keysIncrease ascii)

/-- A record can be written when its values can. -/
theorem Record.dumps_isOk {d : Dict} (h : Record d) {style : JsonStyle}
    (hsort : style.sortKeys = true) {level : ℕ} :
    (∃ text, dumpsAt style level (.dict d) = .ok text) ↔
      ∀ p ∈ d, ∃ text, dumpsAt style (level + 1) p.2 = .ok text := by
  have hentries : ∀ e : Dict, (∀ p ∈ e, ∃ k, p.1 = .str k) →
      ((∃ ts, (e.map fun p => (p.1, dumpsAt style (level + 1) p.2)).mapM
          (entryText style.ensureAscii) = .ok ts) ↔
        ∀ p ∈ e, ∃ text, dumpsAt style (level + 1) p.2 = .ok text) := by
    intro e he
    induction e with
    | nil => simp
    | cons p e ih =>
        obtain ⟨k, hk⟩ := he p List.mem_cons_self
        rw [List.forall_mem_cons, ← ih fun q hq => he q (List.mem_cons_of_mem p hq)]
        simp only [List.map_cons, List.mapM_cons, entryText, hk, keyText, ok_bind, bind_eq_ok, pure_eq,
          Except.ok.injEq]
        constructor
        · rintro ⟨_, _, ⟨text, htext, rfl⟩, ts, hts, rfl⟩
          exact ⟨⟨text, htext⟩, ts, hts⟩
        · rintro ⟨⟨text, htext⟩, ts, hts⟩
          exact ⟨_, _, ⟨text, htext, rfl⟩, ts, hts, rfl⟩
  obtain ⟨sorted, hsorted⟩ : ∃ sorted, sortItems d = .ok sorted := by
    apply sortItems_of_str
    intro p hp
    obtain ⟨k, hk, -⟩ := h.str p hp
    exact ⟨k, hk⟩
  have hmem : ∀ p, p ∈ sorted ↔ p ∈ d := fun p => (perm_of_sortItems hsorted).mem_iff.symm
  have hstr : ∀ p ∈ sorted, ∃ k, p.1 = .str k := by
    intro p hp
    obtain ⟨k, hk, -⟩ := h.str p ((hmem p).mp hp)
    exact ⟨k, hk⟩
  simp only [dumpsAt_sorted hsort, hsorted, Except.ok.injEq, exists_eq_left']
  rw [← forall_congr' fun p => imp_congr_left (hmem p), ← hentries sorted hstr]
  constructor
  · rintro ⟨_, ts, hts, rfl⟩
    exact ⟨ts, hts⟩
  · rintro ⟨ts, hts⟩
    exact ⟨_, ts, hts, rfl⟩

end Reread

end EasyBlockchain.Py
