/-
How many bytes a JSON text takes.

The bytes of a text add up over its parts. A list written without indentation
takes its brackets, its elements and two bytes between neighbours, so the texts
of two nonempty lists take as many bytes as the text of the lists put together.
-/
import EasyBlockchain.Py.Json
import EasyBlockchain.Py.Builtins

set_option autoImplicit false

namespace EasyBlockchain.Py

/-! ## Maps that may raise -/

section MapPy

variable {α β γ : Type}

/-- A map over two lists, one after the other. -/
theorem mapPy_append_eq_ok {f : α → PyM β} {xs xs' : List α} {zs : List β} :
    mapPy f (xs ++ xs') = .ok zs ↔
      ∃ ys ys', mapPy f xs = .ok ys ∧ mapPy f xs' = .ok ys' ∧ zs = ys ++ ys' := by
  constructor
  · intro h
    induction xs generalizing zs with
    | nil => exact ⟨[], zs, rfl, h, rfl⟩
    | cons x xs ih =>
        simp only [List.cons_append, mapPy, bind_eq_ok, pure_eq, Except.ok.injEq] at h
        obtain ⟨y, hy, rest, hrest, rfl⟩ := h
        obtain ⟨ys, ys', hys, hys', rfl⟩ := ih hrest
        exact ⟨y :: ys, ys', by simp [mapPy, hy, hys], hys', rfl⟩
  · rintro ⟨ys, ys', hys, hys', rfl⟩
    exact mapPy_append hys hys'

/-- Two maps, one after the other. -/
theorem mapPy_bind {f : α → PyM β} {g : β → PyM γ} {xs : List α} {zs : List γ} :
    mapPy (fun x => f x >>= g) xs = .ok zs ↔ ∃ ys, mapPy f xs = .ok ys ∧ mapPy g ys = .ok zs := by
  induction xs generalizing zs with
  | nil =>
      constructor
      · intro h
        exact ⟨[], rfl, h⟩
      · rintro ⟨ys, hys, hzs⟩
        obtain rfl := Except.ok.inj hys
        exact hzs
  | cons x xs ih =>
      simp only [mapPy, bind_eq_ok, pure_eq, Except.ok.injEq, ih]
      constructor
      · rintro ⟨z, ⟨y, hy, hz⟩, zs, ⟨ys, hys, hzs⟩, rfl⟩
        exact ⟨y :: ys, ⟨y, hy, ys, hys, rfl⟩, by simp [mapPy, hz, hzs]⟩
      · rintro ⟨_, ⟨y, hy, ys, hys, rfl⟩, hzs⟩
        simp only [mapPy, bind_eq_ok, pure_eq, Except.ok.injEq] at hzs
        obtain ⟨z, hz, zs, hzs, rfl⟩ := hzs
        exact ⟨z, ⟨y, hy, hz⟩, zs, ⟨ys, hys, hzs⟩, rfl⟩

/-- A map over the same elements in another order. -/
theorem mapPy_perm {f : α → PyM β} {xs xs' : List α} (h : xs.Perm xs') {ys : List β}
    (hys : mapPy f xs = .ok ys) : ∃ ys', mapPy f xs' = .ok ys' ∧ ys.Perm ys' := by
  induction h generalizing ys with
  | nil => exact ⟨ys, hys, List.Perm.refl ys⟩
  | cons x _ ih =>
      simp only [mapPy, bind_eq_ok, pure_eq, Except.ok.injEq] at hys
      obtain ⟨y, hy, rest, hrest, rfl⟩ := hys
      obtain ⟨rest', hrest', hperm⟩ := ih hrest
      exact ⟨y :: rest', by simp [mapPy, hy, hrest'], hperm.cons y⟩
  | swap x x' xs =>
      simp only [mapPy, bind_eq_ok, pure_eq, Except.ok.injEq] at hys
      obtain ⟨y', hy', _, ⟨y, hy, rest, hrest, rfl⟩, rfl⟩ := hys
      exact ⟨y :: y' :: rest, by simp [mapPy, hy, hy', hrest], List.Perm.swap y y' rest⟩
  | trans _ _ ih ih' =>
      obtain ⟨zs, hzs, hperm⟩ := ih hys
      obtain ⟨ws, hws, hperm'⟩ := ih' hzs
      exact ⟨ws, hws, hperm.trans hperm'⟩

/-- `mapM` in the exception monad is the map that may raise. -/
theorem mapM_eq_mapPy (f : α → PyM β) (xs : List α) : xs.mapM f = mapPy f xs := by
  induction xs with
  | nil => rfl
  | cons x xs ih => rw [List.mapM_cons, mapPy, ih]

/-- Mapping after a pure function. -/
theorem mapPy_map {f : β → PyM γ} {g : α → β} (xs : List α) :
    mapPy f (xs.map g) = mapPy (fun x => f (g x)) xs := by
  induction xs with
  | nil => rfl
  | cons x xs ih => rw [List.map_cons, mapPy, mapPy, ih]

end MapPy

/-! ## Bytes of a text -/

/-- `len(s.encode("utf-8"))`. -/
def utf8Size (s : Str) : PyM ℕ := do
  let bytes ← encode s
  return bytes.length

theorem utf8Size_eq_ok {s : Str} {n : ℕ} :
    utf8Size s = .ok n ↔ s.any isSurrogate = false ∧ n = (s.flatMap utf8Bytes).length := by
  unfold utf8Size encode utf8
  rcases s.any isSurrogate with _ | _
  · simp [eq_comm]
  · simp [orRaise]

theorem utf8Size_append {s t : Str} {n : ℕ} :
    utf8Size (s ++ t) = .ok n ↔
      ∃ a b, utf8Size s = .ok a ∧ utf8Size t = .ok b ∧ n = a + b := by
  simp only [utf8Size_eq_ok, List.any_append, Bool.or_eq_false_iff, List.flatMap_append,
    List.length_append]
  constructor
  · rintro ⟨⟨hs, ht⟩, rfl⟩
    exact ⟨_, _, ⟨hs, rfl⟩, ⟨ht, rfl⟩, rfl⟩
  · rintro ⟨_, _, ⟨hs, rfl⟩, ⟨ht, rfl⟩, rfl⟩
    exact ⟨⟨hs, ht⟩, rfl⟩

/-- A separator stands between every two texts. -/
theorem utf8Size_intercalate {sep : Str} {k : ℕ} (hsep : utf8Size sep = .ok k) {texts : List Str}
    {n : ℕ} : utf8Size (List.intercalate sep texts) = .ok n ↔
      ∃ sizes, mapPy utf8Size texts = .ok sizes ∧ n = sizes.sum + k * (sizes.length - 1) := by
  induction texts generalizing n with
  | nil =>
      have hnil : utf8Size (List.intercalate sep []) = .ok 0 := rfl
      rw [hnil]
      constructor
      · intro h
        exact ⟨[], rfl, (Except.ok.inj h).symm⟩
      · rintro ⟨sizes, hsizes, rfl⟩
        obtain rfl := Except.ok.inj hsizes
        rfl
  | cons t texts ih =>
      rcases texts with _ | ⟨u, texts⟩
      · have hone : List.intercalate sep [t] = t := by simp [List.intercalate]
        rw [hone]
        simp only [mapPy, bind_eq_ok, pure_eq, Except.ok.injEq]
        constructor
        · intro h
          exact ⟨[n], ⟨n, h, [], rfl, rfl⟩, by simp⟩
        · rintro ⟨_, ⟨a, ha, _, rfl, rfl⟩, rfl⟩
          simpa using ha
      · have hcons : List.intercalate sep (t :: u :: texts)
            = t ++ (sep ++ List.intercalate sep (u :: texts)) := by simp [List.intercalate]
        rw [hcons, mapPy]
        simp only [utf8Size_append, ih, bind_eq_ok, pure_eq, Except.ok.injEq]
        constructor
        · rintro ⟨a, _, ha, ⟨_, _, hk, ⟨sizes, hsizes, rfl⟩, rfl⟩, rfl⟩
          rw [hsep, Except.ok.injEq] at hk
          subst hk
          refine ⟨a :: sizes, ⟨a, ha, sizes, hsizes, rfl⟩, ?_⟩
          have hlen := length_mapPy hsizes
          rw [List.length_cons] at hlen
          rw [List.sum_cons, List.length_cons, hlen, Nat.add_sub_cancel, Nat.add_sub_cancel,
            Nat.mul_succ]
          omega
        · rintro ⟨_, ⟨a, ha, sizes, hsizes, rfl⟩, rfl⟩
          refine ⟨a, _, ha, ⟨k, _, hsep, ⟨sizes, hsizes, rfl⟩, rfl⟩, ?_⟩
          have hlen := length_mapPy hsizes
          rw [List.length_cons] at hlen
          rw [List.sum_cons, List.length_cons, hlen, Nat.add_sub_cancel, Nat.add_sub_cancel,
            Nat.mul_succ]
          omega

/-! ## Bytes of a value -/

section Dumps

variable [Runtime]

/-- The elements of a sequence, each as its own text. -/
theorem dumpsList_eq_mapPy (style : JsonStyle) (level : ℕ) (xs : List PyVal) :
    dumpsList style level xs = mapPy (dumpsAt style level) xs := by
  induction xs with
  | nil => rfl
  | cons x xs ih => rw [dumpsList, mapPy, ih]

mutual

/-- Without indentation the nesting level does not show. -/
theorem dumpsAt_level {style : JsonStyle} (h : style.indent = false) :
    ∀ (v : PyVal) (level level' : ℕ), dumpsAt style level v = dumpsAt style level' v
  | .none, _, _ => rfl
  | .bool _, _, _ => rfl
  | .int _, _, _ => rfl
  | .float _, _, _ => rfl
  | .str _, _, _ => rfl
  | .list xs, level, level' => by
      rw [dumpsAt, dumpsAt, dumpsList_level h xs (level + 1) (level' + 1)]
      simp only [bracket, h, Bool.false_eq_true, if_false]
  | .tuple xs, level, level' => by
      rw [dumpsAt, dumpsAt, dumpsList_level h xs (level + 1) (level' + 1)]
      simp only [bracket, h, Bool.false_eq_true, if_false]
  | .dict d, level, level' => by
      rw [dumpsAt, dumpsAt, dumpsDict_level h d (level + 1) (level' + 1)]
      simp only [bracket, h, Bool.false_eq_true, if_false]
  | .object _ _, _, _ => rfl

theorem dumpsList_level {style : JsonStyle} (h : style.indent = false) :
    ∀ (xs : List PyVal) (level level' : ℕ), dumpsList style level xs = dumpsList style level' xs
  | [], _, _ => rfl
  | x :: xs, level, level' => by
      rw [dumpsList, dumpsList, dumpsAt_level h x level level', dumpsList_level h xs level level']

theorem dumpsDict_level {style : JsonStyle} (h : style.indent = false) :
    ∀ (d : List (PyKey × PyVal)) (level level' : ℕ),
      dumpsDict style level d = dumpsDict style level' d
  | [], _, _ => rfl
  | (k, v) :: rest, level, level' => by
      rw [dumpsDict, dumpsDict, dumpsAt_level h v level level', dumpsDict_level h rest level level']

end

/-- `len(json.dumps(v, ...).encode("utf-8"))`. -/
def jsonSize (style : JsonStyle) (v : PyVal) : PyM ℕ := dumps style v >>= utf8Size

variable {style : JsonStyle}

omit [Runtime] in
/-- Items between brackets take two bytes more than with separators alone. -/
theorem utf8Size_bracket (h : style.indent = false) {opening closing : Str}
    (hopening : utf8Size opening = .ok 1) (hclosing : utf8Size closing = .ok 1) {texts : List Str}
    {n : ℕ} : utf8Size (bracket style 0 opening closing texts) = .ok n ↔
      ∃ sizes, mapPy utf8Size texts = .ok sizes ∧ n = 2 + sizes.sum + 2 * (sizes.length - 1) := by
  have hcomma : utf8Size (lit ", ") = .ok 2 := rfl
  have htext : bracket style 0 opening closing texts
      = opening ++ (List.intercalate (lit ", ") texts ++ closing) := by
    cases texts with
    | nil => rfl
    | cons t ts => simp [bracket, h]
  rw [htext]
  simp only [utf8Size_append, hopening, hclosing, utf8Size_intercalate hcomma, Except.ok.injEq]
  constructor
  · rintro ⟨_, _, rfl, ⟨_, _, ⟨sizes, hsizes, rfl⟩, rfl, rfl⟩, rfl⟩
    exact ⟨sizes, hsizes, by omega⟩
  · rintro ⟨sizes, hsizes, rfl⟩
    exact ⟨1, _, rfl, ⟨_, 1, ⟨sizes, hsizes, rfl⟩, rfl, rfl⟩, by omega⟩

/-- A list takes its elements, two brackets, and two bytes between elements. -/
theorem jsonSize_list (h : style.indent = false) {xs : List PyVal} {n : ℕ} :
    jsonSize style (.list xs) = .ok n ↔ ∃ sizes, mapPy (jsonSize style) xs = .ok sizes ∧
      n = 2 + sizes.sum + 2 * (sizes.length - 1) := by
  have hlevel : dumpsAt style 1 = dumpsAt style 0 := funext fun v => dumpsAt_level h v 1 0
  have hmap : ∀ sizes, mapPy (jsonSize style) xs = .ok sizes ↔
      ∃ texts, mapPy (dumpsAt style 0) xs = .ok texts ∧ mapPy utf8Size texts = .ok sizes := by
    intro sizes
    exact mapPy_bind
  have hbracket := fun texts => @utf8Size_bracket style h (lit "[") (lit "]") rfl rfl texts n
  simp only [jsonSize, dumps, dumpsAt, bind_eq_ok, pure_eq, Except.ok.injEq] at hmap ⊢
  simp only [dumpsList_eq_mapPy, Nat.zero_add, hlevel, hmap]
  constructor
  · rintro ⟨_, ⟨texts, htexts, rfl⟩, hsize⟩
    obtain ⟨sizes, hsizes, hn⟩ := (hbracket texts).mp hsize
    exact ⟨sizes, ⟨texts, htexts, hsizes⟩, hn⟩
  · rintro ⟨sizes, ⟨texts, htexts, hsizes⟩, hn⟩
    exact ⟨_, ⟨texts, htexts, rfl⟩, (hbracket texts).mpr ⟨sizes, hsizes, hn⟩⟩

/-- The bytes of the entry `"key": value`. -/
def entrySize (style : JsonStyle) (p : PyKey × PyVal) : PyM ℕ :=
  entryText style.ensureAscii (p.1, dumpsAt style 0 p.2) >>= utf8Size

/-- The entries of an object with the texts of their values. -/
theorem dumpsDict_eq_map (style : JsonStyle) (level : ℕ) (d : Dict) :
    dumpsDict style level d = d.map fun p => (p.1, dumpsAt style level p.2) := by
  induction d with
  | nil => rfl
  | cons p rest ih =>
      obtain ⟨k, v⟩ := p
      rw [dumpsDict, List.map_cons, ih]

omit [Runtime] in
theorem perm_of_sortItems {α : Type} {d sorted : List (PyKey × α)} (h : sortItems d = .ok sorted) :
    d.Perm sorted := by
  unfold sortItems at h
  split at h
  · obtain rfl := Except.ok.inj h
    exact (List.perm_insertionSort _ d).symm
  · cases h

omit [Runtime] in
theorem sortByKey_of_sortItems {α : Type} {d sorted : List (PyKey × α)}
    (h : sortItems d = .ok sorted) : sorted = sortByKey d := by
  unfold sortItems at h
  split at h
  · exact (Except.ok.inj h).symm
  · cases h

omit [Runtime] in
/-- Sorting by key looks at the keys only. -/
theorem sortByKey_map {α β : Type} (f : α → β) (d : List (PyKey × α)) :
    sortByKey (d.map fun p => (p.1, f p.2)) = (sortByKey d).map fun p => (p.1, f p.2) :=
  (List.map_insertionSort (fun p q : PyKey × α => p.1.le q.1 = true)
    (fun p q : PyKey × β => p.1.le q.1 = true) (fun p => (p.1, f p.2)) d
    fun _ _ _ _ => Iff.rfl).symm

omit [Runtime] in
theorem sortItems_map_eq_ok {α β : Type} (f : α → β) {d : List (PyKey × α)}
    {entries : List (PyKey × β)} :
    sortItems (d.map fun p => (p.1, f p.2)) = .ok entries ↔
      ∃ sorted, sortItems d = .ok sorted ∧ entries = sorted.map fun p => (p.1, f p.2) := by
  unfold sortItems
  simp only [List.length_map, List.all_map, Function.comp_def]
  split
  · simp [sortByKey_map, eq_comm]
  · simp

/-- An object takes its entries, two brackets, and two bytes between entries,
in whatever order they are written. -/
theorem jsonSize_dict (h : style.indent = false) {d : Dict} {n : ℕ} :
    jsonSize style (.dict d) = .ok n ↔
      (style.sortKeys = true → ∃ sorted, sortItems (dumpsDict style 0 d) = .ok sorted) ∧
      ∃ sizes, mapPy (entrySize style) d = .ok sizes ∧
        n = 2 + sizes.sum + 2 * (sizes.length - 1) := by
  have hbracket := fun texts => @utf8Size_bracket style h (lit "\x7b") (lit "\x7d") rfl rfl texts n
  -- the items of the entries in the order they are written
  have hitems : ∀ entries : List (PyKey × PyM Str),
      (∃ texts, entries.mapM (entryText style.ensureAscii) = .ok texts ∧
        utf8Size (bracket style 0 (lit "\x7b") (lit "\x7d") texts) = .ok n) ↔
      ∃ sizes, mapPy (fun p => entryText style.ensureAscii p >>= utf8Size) entries = .ok sizes ∧
        n = 2 + sizes.sum + 2 * (sizes.length - 1) := by
    intro entries
    simp only [mapM_eq_mapPy, hbracket, mapPy_bind]
    constructor
    · rintro ⟨texts, htexts, sizes, hsizes, hn⟩
      exact ⟨sizes, ⟨texts, htexts, hsizes⟩, hn⟩
    · rintro ⟨sizes, ⟨texts, htexts, hsizes⟩, hn⟩
      exact ⟨texts, htexts, sizes, hsizes, hn⟩
  have hdict : mapPy (fun p => entryText style.ensureAscii p >>= utf8Size) (dumpsDict style 0 d)
      = mapPy (entrySize style) d := by
    rw [dumpsDict_eq_map, mapPy_map]
    rfl
  rw [jsonSize, dumps, dumpsAt, dumpsDict_level h d (0 + 1) 0]
  rcases hsort : style.sortKeys with _ | _
  · simp only [Bool.false_eq_true, if_false, pure_eq, ok_bind, bind_eq_ok, Except.ok.injEq,
      IsEmpty.forall_iff, true_and]
    rw [← hdict, ← hitems]
    constructor
    · rintro ⟨_, ⟨texts, htexts, rfl⟩, hn⟩
      exact ⟨texts, htexts, hn⟩
    · rintro ⟨texts, htexts, hn⟩
      exact ⟨_, ⟨texts, htexts, rfl⟩, hn⟩
  · simp only [if_true, pure_eq, bind_eq_ok, Except.ok.injEq, forall_const]
    constructor
    · rintro ⟨_, ⟨sorted, hsorted, texts, htexts, rfl⟩, hn⟩
      obtain ⟨sizes, hsizes, hn⟩ := (hitems sorted).mp ⟨texts, htexts, hn⟩
      obtain ⟨sizes', hsizes', hperm⟩ := mapPy_perm (perm_of_sortItems hsorted).symm hsizes
      refine ⟨⟨sorted, hsorted⟩, sizes', hdict ▸ hsizes', ?_⟩
      rw [hn, hperm.sum_eq, hperm.length_eq]
    · rintro ⟨⟨sorted, hsorted⟩, sizes, hsizes, hn⟩
      rw [← hdict] at hsizes
      obtain ⟨sizes', hsizes', hperm⟩ := mapPy_perm (perm_of_sortItems hsorted) hsizes
      obtain ⟨texts, htexts, hn⟩ := (hitems sorted).mpr
        ⟨sizes', hsizes', by rw [hn, hperm.sum_eq, hperm.length_eq]⟩
      exact ⟨_, ⟨sorted, hsorted, texts, htexts, rfl⟩, hn⟩

/-- The values of an object that can be written can be written. -/
theorem jsonSize_value (h : style.indent = false) {d : Dict} {n : ℕ}
    (hsize : jsonSize style (.dict d) = .ok n) {k : PyKey} {v : PyVal} (hmem : (k, v) ∈ d) :
    ∃ m, jsonSize style v = .ok m := by
  obtain ⟨-, sizes, hsizes, -⟩ := (jsonSize_dict h).mp hsize
  obtain ⟨m, -, hentry⟩ := mem_mapPy_of_mem hsizes hmem
  simp only [entrySize, entryText, bind_eq_ok, pure_eq, Except.ok.injEq] at hentry
  obtain ⟨_, ⟨key, -, text, htext, rfl⟩, hm⟩ := hentry
  obtain ⟨_, b, -, hb, -⟩ := utf8Size_append.mp hm
  exact ⟨b, bind_eq_ok.mpr ⟨text, htext, hb⟩⟩

omit [Runtime] in
/-- String keys can be sorted. -/
theorem sortItems_of_str {α : Type} {d : List (PyKey × α)} (h : ∀ p ∈ d, ∃ k, p.1 = .str k) :
    ∃ sorted, sortItems d = .ok sorted := by
  have hall : d.all (fun p => p.1.text.isSome) = true := by
    rw [List.all_eq_true]
    intro p hp
    obtain ⟨k, hk⟩ := h p hp
    rw [hk]
    rfl
  exact ⟨_, by rw [sortItems, hall, Bool.or_true, Bool.true_or, if_pos rfl]⟩

/-- In an object with string keys, another value for the first entry changes the
bytes by the difference of the values. -/
theorem jsonSize_dict_cons (h : style.indent = false) {k : Str} {v v' : PyVal} {rest : Dict}
    (hkeys : ∀ p ∈ rest, ∃ k, p.1 = .str k) {m' n : ℕ} (hv' : jsonSize style v' = .ok m') :
    jsonSize style (.dict ((.str k, v) :: rest)) = .ok n ↔
      ∃ m fixed, jsonSize style v = .ok m ∧
        jsonSize style (.dict ((.str k, v') :: rest)) = .ok fixed ∧ n + m' = fixed + m := by
  have hsort : ∀ w : PyVal, style.sortKeys = true →
      ∃ sorted, sortItems (dumpsDict style 0 ((.str k, w) :: rest)) = .ok sorted := by
    intro w _
    apply sortItems_of_str
    intro p hp
    rw [dumpsDict_eq_map] at hp
    obtain ⟨q, hq, rfl⟩ := List.mem_map.mp hp
    rcases List.mem_cons.mp hq with rfl | hq
    · exact ⟨k, rfl⟩
    · exact hkeys q hq
  have hentry : ∀ (w : PyVal) (size : ℕ), entrySize style (.str k, w) = .ok size ↔
      ∃ a b, utf8Size (quote style.ensureAscii k ++ lit ": ") = .ok a ∧ jsonSize style w = .ok b ∧
        size = a + b := by
    intro w size
    simp only [entrySize, entryText, keyText, ok_bind, bind_eq_ok, pure_eq, Except.ok.injEq, jsonSize,
      dumps]
    constructor
    · rintro ⟨_, ⟨text, htext, rfl⟩, hsize⟩
      obtain ⟨a, b, ha, hb, rfl⟩ := utf8Size_append.mp hsize
      exact ⟨a, b, ha, ⟨text, htext, hb⟩, rfl⟩
    · rintro ⟨a, b, ha, ⟨text, htext, hb⟩, rfl⟩
      exact ⟨_, ⟨text, htext, rfl⟩, utf8Size_append.mpr ⟨a, b, ha, hb, rfl⟩⟩
  have hdict : ∀ (w : PyVal) (size : ℕ), jsonSize style (.dict ((.str k, w) :: rest)) = .ok size ↔
      ∃ sizes, mapPy (entrySize style) ((.str k, w) :: rest) = .ok sizes ∧
        size = 2 + sizes.sum + 2 * (sizes.length - 1) :=
    fun w _ => (jsonSize_dict h).trans (and_iff_right (hsort w))
  simp only [hdict, mapPy, bind_eq_ok, pure_eq, Except.ok.injEq, hentry]
  constructor
  · rintro ⟨_, ⟨_, ⟨a, b, ha, hb, rfl⟩, sizes, hsizes, rfl⟩, rfl⟩
    refine ⟨b, _, hb, ⟨_, ⟨_, ⟨a, m', ha, hv', rfl⟩, sizes, hsizes, rfl⟩, rfl⟩, ?_⟩
    simp only [List.sum_cons, List.length_cons]
    omega
  · rintro ⟨m, _, hm, ⟨_, ⟨_, ⟨a, b, ha, hb, rfl⟩, sizes, hsizes, rfl⟩, rfl⟩, hn⟩
    rw [hv', Except.ok.injEq] at hb
    subst hb
    refine ⟨_, ⟨_, ⟨a, m, ha, hm, rfl⟩, sizes, hsizes, rfl⟩, ?_⟩
    simp only [List.sum_cons, List.length_cons] at hn ⊢
    omega

/-- Two nonempty lists take as many bytes as one list of all elements. -/
theorem jsonSize_list_append (h : style.indent = false) {xs ys : List PyVal} (hxs : xs ≠ [])
    (hys : ys ≠ []) {n : ℕ} : jsonSize style (.list (xs ++ ys)) = .ok n ↔
      ∃ a b, jsonSize style (.list xs) = .ok a ∧ jsonSize style (.list ys) = .ok b ∧
        n = a + b := by
  have hx := List.length_pos_iff.mpr hxs
  have hy := List.length_pos_iff.mpr hys
  simp only [jsonSize_list h, mapPy_append_eq_ok]
  constructor
  · rintro ⟨_, ⟨as, bs, has, hbs, rfl⟩, rfl⟩
    refine ⟨_, _, ⟨as, has, rfl⟩, ⟨bs, hbs, rfl⟩, ?_⟩
    rw [List.sum_append, List.length_append, length_mapPy has, length_mapPy hbs]
    omega
  · rintro ⟨_, _, ⟨as, has, rfl⟩, ⟨bs, hbs, rfl⟩, rfl⟩
    refine ⟨as ++ bs, ⟨as, bs, has, hbs, rfl⟩, ?_⟩
    rw [List.sum_append, List.length_append, length_mapPy has, length_mapPy hbs]
    omega

end Dumps

end EasyBlockchain.Py
