/-
What the text of an object says about its fields.

Different string keys may be read as one, once escaped surrogates are joined,
but nothing else is read as a key of plain ASCII. So the text of an object
determines what it holds under such a key, up to what the value is read as.
-/
import EasyBlockchain.Py.JsonRecord

set_option autoImplicit false

namespace EasyBlockchain.Py

/-! ## Plain keys -/

/-- Text of ASCII characters. -/
def Plain (k : Str) : Prop := ∀ c ∈ k, c.val < 0x80

theorem plain_of_all {k : Str} (h : k.all (fun c => c.val < 0x80) = true) : Plain k :=
  fun c hc => of_decide_eq_true (List.all_eq_true.mp h c hc)

theorem val_codePoint {n : ℕ} (h : n < 0x110000) : (codePoint n).val = n := by
  simp [codePoint, Nat.mod_eq_of_lt h]

/-- A high surrogate leaves a character that is not ASCII. -/
theorem not_plain_joinPairs {h : ℕ} (hlow : 0xd800 ≤ h) (hhigh : h ≤ 0xdbff) (s : Str) :
    ¬ Plain (joinPairs (some h) s) := by
  have hleft : (codePoint h).val = h := val_codePoint (by omega)
  have hkept : ∀ t, ¬ Plain (codePoint h :: t) := by
    intro t hplain
    have hsmall := hplain (codePoint h) List.mem_cons_self
    omega
  cases s with
  | nil => exact hkept []
  | cons c s =>
      rw [joinPairs]
      by_cases hc : 0xd800 ≤ c.val ∧ c.val ≤ 0xdbff
      · rw [if_pos hc]
        exact hkept _
      · rw [if_neg hc, joinSurrogates]
        by_cases hlow' : 0xdc00 ≤ c.val ∧ c.val ≤ 0xdfff
        · -- the pair stands for a character above the surrogates
          rw [if_pos hlow']
          intro hplain
          have hsmall := hplain _ List.mem_cons_self
          rw [val_codePoint (by omega)] at hsmall
          omega
        · rw [if_neg hlow']
          exact hkept _

/-- What is read as plain text is that text. -/
theorem joinPairs_eq_plain {s k : Str} (hk : Plain k) (h : joinPairs none s = k) : s = k := by
  induction s generalizing k with
  | nil => exact h
  | cons c s ih =>
      rw [joinPairs] at h
      by_cases hc : 0xd800 ≤ c.val ∧ c.val ≤ 0xdbff
      · rw [if_pos hc] at h
        have hflush : joinPairs (some c.val) s = k := h
        rw [← hflush] at hk
        exact absurd hk (not_plain_joinPairs hc.1 hc.2 s)
      · rw [if_neg hc, joinSurrogates, codePoint_val] at h
        subst h
        rw [← ih (fun d hd => hk d (List.mem_cons_of_mem c hd)) rfl]

theorem rereadStr_eq_plain {ascii : Bool} {s k : Str} (hk : Plain k) (h : rereadStr ascii s = k) :
    s = k := by
  unfold rereadStr at h
  split at h
  · exact joinPairs_eq_plain hk h
  · exact h

theorem rereadStr_plain (ascii : Bool) {k : Str} (hk : Plain k) : rereadStr ascii k = k :=
  rereadStr_of_scalars ascii (scalars_of_ascii hk)

/-! ## Objects -/

/-- Different string keys. -/
structure Object (d : Dict) : Prop where
  str : ∀ p ∈ d, ∃ k, p.1 = .str k
  nodup : (d.map Prod.fst).Nodup

theorem Record.object {d : Dict} (h : Record d) : Object d where
  str p hp := by
    obtain ⟨k, hk, -⟩ := h.str p hp
    exact ⟨k, hk⟩
  nodup := h.nodup

theorem Object.without {d : Dict} (h : Object d) (k : Str) : Object (Dict.without d k) where
  str p hp := h.str p (List.mem_of_mem_filter hp)
  nodup := h.nodup.sublist (List.filter_sublist.map Prod.fst)

/-- Under each key stands one value. -/
theorem Object.eq_of_mem {d : Dict} (h : Object d) {k : Str} {v w : PyVal}
    (hv : Dict.find d k = some v) (hw : (PyKey.str k, w) ∈ d) : w = v := by
  induction d with
  | nil => cases hw
  | cons p d ih =>
      obtain ⟨key, u⟩ := p
      have hnodup := h.nodup
      rw [List.map_cons, List.nodup_cons] at hnodup
      have hrest : Object d := ⟨fun q hq => h.str q (List.mem_cons_of_mem _ hq), hnodup.2⟩
      rw [Dict.find_cons] at hv
      by_cases hkey : key = .str k
      · rw [if_pos hkey] at hv
        rcases List.mem_cons.mp hw with heq | hw
        · exact (Prod.mk.inj heq).2.trans (Option.some.inj hv)
        · have hmem : key ∈ d.map Prod.fst := by
            rw [hkey]
            exact List.mem_map_of_mem hw
          exact absurd hmem hnodup.1
      · rw [if_neg hkey] at hv
        rcases List.mem_cons.mp hw with heq | hw
        · exact absurd (Prod.mk.inj heq).1.symm hkey
        · exact ih hrest hv hw

theorem mem_of_find {d : Dict} {k : Str} {v : PyVal} (h : Dict.find d k = some v) :
    (PyKey.str k, v) ∈ d := by
  obtain ⟨before, after, rfl, -⟩ := List.lookup_eq_some_iff.mp h
  simp

theorem not_mem_of_find_none {d : Dict} {k : Str} (h : Dict.find d k = none) :
    PyKey.str k ∉ d.map Prod.fst := by
  intro hmem
  obtain ⟨⟨key, v⟩, hp, rfl⟩ := List.mem_map.mp hmem
  rw [Dict.find, List.lookup_eq_none_iff] at h
  simpa using h _ hp

/-- Updates that agree on a key leave that value under it. -/
theorem StrDict.find_update {α : Type} {m : StrDict α} {l : List (Str × α)} {k : Str} {v : α}
    (hall : ∀ p ∈ l, p.1 = k → p.2 = v) (h : m.find k = some v ∨ (k, v) ∈ l) :
    (m.update l).find k = some v := by
  induction l generalizing m with
  | nil =>
      rcases h with h | h
      · exact h
      · cases h
  | cons p l ih =>
      rw [StrDict.update_cons]
      apply ih fun q hq => hall q (List.mem_cons_of_mem p hq)
      rw [StrDict.find_set]
      by_cases hp : k = p.1
      · left
        rw [if_pos hp, hall p List.mem_cons_self hp.symm]
      · rw [if_neg hp]
        rcases h with h | h
        · exact Or.inl h
        · rcases List.mem_cons.mp h with rfl | h
          · exact absurd rfl hp
          · exact Or.inr h

theorem find_strEntries (m : StrDict PyVal) (k : Str) :
    Dict.find (strEntries m.entries) k = m.find k := by
  rw [StrDict.find]
  induction m.entries with
  | nil => rfl
  | cons p l ih =>
      have hcons : strEntries (p :: l) = (.str p.1, p.2) :: strEntries l := rfl
      rw [hcons, Dict.find_cons, ih, List.lookup_cons]
      by_cases hp : p.1 = k
      · rw [if_pos (congrArg PyKey.str hp), hp]
        simp
      · have hne : (k == p.1) = false := by simpa using fun h => hp h.symm
        rw [if_neg (fun h => hp (PyKey.str.inj h)), hne]

section Fields

variable [Runtime] {style : JsonStyle}

theorem readable_of_mem {d : Dict} (h : ReadableDict d) : ∀ p ∈ d, Readable p.2 := by
  induction d with
  | nil => exact fun p hp => by cases hp
  | cons q d ih =>
      obtain ⟨key, v⟩ := q
      cases key with
      | str k => exact List.forall_mem_cons.mpr ⟨h.1, ih h.2.2⟩
      | _ => exact h.elim

theorem object_of_readable {d : Dict} (h : ReadableDict d) : Object d := by
  induction d with
  | nil => exact ⟨fun _ hp => absurd hp List.not_mem_nil, List.nodup_nil⟩
  | cons q d ih =>
      obtain ⟨key, v⟩ := q
      cases key with
      | str k =>
          obtain ⟨-, hnone, hrest⟩ := h
          have hobject := ih hrest
          refine ⟨List.forall_mem_cons.mpr ⟨⟨k, rfl⟩, hobject.str⟩, ?_⟩
          rw [List.map_cons, List.nodup_cons]
          exact ⟨not_mem_of_find_none hnone, hobject.nodup⟩
      | _ => exact h.elim

theorem readable_of_object {d : Dict} (h : Object d) (hvalues : ∀ p ∈ d, Readable p.2) :
    ReadableDict d := by
  induction d with
  | nil => trivial
  | cons q d ih =>
      obtain ⟨key, v⟩ := q
      obtain ⟨k, rfl⟩ := h.str _ List.mem_cons_self
      have hnodup := h.nodup
      rw [List.map_cons, List.nodup_cons] at hnodup
      have hrest : Object d := ⟨fun p hp => h.str p (List.mem_cons_of_mem _ hp), hnodup.2⟩
      refine ⟨hvalues _ List.mem_cons_self, ?_,
        ih hrest fun p hp => hvalues p (List.mem_cons_of_mem _ hp)⟩
      rcases hfind : Dict.find d k with _ | w
      · rfl
      · exact absurd (List.mem_map_of_mem (mem_of_find hfind)) hnodup.1

/-- A record of values that are readable once read is readable once read. -/
theorem Record.readable {d : Dict} (h : Record d) (hsort : style.sortKeys = true)
    (hvalues : ∀ p ∈ d, Readable (reread style p.2)) : Readable (reread style (.dict d)) := by
  have hsorted := h.sortByKey.object
  rw [h.reread_eq hsort, Readable]
  apply readable_of_object
  · refine ⟨?_, ?_⟩
    · intro p hp
      obtain ⟨q, hq, rfl⟩ := List.mem_map.mp hp
      exact hsorted.str q hq
    · rw [rereadRecord, List.map_map]
      exact hsorted.nodup
  · intro p hp
    obtain ⟨q, hq, rfl⟩ := List.mem_map.mp hp
    exact hvalues q ((List.perm_insertionSort _ d).mem_iff.mp hq)

mutual

theorem floatsRead_of_readable : ∀ v : PyVal, Readable v → FloatsRead v
  | .float _, h => h
  | .list xs, h => floatsRead_of_readableList xs h
  | .dict d, h => floatsRead_of_readableDict d h
  | .none, _ => trivial
  | .bool _, _ => trivial
  | .int _, _ => trivial
  | .str _, _ => trivial
  | .tuple _, h => h.elim
  | .object _ _, h => h.elim

theorem floatsRead_of_readableList : ∀ xs : List PyVal, ReadableList xs → FloatsReadList xs
  | [], _ => trivial
  | x :: xs, h => ⟨floatsRead_of_readable x h.1, floatsRead_of_readableList xs h.2⟩

theorem floatsRead_of_readableDict : ∀ d : List (PyKey × PyVal), ReadableDict d → FloatsReadDict d
  | [], _ => trivial
  | (.str _, v) :: rest, h =>
    ⟨floatsRead_of_readable v h.1, floatsRead_of_readableDict rest h.2.2⟩

end

/-- Under a plain key an object is read with the value it was written with. -/
theorem Object.find_reread {d : Dict} (h : Object d) {k : Str} (hk : Plain k) {v : PyVal}
    (hv : Dict.find d k = some v) :
    ∃ e, reread style (.dict d) = .dict e ∧ Dict.find e k = some (reread style v) := by
  refine ⟨_, reread_dict style d, ?_⟩
  have hperm : (if style.sortKeys then sortByKey d else d).Perm d := by
    split
    · exact List.perm_insertionSort _ d
    · exact List.Perm.refl d
  rw [find_strEntries, rereadEntries]
  apply StrDict.find_update
  · intro p hp heq
    obtain ⟨⟨key, w⟩, hmem, rfl⟩ := List.mem_map.mp hp
    have hmem := hperm.mem_iff.mp hmem
    obtain ⟨k', rfl⟩ := h.str _ hmem
    obtain rfl := rereadStr_eq_plain hk heq
    rw [h.eq_of_mem hv hmem]
  · right
    refine List.mem_map.mpr ⟨(.str k, v), hperm.mem_iff.mpr (mem_of_find hv), ?_⟩
    have hkey : rereadKey style.ensureAscii (.str k) = k := rereadStr_plain _ hk
    rw [hkey]

/-- Objects that are read alike hold values that are read alike. -/
theorem Object.field_of_reread {d e : Dict} (hd : Object d) (he : Object e)
    (h : reread style (.dict d) = reread style (.dict e)) {k : Str} (hk : Plain k) {v w : PyVal}
    (hv : Dict.find d k = some v) (hw : Dict.find e k = some w) :
    reread style v = reread style w := by
  obtain ⟨d', hd', hfind⟩ := @Object.find_reread _ style _ hd _ hk _ hv
  obtain ⟨e', he', hfind'⟩ := @Object.find_reread _ style _ he _ hk _ hw
  rw [hd', he'] at h
  rw [PyVal.dict.inj h, hfind'] at hfind
  exact (Option.some.inj hfind).symm

/-- Values with one text are read alike. -/
theorem reread_eq_of_dumps {v w : PyVal} (hv : FloatsRead v) (hw : FloatsRead w) {text : Str}
    (h : dumps style v = .ok text) (h' : dumps style w = .ok text) :
    reread style v = reread style w := by
  have hloads := loads_reread hv h
  rw [loads_reread hw h'] at hloads
  exact (Except.ok.inj hloads).symm

/-- What is read as an integer is one. -/
theorem eq_int_of_reread {v : PyVal} {i : ℤ} (h : reread style v = .int i) : v = .int i := by
  cases v with
  | int j => exact h
  | _ => simp [reread] at h

end Fields

end EasyBlockchain.Py
