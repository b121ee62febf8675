/-
A save that is not disturbed, and the load after it.

Three JSON texts are made of a chain: the hashes of its blocks escape everything
that is not ASCII, the checksum is over sorted UTF-8, and the file is indented
UTF-8. A chain that could be hashed may still hold a string that UTF-8 cannot
encode, and the checksum of what is read back differs where keys that are not
texts sort in another order than their texts.
-/
import EasyBlockchain.BlockChain
import EasyBlockchain.StoreAtomicity
import EasyBlockchain.Py.JsonStable
import EasyBlockchain.Py.JsonText

set_option autoImplicit false

namespace EasyBlockchain

open Py

section RoundTrip

variable [Runtime]

/-- The value that JSON makes of a value: the texts of its keys, lists for its
tuples. -/
def jsonNormal (v : PyVal) : PyVal := reread indentedUtf8 v

theorem compute_checksum_isOk {v : PyVal} :
    (∃ checksum, compute_checksum v = .ok checksum) ↔ Writable true v := by
  refine Iff.trans ?_ (@encode_dumps _ sortedUtf8 rfl v)
  simp only [compute_checksum, bind_eq_ok, pure_eq, Except.ok.injEq]
  constructor
  · rintro ⟨_, text, htext, bytes, hbytes, rfl⟩
    exact ⟨text, bytes, htext, hbytes⟩
  · rintro ⟨text, bytes, htext, hbytes⟩
    exact ⟨_, text, htext, bytes, hbytes, rfl⟩

theorem dump_json_bytes_isOk {v : PyVal} :
    (∃ bytes, dump_json_bytes v = .ok bytes) ↔ Writable false v := by
  refine Iff.trans ?_ (@encode_dumps _ indentedUtf8 rfl v)
  simp only [dump_json_bytes, bind_eq_ok]
  exact exists_comm

/-- The sorted texts of a value and of what JSON makes of it differ, and have one
checksum. -/
def ChecksumsCollide (v : PyVal) : Prop :=
  ∃ text text' payload payload', dumps sortedUtf8 v = .ok text ∧
    dumps sortedUtf8 (jsonNormal v) = .ok text' ∧ encode text = .ok payload ∧
    encode text' = .ok payload' ∧ payload ≠ payload' ∧
    hexdigest (Runtime.sha256 payload) = hexdigest (Runtime.sha256 payload')

/-- A checksum is that of what JSON makes of the value exactly when the keys are
stable, but for a collision. -/
theorem compute_checksum_jsonNormal {v : PyVal} (hfloats : FloatsRead v) {checksum : Str}
    (h : compute_checksum v = .ok checksum) :
    compute_checksum (jsonNormal v) = .ok checksum ↔ KeysStable false v ∨ ChecksumsCollide v := by
  simp only [compute_checksum, bind_eq_ok, pure_eq, Except.ok.injEq] at h
  obtain ⟨text, htext, payload, hpayload, rfl⟩ := h
  have hstable := @dumps_reread_iff _ sortedUtf8 indentedUtf8 rfl rfl rfl _ hfloats _ htext
  constructor
  · intro hsum
    simp only [compute_checksum, bind_eq_ok, pure_eq, Except.ok.injEq] at hsum
    obtain ⟨text', htext', payload', hpayload', hdigest⟩ := hsum
    by_cases hsame : payload = payload'
    · -- one payload has one text
      subst hsame
      have heq := utf8_inj (orRaise_eq_ok.mp hpayload) (orRaise_eq_ok.mp hpayload')
      subst heq
      exact Or.inl (hstable.mp htext')
    · exact Or.inr ⟨text, text', payload, payload', htext, htext', hpayload, hpayload', hsame,
        hdigest.symm⟩
  · rintro (hkeys | ⟨text₁, text', payload₁, payload', htext₁, htext', hpayload₁, hpayload', -,
      hdigest⟩)
    · simp only [compute_checksum, jsonNormal, hstable.mpr hkeys, hpayload, ok_bind, pure_eq]
    · obtain rfl := Except.ok.inj (htext.symm.trans htext₁)
      obtain rfl := Except.ok.inj (hpayload.symm.trans hpayload₁)
      simp only [compute_checksum, htext', hpayload', ok_bind, pure_eq, hdigest]

/-- What decides whether a state is stored and read back: every text in it can be
encoded, its integers have a text, and the keys of the chain sort as their texts
do. -/
structure StoresWell (settings : PersistenceSettings) (state : PersistedState) : Prop where
  chain : Writable true (.list state.chain)
  keys : KeysStable false (.list state.chain) ∨ ChecksumsCollide (.list state.chain)
  genesis_stakes : ∀ p ∈ state.genesis_stakes.entries, Scalars p.1 ∧ (strOfInt p.2).isSome
  node_id : Scalars state.node_id
  genesis_prev_hash : Scalars state.genesis_prev_hash
  schema_version : (strOfInt settings.schema_version).isSome

/-- The stakes can be written when every id can be encoded and every stake has a
text. -/
theorem writable_stakesValue {sortKeys : Bool} {stakes : StakeMap} :
    Writable sortKeys (stakesValue stakes) ↔
      ∀ p ∈ stakes.entries, Scalars p.1 ∧ (strOfInt p.2).isSome := by
  have hsorted : ∃ sorted, sortItems (stakes.entries.map fun p => (PyKey.str p.1, PyVal.int p.2))
      = .ok sorted := by
    apply sortItems_of_str
    intro p hp
    obtain ⟨q, -, rfl⟩ := List.mem_map.mp hp
    exact ⟨q.1, rfl⟩
  have hdict : ∀ l : List (Str × ℤ),
      WritableDict sortKeys (l.map fun p => (PyKey.str p.1, PyVal.int p.2)) ↔
        ∀ p ∈ l, Scalars p.1 ∧ (strOfInt p.2).isSome := by
    intro l
    induction l with
    | nil => simp [WritableDict]
    | cons p l ih =>
        rw [List.forall_mem_cons, List.map_cons, WritableDict, ih, Writable]
        simp [keyText, and_assoc]
  rw [stakesValue, Writable, hdict]
  exact and_iff_right fun _ => hsorted

theorem scalars_checksum {v : PyVal} {checksum : Str} (h : compute_checksum v = .ok checksum) :
    Scalars checksum := by
  simp only [compute_checksum, bind_eq_ok, pure_eq, Except.ok.injEq] at h
  obtain ⟨_, -, _, -, rfl⟩ := h
  exact scalars_hexdigest _

/-- The meta file can be written when its three fields can that are not
checksums. -/
theorem writable_meta_of {settings : PersistenceSettings} {state : PersistedState}
    {chain_checksum stakes_checksum : Str} (hchain : Scalars chain_checksum)
    (hstakes : Scalars stakes_checksum) :
    Writable false (.dict (meta_of settings state chain_checksum stakes_checksum)) ↔
      (strOfInt settings.schema_version).isSome ∧ Scalars state.node_id ∧
        Scalars state.genesis_prev_hash := by
  have hkey : ∀ k : Str, k.any isSurrogate = false →
      ∃ text, keyText (.str k) = .ok text ∧ Scalars text := fun k hk => ⟨k, rfl, scalars_of_any hk⟩
  simp only [meta_of, Writable, WritableDict, Bool.false_eq_true, IsEmpty.forall_iff, true_and,
    hchain, hstakes, and_true]
  constructor
  · rintro ⟨-, hversion, -, hnode, -, hgenesis, -⟩
    exact ⟨hversion, hnode, hgenesis⟩
  · rintro ⟨hversion, hnode, hgenesis⟩
    exact ⟨hkey _ (by decide), hversion, hkey _ (by decide), hnode, hkey _ (by decide), hgenesis,
      hkey _ (by decide), hkey _ (by decide)⟩

/-- A save whose texts can all be written, of a chain that is not too large, runs
to its end. -/
theorem save_of_storesWell {settings : PersistenceSettings} {state : PersistedState}
    (h : StoresWell settings state)
    (hsize : ∀ bytes, dump_json_bytes (.list state.chain) = .ok bytes →
      ¬ (0 < settings.max_chain_file_bytes ∧ settings.max_chain_file_bytes < bytes.length)) :
    (save settings state).2 = .ok () := by
  obtain ⟨cc, hcc⟩ := compute_checksum_isOk.mpr h.chain
  obtain ⟨sc, hsc⟩ := compute_checksum_isOk.mpr (writable_stakesValue.mpr h.genesis_stakes)
  obtain ⟨chain_bytes, hchain⟩ := dump_json_bytes_isOk.mpr (writable_unsorted _ h.chain)
  obtain ⟨stakes_bytes, hstakes⟩ :=
    dump_json_bytes_isOk.mpr (writable_stakesValue.mpr h.genesis_stakes)
  obtain ⟨meta_bytes, hmeta⟩ := dump_json_bytes_isOk.mpr
    ((writable_meta_of (scalars_checksum hcc) (scalars_checksum hsc)).mpr
      ⟨h.schema_version, h.node_id, h.genesis_prev_hash⟩)
  have hpass : ∀ {α : Type} {x : PyM α} {a : α}, x = .ok a → passing x = .ok a := by
    rintro α x a rfl
    rfl
  have hprepare : prepare_save settings state
      = .ok (meta_of settings state cc sc, chain_bytes) := by
    rw [prepare_save, hpass hcc, ok_bind, hpass hsc, ok_bind, hpass hchain, ok_bind,
      if_neg (hsize chain_bytes hchain)]
    rfl
  simp only [save, hprepare, hpass hstakes, hpass hmeta]

/-- A state is stored and read back exactly when it stores well: the loaded
chain is the JSON form of the stored one and has its checksum, and the rest is
the same. -/
theorem save_load_iff [Stringify] (settings : PersistenceSettings) (state : PersistedState)
    (files : Files) (hfloats : FloatsRead (.list state.chain))
    (hsize : ∀ bytes, dump_json_bytes (.list state.chain) = .ok bytes →
      ¬ (0 < settings.max_chain_file_bytes ∧ settings.max_chain_file_bytes < bytes.length)) :
    ((save settings state).2 = .ok () ∧ ∃ loaded,
      load settings (applyAll (save settings state).1 files) = .ok (some loaded) ∧
        PyVal.list loaded.chain = jsonNormal (.list state.chain) ∧
        compute_checksum (.list loaded.chain) = compute_checksum (.list state.chain) ∧
        loaded.node_id = state.node_id ∧
        loaded.genesis_prev_hash = state.genesis_prev_hash ∧
        loaded.genesis_stakes = state.genesis_stakes) ↔ StoresWell settings state := by
  constructor
  · rintro ⟨hsave, loaded, -, hchain, hsum, -⟩
    obtain ⟨cc, sc, chain_bytes, stakes_bytes, meta_bytes, hcc, hsc, -, -, -, hmeta, -⟩ :=
      save_ok hsave
    have hfields := (writable_meta_of (scalars_checksum hcc) (scalars_checksum hsc)).mp
      (dump_json_bytes_isOk.mp ⟨meta_bytes, hmeta⟩)
    refine ⟨compute_checksum_isOk.mp ⟨cc, hcc⟩, ?_,
      writable_stakesValue.mp (compute_checksum_isOk.mp ⟨sc, hsc⟩), hfields.2.1, hfields.2.2,
      hfields.1⟩
    apply (compute_checksum_jsonNormal hfloats hcc).mp
    rw [← hchain, hsum, hcc]
  · intro h
    have hsave := save_of_storesWell h hsize
    obtain ⟨cc, sc, hcc, hsc, hholding⟩ := holding_save hsave files
    obtain ⟨_, -, chain_bytes, _, _, -, -, hbytes, -⟩ := save_ok hsave
    simp only [dump_json_bytes, bind_eq_ok] at hbytes
    obtain ⟨text, htext, -⟩ := hbytes
    have hchecksum := (compute_checksum_jsonNormal hfloats hcc).mpr h.keys
    have hreread : RereadAs state.chain (rereadList indentedUtf8 state.chain) cc :=
      ⟨⟨text, htext, loads_reread hfloats htext⟩, hchecksum⟩
    refine ⟨hsave, _, ((load_holding hholding).2 _).mpr ⟨_, hreread, hsc, rfl⟩, rfl, ?_, rfl, rfl,
      rfl⟩
    exact hchecksum.trans hcc.symm

end RoundTrip

/-! A node mines a block from any data it is given. The hashes escape a lone
surrogate, so the block is in the chain, and the chain cannot be saved. Keys that
are integers are saved, and the chain cannot be loaded: 2 is before 10 and "10"
is before "2". -/

namespace StoredData

attribute [local instance] cpython letterRsa

local instance : Stringify := ⟨fun _ => []⟩

open StoppedSave in
/-- A mined block with plain texts is stored and read back. -/
theorem saves_and_loads :
    (save settings (state [block])).2 = .ok () ∧ ∃ loaded,
      load settings (applyAll (save settings (state [block])).1 fun _ => none)
          = .ok (some loaded) ∧
        PyVal.list loaded.chain = jsonNormal (.list [block]) ∧
        compute_checksum (.list loaded.chain) = compute_checksum (.list [block]) ∧
        loaded.node_id = lit "node" ∧ loaded.genesis_prev_hash = DEFAULT_GENESIS_PREV_HASH ∧
        loaded.genesis_stakes = .empty := by
  have hsmall : ((dump_json_bytes (.list [block])).toOption.getD []).length ≤ 1000 := by
    decide +kernel
  have hsum : (compute_checksum (.list [block])).isOk = true := by decide +kernel
  apply (save_load_iff settings (state [block]) (fun _ => none) _ _).mpr
  · refine ⟨?_, Or.inl ?_, by simp [state, StrDict.empty], scalars_of_any (by decide),
      scalars_of_any (by decide), by decide⟩
    · rcases h : compute_checksum (.list [block]) with e | checksum
      · rw [h] at hsum
        cases hsum
      · exact compute_checksum_isOk.mp ⟨checksum, h⟩
    · exact ⟨⟨by decide, trivial, trivial, ⟨by decide, trivial, trivial, trivial, trivial, trivial,
        trivial⟩, trivial, ⟨by decide, trivial, trivial, trivial⟩, trivial⟩, trivial⟩
  · exact ⟨⟨trivial, trivial, ⟨trivial, trivial, trivial, trivial, trivial, trivial⟩, trivial,
      ⟨trivial, trivial, trivial⟩, trivial⟩, trivial⟩
  · intro bytes hbytes
    change dump_json_bytes (.list [block]) = .ok bytes at hbytes
    rw [hbytes] at hsmall
    have hlength : bytes.length ≤ 1000 := hsmall
    simp only [settings]
    omega

def chain : BlockChain :=
  .new (some (.pow ⟨⟨1, 10, .fin 2, 1000, 10⟩, DEFAULT_GENESIS_PREV_HASH⟩)) DEFAULT_GENESIS_PREV_HASH

/-- A local transaction with the given input data. -/
def input (data : PyVal) : BlockChain.LocalInput :=
  ⟨data, .str (lit "s"), ⟨2024, 1, 1, 0, 0, 0, validFields_2024⟩, []⟩

/-- What is stored after one block with the given data. -/
def stored (data : PyVal) : PersistedState :=
  ⟨(chain.add_new_block (input data)).2.chain, lit "node", DEFAULT_GENESIS_PREV_HASH, .empty, none,
    none⟩

def surrogate : PyVal := .list [.str [codePoint 0xd800]]

def numbered : PyVal := .dict [(.int 2, .str (lit "a")), (.int 10, .str (lit "b"))]

theorem not_stored :
    ((chain.add_new_block (input surrogate)).1.isOk = true ∧
      (save StoppedSave.settings (stored surrogate)).2 = .error (.other .unicodeEncodeError)) ∧
    (chain.add_new_block (input numbered)).1.isOk = true ∧
      (save StoppedSave.settings (stored numbered)).2 = .ok () ∧
      (load StoppedSave.settings
          (applyAll (save StoppedSave.settings (stored numbered)).1 fun _ => none)).map (fun _ => ())
        = .error (.store .chain_checksum_mismatch) := by
  refine ⟨⟨?_, ?_⟩, ?_, ?_, ?_⟩
  · decide +kernel
  · decide +kernel
  · decide +kernel
  · decide +kernel
  · decide +kernel

end StoredData

end EasyBlockchain
