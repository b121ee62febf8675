/-
What a data directory can hold when its meta file is the one that was saved.

The other files may hold any bytes. The meta file has a checksum of the chain
and one of the genesis stakes, each over a text with sorted keys, so a load that
succeeds finds the saved values in some layout, or a collision of the hash. The
meta file itself has no checksum: its own fields are only as good as the file.
-/
import EasyBlockchain.StoreRoundTrip
import EasyBlockchain.Py.JsonValues

set_option autoImplicit false

namespace EasyBlockchain

open Py

section Tampering

variable [Runtime]

/-- The bytes that `_compute_checksum` hashes. -/
def checksum_payload (data : PyVal) : PyM (List UInt8) := do
  let text ← dumps sortedUtf8 data
  encode text

/-- Two values with different bytes to hash and one checksum. -/
def Collide (v w : PyVal) : Prop :=
  ∃ payload payload', checksum_payload v = .ok payload ∧ checksum_payload w = .ok payload' ∧
    payload ≠ payload' ∧ hexdigest (Runtime.sha256 payload) = hexdigest (Runtime.sha256 payload')

/-- One checksum is one text, but for a collision. -/
theorem text_of_checksum {v w : PyVal} {checksum : Str} (hv : compute_checksum v = .ok checksum)
    (hw : compute_checksum w = .ok checksum) :
    (∃ text, dumps sortedUtf8 v = .ok text ∧ dumps sortedUtf8 w = .ok text) ∨ Collide v w := by
  simp only [compute_checksum, bind_eq_ok, pure_eq, Except.ok.injEq] at hv hw
  obtain ⟨text, htext, payload, hpayload, rfl⟩ := hv
  obtain ⟨text', htext', payload', hpayload', hdigest⟩ := hw
  by_cases hsame : payload = payload'
  · left
    subst hsame
    have heq := utf8_inj (orRaise_eq_ok.mp hpayload) (orRaise_eq_ok.mp hpayload')
    exact ⟨text, htext, heq ▸ htext'⟩
  · right
    refine ⟨payload, payload', ?_, ?_, hsame, hdigest.symm⟩
    · rw [checksum_payload, htext, ok_bind, hpayload]
    · rw [checksum_payload, htext', ok_bind, hpayload']

/-! ## What a load has read -/

theorem isJson_read_json {files : Files} {name : FileName} {v : PyVal}
    (h : read_json files name = .ok v) : v.isJson = true := by
  unfold read_json at h
  split at h
  · cases h
  · split at h
    · cases h
    · split at h
      · rename_i w hloads
        obtain rfl := Except.ok.inj h
        exact isJson_loads hloads
      · split at h
        · cases h
        · cases h

omit [Runtime] in
theorem passing_eq_ok {α : Type} {x : PyM α} {a : α} : passing x = .ok a ↔ x = .ok a := by
  cases x <;> simp [passing, Except.mapError]

theorem load_chain_ok {settings : PersistenceSettings} {files : Files} {metadata : Dict}
    {chain : List Block} {checksum : Str} (h : load_chain settings files metadata = .ok chain)
    (hstored : Dict.find metadata (lit "chain_checksum") = some (.str checksum)) :
    read_json files .chain_file = .ok (.list chain) ∧
      compute_checksum (.list chain) = .ok checksum := by
  unfold load_chain at h
  split at h
  · cases h
  · split at h
    · cases h
    · obtain ⟨v, hv, h⟩ := bind_eq_ok.mp h
      cases v with
      | list chain_data =>
          simp only [hstored, Option.getD_some, bind_eq_ok, check_checksum_eq_ok, pure_eq,
            Except.ok.injEq] at h
          obtain ⟨-, hsum, rfl⟩ := h
          exact ⟨hv, hsum⟩
      | _ => cases h

theorem load_stakes_ok {files : Files} {metadata : Dict} {stakes : StakeMap} {checksum : Str}
    (h : load_genesis_stakes files metadata = .ok stakes)
    (hstored : Dict.find metadata (lit "genesis_stakes_checksum") = some (.str checksum)) :
    ∃ d, read_json files .genesis_stakes_file = .ok (.dict d) ∧
      read_stakes .empty d = .ok stakes ∧ compute_checksum (.dict d) = .ok checksum := by
  unfold load_genesis_stakes at h
  split at h
  · -- the file may not be missing when its checksum is there
    rw [hstored] at h
    cases h
  · obtain ⟨v, hv, h⟩ := bind_eq_ok.mp h
    cases v with
    | dict d =>
        obtain ⟨m, hm, h⟩ := bind_eq_ok.mp h
        simp only [hstored, Option.getD_some, bind_eq_ok, check_checksum_eq_ok, pure_eq,
          Except.ok.injEq] at h
        obtain ⟨-, hsum, rfl⟩ := h
        exact ⟨d, hv, hm, hsum⟩
    | _ => cases h

omit [Runtime] in
/-- Every item of the stakes file is an integer in the result. -/
theorem find_read_stakes {d : Dict} (hd : Object d) {acc stakes : StakeMap}
    (h : read_stakes acc d = .ok stakes) (id : Str) :
    match Dict.find d id with
    | some v => ProofOfWork.try_int v = .ok (stakes.find id)
    | none => stakes.find id = acc.find id := by
  induction d generalizing acc with
  | nil =>
      obtain rfl := Except.ok.inj h
      rfl
  | cons p rest ih =>
      obtain ⟨key, v⟩ := p
      obtain ⟨k, hk⟩ := hd.str _ List.mem_cons_self
      obtain rfl : key = .str k := hk
      have hnodup := hd.nodup
      rw [List.map_cons, List.nodup_cons] at hnodup
      have hrest : Object rest := ⟨fun q hq => hd.str q (List.mem_cons_of_mem _ hq), hnodup.2⟩
      rw [read_stakes] at h
      obtain ⟨stake, hstake, h⟩ := bind_eq_ok.mp h
      rw [passing_eq_ok] at hstake
      cases stake with
      | none => cases h
      | some stake =>
          have hfind := ih hrest h
          rw [Dict.find_cons]
          by_cases hid : k = id
          · -- the rest of the items leaves this one as it is
            subst hid
            have hnone : Dict.find rest k = none := by
              rcases hv : Dict.find rest k with _ | w
              · rfl
              · exact absurd (List.mem_map_of_mem (mem_of_find hv)) hnodup.1
            rw [hnone] at hfind
            have hset : stakes.find k = some stake := by
              rw [hfind, StrDict.find_set, if_pos rfl]
            rw [if_pos rfl, hset]
            exact hstake
          · rw [if_neg (fun heq => hid (PyKey.str.inj heq))]
            have hset : (acc.set k stake).find id = acc.find id := by
              rw [StrDict.find_set, if_neg (Ne.symm hid)]
            rw [hset] at hfind
            exact hfind

/-- Stakes with the sorted text of other stakes are these stakes. -/
theorem stakes_of_text {d : Dict} (hd : Object d) (hfloats : FloatsRead (.dict d))
    {saved loaded : StakeMap} {text : Str} (h : dumps sortedUtf8 (.dict d) = .ok text)
    (h' : dumps sortedUtf8 (stakesValue saved) = .ok text)
    (hload : read_stakes .empty d = .ok loaded) (id : Str) : loaded.find id = saved.find id := by
  have hreadable := readable_stakesValue saved
  have hobject := object_of_readable hreadable
  have hsame := reread_eq_of_dumps hfloats (floatsRead_of_readable _ hreadable) h h'
  have hfind := hd.find_of_reread hobject rfl rfl hsame id
  have hstakes : Dict.find (saved.entries.map fun p => (PyKey.str p.1, PyVal.int p.2)) id
      = (saved.find id).map .int := by
    have hmap : ∀ l : List (Str × ℤ), Dict.find (l.map fun p => (PyKey.str p.1, PyVal.int p.2)) id
        = (l.lookup id).map .int := by
      intro l
      induction l with
      | nil => rfl
      | cons p l ih =>
          rw [List.map_cons, Dict.find_cons, ih, List.lookup_cons]
          by_cases hp : p.1 = id
          · rw [if_pos (congrArg PyKey.str hp), hp]
            simp
          · have hne : (id == p.1) = false := by simpa using fun heq => hp heq.symm
            rw [if_neg (fun heq => hp (PyKey.str.inj heq)), hne]
    exact hmap saved.entries
  rw [hstakes] at hfind
  have hread := find_read_stakes hd hload id
  rcases hv : Dict.find d id with _ | v
  · rw [hv] at hread hfind
    have hempty : loaded.find id = none := hread
    rcases hs : saved.find id with _ | n
    · exact hempty
    · rw [hs] at hfind
      cases hfind
  · rw [hv] at hread hfind
    rcases hs : saved.find id with _ | n
    · rw [hs] at hfind
      cases hfind
    · rw [hs] at hfind
      obtain rfl : v = .int n := eq_int_of_reread (Option.some.inj hfind)
      exact (Except.ok.inj hread).symm

/-- A load finds the chain that was saved, as JSON gives it back and up to the
order of its keys, and the same genesis stakes, or a collision of the hash. -/
theorem tampering_detected [Stringify] {settings : PersistenceSettings} {state : PersistedState}
    {before files : Files} (hsave : (save settings state).2 = .ok ())
    (hmeta : files (.file .meta_file) = applyAll (save settings state).1 before (.file .meta_file))
    (hsaved : FloatsRead (.list state.chain))
    (hread : ∀ name v, read_json files name = .ok v → FloatsRead v)
    {loaded : PersistedState} (hload : load settings files = .ok (some loaded)) :
    (canon (.list loaded.chain) = reread sortedUtf8 (.list state.chain) ∨
        Collide (.list loaded.chain) (.list state.chain)) ∧
      ((∀ id, loaded.genesis_stakes.find id = state.genesis_stakes.find id) ∨
        ∃ d, read_json files .genesis_stakes_file = .ok (.dict d) ∧
          Collide (.dict d) (stakesValue state.genesis_stakes)) ∧
      loaded.node_id = state.node_id ∧ loaded.genesis_prev_hash = state.genesis_prev_hash := by
  obtain ⟨cc, sc, hcc, hsc, hholding⟩ := holding_save hsave before
  have hholds : HoldsJson files .meta_file (.dict (meta_of settings state cc sc)) := by
    obtain ⟨bytes, hbytes, hfile⟩ := hholding.metadata
    exact ⟨bytes, hbytes, hmeta.trans hfile⟩
  have hmetadata := read_json_of_holds (readable_meta_of settings state cc sc) hholds
  have hversion : Dict.find (meta_of settings state cc sc) (lit "schema_version")
      = some (.int settings.schema_version) := rfl
  have hload_meta : load_meta settings files = .ok (meta_of settings state cc sc) := by
    simp [load_meta, hmetadata, hversion, passing, ProofOfWork.try_int, PyVal.toInt,
      Except.mapError]
  obtain ⟨meta_bytes, -, hmeta_file⟩ := hholds
  simp only [load, hmeta_file, hload_meta, ok_bind, bind_eq_ok, pure_eq, Except.ok.injEq,
    Option.some.injEq] at hload
  obtain ⟨chain, hchain, stakes, hstakes, rfl⟩ := hload
  obtain ⟨hchain_read, hchain_sum⟩ := load_chain_ok hchain rfl
  obtain ⟨d, hd_read, hd_stakes, hd_sum⟩ := load_stakes_ok hstakes rfl
  refine ⟨?_, ?_, rfl, rfl⟩
  · rcases text_of_checksum hchain_sum hcc with ⟨text, htext, htext'⟩ | hcollide
    · left
      exact canon_eq_reread_of_dumps rfl rfl (isJson_read_json hchain_read) (hread _ _ hchain_read)
        hsaved htext htext'
    · exact Or.inr hcollide
  · rcases text_of_checksum hd_sum hsc with ⟨text, htext, htext'⟩ | hcollide
    · left
      have hobject : Object d := (isJsonDict_iff.mp (isJson_read_json hd_read)).1
      exact stakes_of_text hobject (hread _ _ hd_read) htext htext' hd_stakes
    · exact Or.inr ⟨d, hd_read, hcollide⟩

end Tampering

/-! The chain file of a saved block in another layout. -/

namespace StoppedSave

attribute [local instance] cpython

local instance : Stringify := ⟨fun _ => []⟩

/-- The bytes of the chain, sorted and on one line. -/
def oneLine : List UInt8 := (checksum_payload (.list [block])).toOption.getD []

def rewritten : Files :=
  Function.update (applyAll (save settings (state [block])).1 fun _ => none) (.file .chain_file)
    (some oneLine)

/-- The other files are as they were saved. -/
theorem rewritten_of_ne {name : FileName} (h : name ≠ .chain_file) : rewritten (.file name)
    = applyAll (save settings (state [block])).1 (fun _ => none) (.file name) := by
  unfold rewritten
  exact Function.update_of_ne (fun heq => h (Path.file.inj heq)) _ _

theorem holds_rewritten {name : FileName} (h : name ≠ .chain_file) {v : PyVal}
    (hv : HoldsJson (applyAll (save settings (state [block])).1 fun _ => none) name v) :
    HoldsJson rewritten name v := by
  obtain ⟨bytes, hbytes, hfile⟩ := hv
  exact ⟨bytes, hbytes, (rewritten_of_ne h).trans hfile⟩

theorem floatsRead_block : FloatsRead (.list [block]) :=
  ⟨⟨trivial, trivial, ⟨trivial, trivial, trivial, trivial, trivial, trivial⟩, trivial,
    ⟨trivial, trivial, trivial⟩, trivial⟩, trivial⟩

/-- The rewritten file is read as the block with its keys in order. -/
theorem read_rewritten {v : PyVal} (h : read_json rewritten .chain_file = .ok v) :
    FloatsRead v := by
  have hsome : (checksum_payload (.list [block])).isOk = true := by decide +kernel
  rcases hpayload : checksum_payload (.list [block]) with e | payload
  · rw [hpayload] at hsome
    cases hsome
  · have hfile : rewritten (.file .chain_file) = some payload := by
      have hline : oneLine = payload := by rw [oneLine, hpayload]; rfl
      rw [rewritten, Function.update_self, hline]
    obtain ⟨text, htext, hutf8⟩ := bind_eq_ok.mp hpayload
    have hloads := loads_reread floatsRead_block htext
    simp only [read_json, hfile, utf8Decode_utf8 (orRaise_eq_ok.mp hutf8), hloads] at h
    obtain rfl := Except.ok.inj h
    exact floatsRead_reread _ _ floatsRead_block

theorem rewritten_detected :
    ∃ loaded, load settings rewritten = .ok (some loaded) ∧
      (canon (.list loaded.chain) = reread sortedUtf8 (.list [block]) ∨
        Collide (.list loaded.chain) (.list [block])) := by
  have hsome : ((load settings rewritten).toOption.getD none).isSome = true := by decide +kernel
  obtain ⟨cc, sc, -, -, hholding⟩ := holding_save saves fun _ => none
  have hread : ∀ name v, read_json rewritten name = .ok v → FloatsRead v := by
    intro name v h
    cases name with
    | chain_file => exact read_rewritten h
    | genesis_stakes_file =>
        have hstakes := readable_stakesValue (state [block]).genesis_stakes
        have hsaved := read_json_of_holds hstakes (holds_rewritten (by decide) hholding.stakes)
        obtain rfl := Except.ok.inj (hsaved.symm.trans h)
        exact floatsRead_of_readable _ hstakes
    | meta_file =>
        have hmeta := readable_meta_of settings (state [block]) cc sc
        have hsaved := read_json_of_holds hmeta (holds_rewritten (by decide) hholding.metadata)
        obtain rfl := Except.ok.inj (hsaved.symm.trans h)
        exact floatsRead_of_readable _ hmeta
    | private_key_file =>
        have hnone : rewritten (.file .private_key_file) = none := by decide +kernel
        rw [read_json, hnone] at h
        cases h
    | p2p_identity_file =>
        have hnone : rewritten (.file .p2p_identity_file) = none := by decide +kernel
        rw [read_json, hnone] at h
        cases h
  rcases hload : load settings rewritten with e | found
  · rw [hload] at hsome
    cases hsome
  · cases found with
    | none =>
        rw [hload] at hsome
        cases hsome
    | some loaded =>
        have hmeta := rewritten_of_ne (show FileName.meta_file ≠ .chain_file by decide)
        exact ⟨loaded, rfl, (tampering_detected saves hmeta floatsRead_block hread hload).1⟩

end StoppedSave

end EasyBlockchain
