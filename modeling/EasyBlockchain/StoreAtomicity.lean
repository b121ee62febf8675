/-
A save that stops early, and what the next load makes of it.

Each of the three files is replaced atomically, but one after the other, and
the meta file, which holds the checksums of the other two, comes last. Between
the first and the last replacement the old meta file judges new files: the load
fails unless the checksums agree. So a save over an older one is atomic exactly
when the two states agree that far.
-/
import EasyBlockchain.Store
import EasyBlockchain.Py.CPython

set_option autoImplicit false

namespace EasyBlockchain

open Py

/-! ## What the operations do to the files -/

theorem applyAll_append (ops ops' : List FileOp) (files : Files) :
    applyAll (ops ++ ops') files = applyAll ops' (applyAll ops files) := by
  simp [applyAll]

/-- A file that no operation replaces keeps its contents. -/
theorem applyAll_of_not_replaced {name : FileName} {ops : List FileOp}
    (h : FileOp.replace name ∉ ops) (files : Files) :
    applyAll ops files (.file name) = files (.file name) := by
  induction ops generalizing files with
  | nil => rfl
  | cons op ops ih =>
      have hstep : applyAll (op :: ops) files = applyAll ops (op.apply files) := rfl
      rw [hstep, ih (fun hmem => h (List.mem_cons_of_mem op hmem))]
      cases op with
      | replace other =>
          have hne : name ≠ other := by
            rintro rfl
            exact h List.mem_cons_self
          rcases htmp : files (.tmp other) with _ | data
          · simp [FileOp.apply, htmp]
          · simp [FileOp.apply, htmp, hne]
      | _ => simp [FileOp.apply]

/-- Writing a file replaces it, and no other. -/
theorem applyAll_write (name : FileName) (data : List UInt8) (files : Files) (x : FileName) :
    applyAll (write_bytes_atomic name data) files (.file x)
      = if x = name then some data else files (.file x) := by
  simp only [applyAll, write_bytes_atomic, List.foldl_cons, List.foldl_nil, FileOp.apply,
    Function.update_self, Option.getD_some, List.nil_append]
  by_cases hx : x = name
  · subst hx
    simp
  · have hne : Path.file x ≠ .file name := fun h => hx (Path.file.inj h)
    simp [hx]

/-- A handler removes a temporary file, and no other. -/
theorem cleanup_file (files : Files) (op : FileOp) (x : FileName) :
    op.cleanup files (.file x) = files (.file x) := by
  cases op <;> simp [FileOp.cleanup]

/-- A stopped save has performed some of its operations, as far as files go. -/
theorem interrupted_file (ops : List FileOp) (files : Files) (stop : Stop) :
    ∃ done, ∀ x, interrupted ops files stop (.file x) = applyAll (ops.take done) files (.file x) := by
  cases stop with
  | crash done => exact ⟨done, fun x => rfl⟩
  | fail done =>
      rcases hdrop : ops.drop done with _ | ⟨op, rest⟩
      · exact ⟨ops.length, fun x => by simp only [interrupted, hdrop, List.take_length]⟩
      · exact ⟨done, fun x => by simp only [interrupted, hdrop, cleanup_file]⟩

/-- Stopping inside a write leaves every file as it was; past it, the file is
written and the stop is in the rest. -/
theorem take_write_append (name : FileName) (data : List UInt8) (rest : List FileOp)
    (files : Files) (done : ℕ) :
    (∀ x, applyAll ((write_bytes_atomic name data ++ rest).take done) files (.file x)
      = files (.file x)) ∨
    ∃ more, applyAll ((write_bytes_atomic name data ++ rest).take done) files
      = applyAll (rest.take more) (applyAll (write_bytes_atomic name data) files) := by
  have hlen : (write_bytes_atomic name data).length = 5 := rfl
  by_cases hdone : done < 5
  · left
    intro x
    rw [List.take_append_of_le_length (by omega)]
    apply applyAll_of_not_replaced
    -- the replacement is the fifth operation
    have hlast : (write_bytes_atomic name data).take done
        <+: [.mkdir, .create name, .write name data, .fsync name] := by
      have h4 : (write_bytes_atomic name data).take 4
          = [.mkdir, .create name, .write name data, .fsync name] := rfl
      rw [← h4]
      exact List.take_prefix_take_left (by omega)
    intro hmem
    simpa using hlast.subset hmem
  · right
    refine ⟨done - 5, ?_⟩
    rw [List.take_append, hlen, List.take_of_length_le (by omega), applyAll_append]

/-! ## Reading back what was written -/

section Atomicity

variable [Runtime]

/-- A file holds a value, as `_dump_json_bytes` writes it. -/
def HoldsJson (files : Files) (name : FileName) (v : PyVal) : Prop :=
  ∃ bytes, dump_json_bytes v = .ok bytes ∧ files (.file name) = some bytes

theorem read_json_of_holds {files : Files} {name : FileName} {v : PyVal} (hv : Readable v)
    (h : HoldsJson files name v) : read_json files name = .ok v := by
  obtain ⟨bytes, hbytes, hfile⟩ := h
  simp only [dump_json_bytes, bind_eq_ok, encode, orRaise_eq_ok] at hbytes
  obtain ⟨text, htext, hutf8⟩ := hbytes
  simp only [read_json, hfile, utf8Decode_utf8 hutf8, loads_dumps rfl rfl hv htext]

/-- The entries of a `dict[str, int]` can be written and read. -/
theorem readable_stakesValue (stakes : StakeMap) : Readable (stakesValue stakes) := by
  obtain ⟨l, hl⟩ := stakes
  rw [stakesValue, Readable]
  induction l with
  | nil => exact trivial
  | cons p l ih =>
      obtain ⟨k, n⟩ := p
      simp only [List.map_cons, List.nodup_cons] at hl
      refine ⟨trivial, ?_, ih hl.2⟩
      have hfind : ∀ (l : List (Str × ℤ)), k ∉ l.map Prod.fst →
          Dict.find (l.map fun p => (PyKey.str p.1, PyVal.int p.2)) k = none := by
        intro l
        induction l with
        | nil => intro _; rfl
        | cons q l ihl =>
            intro hk
            simp only [List.map_cons, List.mem_cons, not_or] at hk
            rw [List.map_cons, Dict.find_cons, ihl hk.2, if_neg]
            intro heq
            exact hk.1 (PyKey.str.inj heq).symm
      exact hfind l hl.1

omit [Runtime] in
/-- The stakes read from a stakes file are the stakes written. -/
theorem read_stakes_stakesValue (stakes : StakeMap) :
    read_stakes .empty (stakes.entries.map fun p => (PyKey.str p.1, PyVal.int p.2)) = .ok stakes := by
  have hgeneral : ∀ (l : List (Str × ℤ)) (acc : StakeMap) (result : StakeMap),
      result.entries = acc.entries ++ l →
        read_stakes acc (l.map fun p => (PyKey.str p.1, PyVal.int p.2)) = .ok result := by
    intro l
    induction l with
    | nil =>
        intro acc result h
        have hacc : acc = result := by
          obtain ⟨a, ha⟩ := acc
          obtain ⟨r, hr⟩ := result
          simp only [List.append_nil] at h
          subst h
          rfl
        rw [hacc]
        rfl
    | cons p l ih =>
        intro acc result h
        obtain ⟨k, n⟩ := p
        have hk : k ∉ acc.entries.map Prod.fst := by
          have hnodup := result.nodup
          rw [h, List.map_append, List.map_cons] at hnodup
          intro hmem
          exact (List.nodup_append.mp hnodup).2.2 k hmem k List.mem_cons_self rfl
        have hset : (acc.set k n).entries = acc.entries ++ [(k, n)] := by
          have hgo : ∀ (es : List (Str × ℤ)), k ∉ es.map Prod.fst →
              StrDict.setEntries k n es = es ++ [(k, n)] := by
            intro es
            induction es with
            | nil => intro _; rfl
            | cons q es ihe =>
                intro hq
                simp only [List.map_cons, List.mem_cons, not_or] at hq
                rw [StrDict.setEntries, if_neg (Ne.symm hq.1), ihe hq.2, List.cons_append]
          exact hgo acc.entries hk
        have hnext := ih (acc.set k n) result (by rw [hset, h]; simp)
        simpa [read_stakes, ProofOfWork.try_int, PyVal.toInt, passing, Except.mapError] using hnext
  exact hgeneral stakes.entries .empty stakes rfl

/-- The three files of a directory: a chain, stakes, and a meta file with the
given names and checksums. -/
structure Holding (settings : PersistenceSettings) (files : Files) (chain : List Block)
    (stakes : StakeMap) (old : PersistedState) (chain_checksum stakes_checksum : Str) : Prop where
  chain : HoldsJson files .chain_file (.list chain)
  size : ∀ bytes, files (.file .chain_file) = some bytes →
    ¬ (0 < settings.max_chain_file_bytes ∧ settings.max_chain_file_bytes < bytes.length)
  stakes : HoldsJson files .genesis_stakes_file (stakesValue stakes)
  metadata : HoldsJson files .meta_file (.dict (meta_of settings old chain_checksum stakes_checksum))

theorem readable_meta_of (settings : PersistenceSettings) (state : PersistedState)
    (chain_checksum stakes_checksum : Str) :
    Readable (.dict (meta_of settings state chain_checksum stakes_checksum)) := by
  refine ⟨trivial, ?_, trivial, ?_, trivial, ?_, trivial, ?_, trivial, ?_, trivial⟩
  · rfl
  · rfl
  · rfl
  · rfl
  · rfl

/-- A chain whose file is read as the chain `c`, with that checksum. -/
structure RereadAs (chain c : List Block) (checksum : Str) : Prop where
  text : ∃ text, dumps indentedUtf8 (.list chain) = .ok text ∧ loads text = .ok (.list c)
  checksum : compute_checksum (.list c) = .ok checksum

theorem check_checksum_eq_ok {stored : Str} {data : PyVal} {mismatch : ChainStoreError}
    {u : Unit} :
    check_checksum (.str stored) data mismatch = .ok u ↔ compute_checksum data = .ok stored := by
  have hstr : ∀ s t : Str, (PyVal.str s).eq (.str t) = decide (s = t) := fun s t => rfl
  rcases hc : compute_checksum data with e | actual
  · simp [check_checksum, hc, passing, Except.mapError]
  · by_cases heq : stored = actual
    · simp [check_checksum, hc, passing, Except.mapError, hstr, heq]
    · simp [check_checksum, hc, passing, Except.mapError, hstr, heq, Ne.symm heq]

/-- The stored checksum decides whether the chain file is accepted. -/
theorem load_chain_holding {settings : PersistenceSettings} {files : Files} {chain : List Block}
    {stakes : StakeMap} {old : PersistedState} {cc sc : Str} {c : List Block}
    (h : Holding settings files chain stakes old cc sc) :
    load_chain settings files (meta_of settings old cc sc) = .ok c ↔ RereadAs chain c cc := by
  obtain ⟨bytes, hbytes, hfile⟩ := h.chain
  simp only [dump_json_bytes, bind_eq_ok, encode, orRaise_eq_ok] at hbytes
  obtain ⟨text, htext, hutf8⟩ := hbytes
  have hcc : Dict.find (meta_of settings old cc sc) (lit "chain_checksum") = some (.str cc) := rfl
  have hread : ∀ v, read_json files .chain_file = .ok v ↔ loads text = .ok v := by
    intro v
    simp only [read_json, hfile, utf8Decode_utf8 hutf8]
    rcases loads text with e | w
    · by_cases he : e = .jsonDecodeError <;> simp [he]
    · simp
  have hreread : RereadAs chain c cc ↔
      loads text = .ok (.list c) ∧ compute_checksum (.list c) = .ok cc := by
    constructor
    · rintro ⟨⟨text', htext', hloads⟩, hsum⟩
      rw [htext, Except.ok.injEq] at htext'
      exact ⟨htext' ▸ hloads, hsum⟩
    · rintro ⟨hloads, hsum⟩
      exact ⟨⟨text, htext, hloads⟩, hsum⟩
  rw [hreread, ← hread]
  simp only [load_chain, hfile, if_neg (h.size _ hfile), hcc, Option.getD_some]
  rcases read_json files .chain_file with e | v
  · simp
  cases v with
  | list l =>
      simp only [ok_bind, bind_eq_ok, check_checksum_eq_ok, pure_eq, Except.ok.injEq,
        PyVal.list.injEq]
      constructor
      · rintro ⟨-, hsum, rfl⟩
        exact ⟨rfl, hsum⟩
      · rintro ⟨rfl, hsum⟩
        exact ⟨(), hsum, rfl⟩
  | _ => simp

/-- The stakes are read as they were written, where their checksum agrees. -/
theorem load_stakes_holding {settings : PersistenceSettings} {files : Files} {chain : List Block}
    {stakes : StakeMap} {old : PersistedState} {cc sc : Str} {result : StakeMap}
    (h : Holding settings files chain stakes old cc sc) :
    load_genesis_stakes files (meta_of settings old cc sc) = .ok result ↔
      compute_checksum (stakesValue stakes) = .ok sc ∧ result = stakes := by
  obtain ⟨stakes_bytes, -, hstakes_file⟩ := h.stakes
  have hsc : Dict.find (meta_of settings old cc sc) (lit "genesis_stakes_checksum")
      = some (.str sc) := rfl
  have hread := read_json_of_holds (readable_stakesValue stakes) h.stakes
  rw [stakesValue] at hread ⊢
  simp only [load_genesis_stakes, hstakes_file, hread, ok_bind, read_stakes_stakesValue,
    hsc, Option.getD_some, bind_eq_ok, check_checksum_eq_ok, pure_eq, Except.ok.injEq]
  constructor
  · rintro ⟨-, hsum, heq⟩
    exact ⟨hsum, heq.symm⟩
  · rintro ⟨hsum, heq⟩
    exact ⟨(), hsum, heq.symm⟩

/-- Checksums in the meta file decide whether a load accepts the other two. -/
theorem load_holding [Stringify] {settings : PersistenceSettings} {files : Files}
    {chain : List Block} {stakes : StakeMap} {old : PersistedState} {cc sc : Str}
    (h : Holding settings files chain stakes old cc sc) :
    load settings files ≠ .ok none ∧ ∀ s, load settings files = .ok (some s) ↔
      ∃ c, RereadAs chain c cc ∧ compute_checksum (stakesValue stakes) = .ok sc ∧
        s = { chain := c
              node_id := old.node_id
              genesis_prev_hash := old.genesis_prev_hash
              genesis_stakes := stakes
              private_key_pem :=
                if settings.store_keys_on_disk then files (.file .private_key_file) else none
              p2p_identity_pem :=
                if settings.store_keys_on_disk then files (.file .p2p_identity_file) else none } := by
  have hread := read_json_of_holds (readable_meta_of settings old cc sc) h.metadata
  set metadata := meta_of settings old cc sc with hmeta
  have hversion : Dict.find metadata (lit "schema_version") = some (.int settings.schema_version) :=
    rfl
  have hnode : Dict.find metadata (lit "node_id") = some (.str old.node_id) := rfl
  have hgenesis : Dict.find metadata (lit "genesis_prev_hash")
      = some (.str old.genesis_prev_hash) := rfl
  have hload_meta : load_meta settings files = .ok metadata := by
    simp [load_meta, hread, hversion, passing, ProofOfWork.try_int, PyVal.toInt, Except.mapError]
  obtain ⟨meta_bytes, -, hmeta_file⟩ := h.metadata
  constructor
  · simp only [load, hmeta_file, hload_meta, ok_bind, pure_eq, ne_eq, bind_eq_ok, not_exists]
    simp
  · intro s
    simp only [load, hmeta_file, hload_meta, ok_bind, pure_eq, bind_eq_ok,
      hmeta, load_chain_holding h, load_stakes_holding h, Except.ok.injEq, Option.some.injEq]
    rw [← hmeta, hnode, hgenesis]
    constructor
    · rintro ⟨c, hc, _, ⟨hsum, rfl⟩, rfl⟩
      exact ⟨c, hc, hsum, rfl⟩
    · rintro ⟨c, hc, hsum, rfl⟩
      exact ⟨c, hc, stakes, ⟨hsum, rfl⟩, rfl⟩

/-- A chain of values that JSON can express is read as it is. -/
theorem rereadAs_self {chain : List Block} (hv : Readable (.list chain)) {bytes : List UInt8}
    {checksum : Str} (hbytes : dump_json_bytes (.list chain) = .ok bytes)
    (hsum : compute_checksum (.list chain) = .ok checksum) : RereadAs chain chain checksum := by
  simp only [dump_json_bytes, bind_eq_ok] at hbytes
  obtain ⟨text, htext, -⟩ := hbytes
  exact ⟨⟨text, htext, loads_dumps rfl rfl hv htext⟩, hsum⟩

/-! ## The stages of a save -/

/-- A save that runs to its end: what it computed, and its operations. -/
theorem save_ok {settings : PersistenceSettings} {state : PersistedState}
    (h : (save settings state).2 = .ok ()) :
    ∃ chain_checksum stakes_checksum chain_bytes stakes_bytes meta_bytes,
      compute_checksum (.list state.chain) = .ok chain_checksum ∧
      compute_checksum (stakesValue state.genesis_stakes) = .ok stakes_checksum ∧
      dump_json_bytes (.list state.chain) = .ok chain_bytes ∧
      ¬ (0 < settings.max_chain_file_bytes ∧ settings.max_chain_file_bytes < chain_bytes.length) ∧
      dump_json_bytes (stakesValue state.genesis_stakes) = .ok stakes_bytes ∧
      dump_json_bytes (.dict (meta_of settings state chain_checksum stakes_checksum))
        = .ok meta_bytes ∧
      (save settings state).1 = .mkdir :: (write_bytes_atomic .chain_file chain_bytes ++
        (write_bytes_atomic .genesis_stakes_file stakes_bytes ++
          (write_bytes_atomic .meta_file meta_bytes ++
            (key_ops settings state ++ [.fsync_directory])))) := by
  have hpass : ∀ {α : Type} {x : PyM α} {a : α}, passing x = .ok a ↔ x = .ok a := by
    intro α x a
    cases x <;> simp [passing, Except.mapError]
  unfold save at h ⊢
  rcases hprepare : prepare_save settings state with e | ⟨metadata, chain_bytes⟩
  · simp [hprepare] at h
  simp only [hprepare] at h ⊢
  rcases hstakes : passing (dump_json_bytes (stakesValue state.genesis_stakes)) with e | stakes_bytes
  · simp [hstakes] at h
  simp only [hstakes] at h ⊢
  rcases hmeta : passing (dump_json_bytes (.dict metadata)) with e | meta_bytes
  · simp [hmeta] at h
  simp only [prepare_save, bind_eq_ok, hpass] at hprepare
  obtain ⟨cc, hcc, sc, hsc, bytes, hbytes, hprepare⟩ := hprepare
  split at hprepare
  · cases hprepare
  rename_i hsize
  obtain ⟨rfl, rfl⟩ := Prod.mk.inj (Except.ok.inj hprepare)
  refine ⟨cc, sc, bytes, stakes_bytes, meta_bytes, hcc, hsc, hbytes, hsize, hpass.mp hstakes,
    hpass.mp hmeta, ?_⟩
  simp [List.append_assoc]

/-- The three files of two directories are the same. -/
def SameFiles (files files' : Files) : Prop :=
  files (.file .chain_file) = files' (.file .chain_file) ∧
    files (.file .genesis_stakes_file) = files' (.file .genesis_stakes_file) ∧
    files (.file .meta_file) = files' (.file .meta_file)

theorem Holding.congr {settings : PersistenceSettings} {files files' : Files} {chain : List Block}
    {stakes : StakeMap} {old : PersistedState} {cc sc : Str} (hsame : SameFiles files files')
    (h : Holding settings files' chain stakes old cc sc) :
    Holding settings files chain stakes old cc sc := by
  obtain ⟨hchain, hstakes, hmeta⟩ := hsame
  obtain ⟨⟨cb, hcb, hcf⟩, hsize, ⟨sb, hsb, hsf⟩, mb, hmb, hmf⟩ := h
  refine ⟨⟨cb, hcb, hchain.trans hcf⟩, ?_, ⟨sb, hsb, hstakes.trans hsf⟩, mb, hmb, hmeta.trans hmf⟩
  intro bytes hbytes
  exact hsize bytes (hchain ▸ hbytes)

omit [Runtime] in
/-- The key files are written after the others and replace none of them. -/
theorem key_ops_keep (settings : PersistenceSettings) (state : PersistedState) (files : Files)
    (more : ℕ) :
    SameFiles (applyAll ((key_ops settings state ++ [FileOp.fsync_directory]).take more) files)
      files := by
  have hkeys : ∀ name, FileOp.replace name ∈ key_ops settings state ++ [FileOp.fsync_directory] →
      name = .private_key_file ∨ name = .p2p_identity_file := by
    obtain ⟨chain, node_id, genesis_prev_hash, genesis_stakes, private_key_pem, p2p_identity_pem⟩ :=
      state
    intro name hmem
    by_cases hdisk : settings.store_keys_on_disk
    · cases private_key_pem <;> cases p2p_identity_pem <;>
        simp [key_ops, write_bytes_atomic, hdisk] at hmem ⊢
      · exact Or.inr hmem
      · exact Or.inl hmem
      · exact hmem
    · simp [key_ops, hdisk] at hmem
  have hkeep : ∀ name, name ≠ .private_key_file → name ≠ .p2p_identity_file →
      applyAll ((key_ops settings state ++ [FileOp.fsync_directory]).take more) files (.file name)
        = files (.file name) := by
    intro name h1 h2
    apply applyAll_of_not_replaced
    intro hmem
    rcases hkeys name (List.mem_of_mem_take hmem) with h | h
    · exact h1 h
    · exact h2 h
  exact ⟨hkeep _ (by decide) (by decide), hkeep _ (by decide) (by decide),
    hkeep _ (by decide) (by decide)⟩

omit [Runtime] in
/-- Wherever a save stops, it has written none of the three files, the chain,
the chain and the stakes, or all of them. -/
theorem stages (settings : PersistenceSettings) (state : PersistedState)
    (chain_bytes stakes_bytes meta_bytes : List UInt8) (files : Files) (stop : Stop) :
    let files₁ := applyAll (write_bytes_atomic .chain_file chain_bytes) files
    let files₂ := applyAll (write_bytes_atomic .genesis_stakes_file stakes_bytes) files₁
    let files₃ := applyAll (write_bytes_atomic .meta_file meta_bytes) files₂
    let stopped := interrupted (.mkdir :: (write_bytes_atomic .chain_file chain_bytes ++
      (write_bytes_atomic .genesis_stakes_file stakes_bytes ++
        (write_bytes_atomic .meta_file meta_bytes ++
          (key_ops settings state ++ [.fsync_directory]))))) files stop
    SameFiles stopped files ∨ SameFiles stopped files₁ ∨ SameFiles stopped files₂ ∨
      SameFiles stopped files₃ := by
  intro files₁ files₂ files₃ stopped
  obtain ⟨done, hdone⟩ := interrupted_file (.mkdir :: (write_bytes_atomic .chain_file chain_bytes ++
      (write_bytes_atomic .genesis_stakes_file stakes_bytes ++
        (write_bytes_atomic .meta_file meta_bytes ++
          (key_ops settings state ++ [.fsync_directory]))))) files stop
  have hsame : ∀ files', (∀ x, stopped (.file x) = files' (.file x)) → SameFiles stopped files' :=
    fun files' h => ⟨h _, h _, h _⟩
  rcases done with _ | done
  · exact Or.inl (hsame _ hdone)
  simp only [List.take_succ_cons] at hdone
  have hmkdir : ∀ ops, applyAll (.mkdir :: ops) files = applyAll ops files := fun ops => rfl
  simp only [hmkdir] at hdone
  rcases take_write_append .chain_file chain_bytes _ files done with h | ⟨more, h⟩
  · exact Or.inl (hsame _ fun x => (hdone x).trans (h x))
  simp only [h] at hdone
  rcases take_write_append .genesis_stakes_file stakes_bytes _ files₁ more with h | ⟨more, h⟩
  · exact Or.inr (Or.inl (hsame _ fun x => (hdone x).trans (h x)))
  simp only [files₁, h] at hdone
  rcases take_write_append .meta_file meta_bytes _ files₂ more with h | ⟨more, h⟩
  · exact Or.inr (Or.inr (Or.inl (hsame _ fun x => (hdone x).trans (h x))))
  simp only [files₂, files₁] at h
  simp only [h] at hdone
  obtain ⟨h1, h2, h3⟩ := key_ops_keep settings state files₃ more
  exact Or.inr (Or.inr (Or.inr ⟨(hdone _).trans h1, (hdone _).trans h2, (hdone _).trans h3⟩))

/-- The three files of a state, once they are written. -/
theorem holding_written {settings : PersistenceSettings} {state : PersistedState} {cc sc : Str}
    {chain_bytes stakes_bytes meta_bytes : List UInt8}
    (hchain : dump_json_bytes (.list state.chain) = .ok chain_bytes)
    (hsize : ¬ (0 < settings.max_chain_file_bytes ∧
      settings.max_chain_file_bytes < chain_bytes.length))
    (hstakes : dump_json_bytes (stakesValue state.genesis_stakes) = .ok stakes_bytes)
    (hmeta : dump_json_bytes (.dict (meta_of settings state cc sc)) = .ok meta_bytes)
    (files : Files) :
    Holding settings (applyAll (write_bytes_atomic .meta_file meta_bytes)
      (applyAll (write_bytes_atomic .genesis_stakes_file stakes_bytes)
        (applyAll (write_bytes_atomic .chain_file chain_bytes) files)))
      state.chain state.genesis_stakes state cc sc := by
  refine ⟨⟨chain_bytes, hchain, ?_⟩, ?_, ⟨stakes_bytes, hstakes, ?_⟩, meta_bytes, hmeta, ?_⟩
  · simp [applyAll_write]
  · intro bytes hbytes
    simp only [applyAll_write, reduceCtorEq, if_false, if_true, Option.some.injEq] at hbytes
    exact hbytes ▸ hsize
  · simp [applyAll_write]
  · simp [applyAll_write]

/-- A save that runs to its end leaves its three files. -/
theorem holding_save {settings : PersistenceSettings} {state : PersistedState}
    (h : (save settings state).2 = .ok ()) (files : Files) :
    ∃ cc sc, compute_checksum (.list state.chain) = .ok cc ∧
      compute_checksum (stakesValue state.genesis_stakes) = .ok sc ∧
      Holding settings (applyAll (save settings state).1 files) state.chain state.genesis_stakes
        state cc sc := by
  obtain ⟨cc, sc, chain_bytes, stakes_bytes, meta_bytes, hcc, hsc, hchain, hsize, hstakes, hmeta,
    hops⟩ := save_ok h
  refine ⟨cc, sc, hcc, hsc, ?_⟩
  rw [hops]
  have hmkdir : ∀ ops, applyAll (FileOp.mkdir :: ops) files = applyAll ops files := fun ops => rfl
  simp only [hmkdir, applyAll_append]
  have hkeep := key_ops_keep settings state (applyAll (write_bytes_atomic .meta_file meta_bytes)
    (applyAll (write_bytes_atomic .genesis_stakes_file stakes_bytes)
      (applyAll (write_bytes_atomic .chain_file chain_bytes) files)))
    (key_ops settings state ++ [FileOp.fsync_directory]).length
  rw [List.take_length, applyAll_append] at hkeep
  exact Holding.congr hkeep (holding_written hchain hsize hstakes hmeta files)

/-! ## Atomicity -/

/-- The same chain, up to the order of keys, the same identity and the same
genesis stakes. -/
structure SameSaved (s t : PersistedState) : Prop where
  chain : JsonEq (.list s.chain) (.list t.chain)
  node_id : s.node_id = t.node_id
  genesis_prev_hash : s.genesis_prev_hash = t.genesis_prev_hash
  genesis_stakes : ∀ key, s.genesis_stakes.find key = t.genesis_stakes.find key

/-- What is loaded is the new state or the previous one. -/
def Recovers (previous : Option PersistedState) (new : PersistedState) :
    StoreM (Option PersistedState) → Prop
  | .ok (some s) => SameSaved s new ∨ ∃ old, previous = some old ∧ SameSaved s old
  | .ok none => previous = none
  | .error _ => False

/-- A directory with a complete save of a state, or without any save. -/
def SavedIn (settings : PersistenceSettings) (files : Files) : Option PersistedState → Prop
  | none => files (.file .meta_file) = none
  | some old => (save settings old).2 = .ok () ∧
      ∃ earlier, files = applyAll (save settings old).1 earlier

/-- Wherever a save stops, the next load recovers; if it does not stop, it
finds the new state. -/
def AtomicSave [Stringify] (settings : PersistenceSettings) (files : Files)
    (previous : Option PersistedState) (new : PersistedState) : Prop :=
  (∀ stop, Recovers previous new
    (load settings (interrupted (save settings new).1 files stop))) ∧
  ∃ s, load settings (applyAll (save settings new).1 files) = .ok (some s) ∧ SameSaved s new

/-- The meta file of `old` accepts this chain and these stakes, which make one
of the two states. -/
def MetaAccepts (old new : PersistedState) (chain : List Block) (stakes : StakeMap) : Prop :=
  compute_checksum (stakesValue stakes) = compute_checksum (stakesValue old.genesis_stakes) ∧
  ∃ c checksum, compute_checksum (.list old.chain) = .ok checksum ∧ RereadAs chain c checksum ∧
    (SameSaved { old with chain := c, genesis_stakes := stakes } new ∨
      SameSaved { old with chain := c, genesis_stakes := stakes } old)

/-- The meta file of one state accepts each mixture with the other that a save
passes through. -/
structure Compatible (old new : PersistedState) : Prop where
  before : MetaAccepts old new old.chain old.genesis_stakes
  after_chain : MetaAccepts old new new.chain old.genesis_stakes
  after_stakes : MetaAccepts old new new.chain new.genesis_stakes

theorem recovers_holding [Stringify] {settings : PersistenceSettings} {files : Files}
    {chain : List Block} {stakes : StakeMap} {old new : PersistedState} {cc sc : Str}
    (h : Holding settings files chain stakes old cc sc)
    (hcc : compute_checksum (.list old.chain) = .ok cc)
    (hsc : compute_checksum (stakesValue old.genesis_stakes) = .ok sc) :
    Recovers (some old) new (load settings files) ↔ MetaAccepts old new chain stakes := by
  obtain ⟨hnone, hsome⟩ := load_holding h
  constructor
  · intro hrec
    rcases hload : load settings files with e | _ | s
    · rw [hload] at hrec
      exact hrec.elim
    · exact absurd hload hnone
    · obtain ⟨c, hc, hsum, rfl⟩ := (hsome s).mp hload
      rw [hload] at hrec
      refine ⟨hsum.trans hsc.symm, c, cc, hcc, hc, ?_⟩
      rcases hrec with hnew | ⟨_, ⟨rfl⟩, hold⟩
      · exact Or.inl ⟨hnew.chain, hnew.node_id, hnew.genesis_prev_hash, hnew.genesis_stakes⟩
      · exact Or.inr ⟨hold.chain, hold.node_id, hold.genesis_prev_hash, hold.genesis_stakes⟩
  · rintro ⟨hsum, c, cc', hcc', hc, hone⟩
    rw [hcc, Except.ok.injEq] at hcc'
    subst hcc'
    rw [(hsome _).mpr ⟨c, hc, hsum.trans hsc, rfl⟩]
    rcases hone with hnew | hold
    · exact Or.inl ⟨hnew.chain, hnew.node_id, hnew.genesis_prev_hash, hnew.genesis_stakes⟩
    · exact Or.inr ⟨old, rfl, hold.chain, hold.node_id, hold.genesis_prev_hash,
        hold.genesis_stakes⟩

/-- A complete save is found again exactly when its own meta file accepts it. -/
theorem complete_save [Stringify] {settings : PersistenceSettings} {new : PersistedState}
    (hsave : (save settings new).2 = .ok ()) (files : Files) :
    (∃ s, load settings (applyAll (save settings new).1 files) = .ok (some s) ∧ SameSaved s new) ↔
      MetaAccepts new new new.chain new.genesis_stakes := by
  obtain ⟨cc, sc, hcc, hsc, hholding⟩ := holding_save hsave files
  rw [← recovers_holding hholding hcc hsc]
  constructor
  · rintro ⟨s, hload, hsame⟩
    rw [hload]
    exact Or.inl hsame
  · intro hrec
    rcases hload : load settings (applyAll (save settings new).1 files) with e | _ | s
    · rw [hload] at hrec
      exact hrec.elim
    · exact absurd hload (load_holding hholding).1
    · rw [hload] at hrec
      rcases hrec with hsame | ⟨_, ⟨rfl⟩, hsame⟩
      · exact ⟨s, rfl, hsame⟩
      · exact ⟨s, rfl, hsame⟩

/-- The directories a save passes through, under the meta file of the state
saved before. -/
theorem holding_stages {settings : PersistenceSettings} {files : Files} {old new : PersistedState}
    {cc sc : Str} {chain_bytes stakes_bytes : List UInt8}
    (h : Holding settings files old.chain old.genesis_stakes old cc sc)
    (hchain : dump_json_bytes (.list new.chain) = .ok chain_bytes)
    (hsize : ¬ (0 < settings.max_chain_file_bytes ∧
      settings.max_chain_file_bytes < chain_bytes.length))
    (hstakes : dump_json_bytes (stakesValue new.genesis_stakes) = .ok stakes_bytes) :
    Holding settings (applyAll (write_bytes_atomic .chain_file chain_bytes) files) new.chain
        old.genesis_stakes old cc sc ∧
      Holding settings (applyAll (write_bytes_atomic .genesis_stakes_file stakes_bytes)
        (applyAll (write_bytes_atomic .chain_file chain_bytes) files)) new.chain
        new.genesis_stakes old cc sc := by
  obtain ⟨old_stakes, hold_stakes, hstakes_file⟩ := h.stakes
  obtain ⟨old_meta, hold_meta, hmeta_file⟩ := h.metadata
  constructor
  · refine ⟨⟨chain_bytes, hchain, by simp [applyAll_write]⟩, ?_,
      ⟨old_stakes, hold_stakes, by simp [applyAll_write, hstakes_file]⟩, old_meta, hold_meta,
      by simp [applyAll_write, hmeta_file]⟩
    intro bytes hbytes
    simp only [applyAll_write, if_true, Option.some.injEq] at hbytes
    exact hbytes ▸ hsize
  · refine ⟨⟨chain_bytes, hchain, by simp [applyAll_write]⟩, ?_,
      ⟨stakes_bytes, hstakes, by simp [applyAll_write]⟩, old_meta, hold_meta,
      by simp [applyAll_write, hmeta_file]⟩
    intro bytes hbytes
    simp only [applyAll_write, reduceCtorEq, if_false, if_true, Option.some.injEq] at hbytes
    exact hbytes ▸ hsize

/-- Without a meta file there is nothing to load. -/
theorem load_of_no_meta [Stringify] (settings : PersistenceSettings) {files : Files}
    (h : files (.file .meta_file) = none) : load settings files = .ok none := by
  simp only [load, h]

/-- A save that stops is followed by a load that recovers, where the meta files
accept what they meet. -/
theorem recovers_interrupted [Stringify] {settings : PersistenceSettings} {files : Files}
    {previous : Option PersistedState} {new : PersistedState}
    (hprevious : SavedIn settings files previous) (hsave : (save settings new).2 = .ok ())
    (hfinal : MetaAccepts new new new.chain new.genesis_stakes)
    (hmixed : ∀ old, previous = some old → Compatible old new) (stop : Stop) :
    Recovers previous new (load settings (interrupted (save settings new).1 files stop)) := by
  obtain ⟨cc, sc, chain_bytes, stakes_bytes, meta_bytes, hcc, hsc, hchain, hsize, hstakes, hmeta,
    hops⟩ := save_ok hsave
  have hstages := stages settings new chain_bytes stakes_bytes meta_bytes files stop
  rw [← hops] at hstages
  have hwritten := holding_written hchain hsize hstakes hmeta files
  -- with the new meta file in place, only the new state can be found
  have hlast : ∀ stopped, SameFiles stopped (applyAll (write_bytes_atomic .meta_file meta_bytes)
      (applyAll (write_bytes_atomic .genesis_stakes_file stakes_bytes)
        (applyAll (write_bytes_atomic .chain_file chain_bytes) files))) →
      Recovers previous new (load settings stopped) := by
    intro stopped hsame
    have hnew := Holding.congr hsame hwritten
    have hrec := (recovers_holding hnew hcc hsc).mpr hfinal
    rcases hload : load settings stopped with e | _ | s
    · rw [hload] at hrec
      exact hrec.elim
    · exact absurd hload (load_holding hnew).1
    · rw [hload] at hrec
      rcases hrec with hs | ⟨_, ⟨rfl⟩, hs⟩
      · exact Or.inl hs
      · exact Or.inl hs
  cases previous with
  | none =>
      -- before that, there is no meta file at all
      have hmissing : files (.file .meta_file) = none := hprevious
      have hnone : ∀ stopped : Files, stopped (.file .meta_file) = none →
          Recovers none new (load settings stopped) := by
        intro stopped h
        rw [load_of_no_meta settings h]
        rfl
      rcases hstages with h | h | h | h
      · exact hnone _ (h.2.2.trans hmissing)
      · exact hnone _ (h.2.2.trans (by simpa [applyAll_write] using hmissing))
      · exact hnone _ (h.2.2.trans (by simpa [applyAll_write] using hmissing))
      · exact hlast _ h
  | some old =>
      obtain ⟨hold, earlier, rfl⟩ := hprevious
      obtain ⟨occ, osc, hocc, hosc, hbefore⟩ := holding_save hold earlier
      obtain ⟨hchain₁, hstakes₂⟩ := holding_stages hbefore hchain hsize hstakes
      have hcompatible := hmixed old rfl
      rcases hstages with h | h | h | h
      · exact (recovers_holding (Holding.congr h hbefore) hocc hosc).mpr hcompatible.before
      · exact (recovers_holding (Holding.congr h hchain₁) hocc hosc).mpr hcompatible.after_chain
      · exact (recovers_holding (Holding.congr h hstakes₂) hocc hosc).mpr hcompatible.after_stakes
      · exact hlast _ h

/-- A save over an earlier one passes through both mixtures. -/
theorem compatible_of_recovers [Stringify] {settings : PersistenceSettings} {files : Files}
    {old new : PersistedState} (hprevious : SavedIn settings files (some old))
    (hsave : (save settings new).2 = .ok ())
    (h : ∀ stop, Recovers (some old) new
      (load settings (interrupted (save settings new).1 files stop))) : Compatible old new := by
  obtain ⟨_, _, chain_bytes, stakes_bytes, meta_bytes, -, -, hchain, hsize, hstakes, -, hops⟩ :=
    save_ok hsave
  obtain ⟨hold, earlier, rfl⟩ := hprevious
  obtain ⟨cc, sc, hcc, hsc, hbefore⟩ := holding_save hold earlier
  obtain ⟨hchain₁, hstakes₂⟩ := holding_stages hbefore hchain hsize hstakes
  rw [hops] at h
  -- the chain file is replaced by the sixth operation, the stakes file by the eleventh
  refine ⟨?_, ?_, ?_⟩
  · exact (recovers_holding hbefore hcc hsc).mp (h (.crash 0))
  · exact (recovers_holding hchain₁ hcc hsc).mp (h (.crash 6))
  · exact (recovers_holding hstakes₂ hcc hsc).mp (h (.crash 11))

/-- A save is atomic exactly when its own meta file accepts what it wrote and,
over an earlier save, the meta file of that one accepts the mixtures on the way. -/
theorem save_atomic_iff [Stringify] (settings : PersistenceSettings) (files : Files)
    (previous : Option PersistedState) (new : PersistedState)
    (hprevious : SavedIn settings files previous) (hsave : (save settings new).2 = .ok ()) :
    AtomicSave settings files previous new ↔
      MetaAccepts new new new.chain new.genesis_stakes ∧
        ∀ old, previous = some old → Compatible old new := by
  rw [AtomicSave, complete_save hsave]
  constructor
  · rintro ⟨hstops, hfinal⟩
    refine ⟨hfinal, ?_⟩
    rintro old rfl
    exact compatible_of_recovers hprevious hsave hstops
  · rintro ⟨hfinal, hmixed⟩
    exact ⟨recovers_interrupted hprevious hsave hfinal hmixed, hfinal⟩

omit [Runtime] in
theorem SameSaved.refl (s : PersistedState) : SameSaved s s :=
  ⟨JsonEq.refl _, rfl, rfl, fun _ => rfl⟩

/-- The meta file of a state accepts its own chain, where JSON can express it. -/
theorem metaAccepts_self {settings : PersistenceSettings} {old : PersistedState}
    (hv : Readable (.list old.chain)) (hsave : (save settings old).2 = .ok ())
    (new : PersistedState) : MetaAccepts old new old.chain old.genesis_stakes := by
  obtain ⟨cc, _, bytes, _, _, hcc, -, hbytes, -⟩ := save_ok hsave
  exact ⟨rfl, old.chain, cc, hcc, rereadAs_self hv hbytes hcc, Or.inr (SameSaved.refl old)⟩

/-- There is nothing to mix where neither the chain nor the stakes change. -/
theorem compatible_of_same {settings : PersistenceSettings} {old new : PersistedState}
    (hv : Readable (.list old.chain)) (hsave : (save settings old).2 = .ok ())
    (hchain : new.chain = old.chain) (hstakes : new.genesis_stakes = old.genesis_stakes) :
    Compatible old new := by
  have hself := metaAccepts_self hv hsave new
  refine ⟨hself, ?_, ?_⟩
  · rw [hchain]
    exact hself
  · rw [hchain, hstakes]
    exact hself

/-- A load that fails after some stop refutes atomicity. -/
theorem not_atomic_of_load_error [Stringify] {settings : PersistenceSettings} {files : Files}
    {previous : Option PersistedState} {new : PersistedState} {stop : Stop} {e : StoreErr}
    (h : (load settings (interrupted (save settings new).1 files stop)).map (fun _ => ())
      = .error e) : ¬ AtomicSave settings files previous new := by
  rintro ⟨hstops, -⟩
  have hrec := hstops stop
  rcases hload : load settings (interrupted (save settings new).1 files stop) with e' | s
  · rw [hload] at hrec
    exact hrec
  · rw [hload] at h
    cases h

/-- The first save into a directory is atomic. -/
theorem first_save_atomic [Stringify] {settings : PersistenceSettings} {files : Files}
    {new : PersistedState} (hfirst : files (.file .meta_file) = none)
    (hv : Readable (.list new.chain)) (hsave : (save settings new).2 = .ok ()) :
    AtomicSave settings files none new :=
  ⟨recovers_interrupted hfirst hsave (metaAccepts_self hv hsave new) (by simp),
    (complete_save hsave files).mpr (metaAccepts_self hv hsave new)⟩

end Atomicity

/-! A node that saved its empty chain, and then one block. -/

namespace StoppedSave

attribute [local instance] cpython

local instance : Stringify := ⟨fun _ => []⟩

def settings : PersistenceSettings := ⟨1, 67108864, true⟩

def block : Block := .dict
  [(.str (lit "block_index"), .int 1),
    (.str (lit "block_item"), .str (lit "2024-01-01 00:00:00")),
    (.str (lit "block_header"), .dict
      [(.str (lit "prev_hash"), .str DEFAULT_GENESIS_PREV_HASH),
        (.str (lit "consensus_type"), .str (lit "pow")),
        (.str (lit "tran_hash"),
          .str (lit "0047b0c18dd14038eae51744cd0740fb9501a73dfabaa0c2ec40b34b2ecb12cd")),
        (.str (lit "nonce"), .int 0),
        (.str (lit "difficulty"), .int 1)]),
    (.str (lit "tran_counter"), .int 2),
    (.str (lit "tran_body"), .dict
      [(.str (lit "input_data"), .str (lit "w")), (.str (lit "output_data"), .str (lit "b"))])]

def state (chain : List Block) : PersistedState :=
  ⟨chain, lit "node", DEFAULT_GENESIS_PREV_HASH, .empty, none, none⟩

/-- The directory after the first save. -/
def saved : Files := applyAll (save settings (state [])).1 fun _ => none

theorem savedIn : SavedIn settings saved (some (state [])) := ⟨by decide +kernel, _, rfl⟩

theorem saves : (save settings (state [block])).2 = .ok () := by decide +kernel

/-- The chain file is new and the meta file is old. -/
theorem load_stopped : (load settings
      (interrupted (save settings (state [block])).1 saved (.crash 6))).map (fun _ => ())
    = .error (.store .chain_checksum_mismatch) := by decide +kernel

theorem crash_after_chain :
    SavedIn settings saved (some (state [])) ∧ (save settings (state [block])).2 = .ok () ∧
      ¬ AtomicSave settings saved (some (state [])) (state [block]) :=
  ⟨savedIn, saves, not_atomic_of_load_error load_stopped⟩

/-- Saving the empty chain once more is atomic. -/
theorem save_again_atomic : AtomicSave settings saved (some (state [])) (state []) := by
  have hv : Readable (.list (state []).chain) := trivial
  apply (save_atomic_iff settings saved (some (state [])) (state []) savedIn savedIn.1).mpr
  refine ⟨metaAccepts_self hv savedIn.1 _, ?_⟩
  intro old hold
  obtain rfl := Option.some.inj hold
  exact compatible_of_same hv savedIn.1 rfl rfl

end StoppedSave

end EasyBlockchain
