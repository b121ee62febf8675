/-
`persistence/store.py`: the files of a data directory.

A directory maps paths to contents. The settings name five files, which are
different from each other; each is written as a temporary file that replaces it
at the end, so a path is a file or its temporary companion. `save` is the list
of the file operations it performs, with the exception that ends it, if any;
`interrupted` is the directory after it stopped at one of them. `load` reads
bytes and decodes them.
-/
import EasyBlockchain.Consensus
import EasyBlockchain.Py.JsonLoads

set_option autoImplicit false

namespace EasyBlockchain

open Py

/-! ## Directories -/

/-- The files of the settings `chain_file`, `meta_file` and so on. -/
inductive FileName
  | chain_file
  | genesis_stakes_file
  | meta_file
  | private_key_file
  | p2p_identity_file
  deriving DecidableEq

/-- A file, or the temporary file that will replace it. -/
inductive Path
  | file (name : FileName)
  | tmp (name : FileName)
  deriving DecidableEq

/-- The contents of a data directory. -/
abbrev Files : Type := Path → Option (List UInt8)

/-- One operation on the file system. -/
inductive FileOp
  | mkdir
  /-- open the temporary file for writing, which empties it -/
  | create (name : FileName)
  | write (name : FileName) (data : List UInt8)
  | fsync (name : FileName)
  /-- `os.replace` of the file by the temporary one -/
  | replace (name : FileName)
  | chmod (name : FileName)
  | fsync_directory

/-- The directory after an operation. -/
def FileOp.apply (files : Files) : FileOp → Files
  | create name => Function.update files (.tmp name) (some [])
  | write name data =>
    Function.update files (.tmp name) (some ((files (.tmp name)).getD [] ++ data))
  | replace name =>
    match files (.tmp name) with
    | some data => Function.update (Function.update files (.file name) (some data)) (.tmp name) none
    | none => files
  | mkdir | fsync _ | chmod _ | fsync_directory => files

/-- The temporary file an operation's error handler removes. -/
def FileOp.cleanup (files : Files) : FileOp → Files
  | create name | write name _ | fsync name | replace name => Function.update files (.tmp name) none
  | mkdir | chmod _ | fsync_directory => files

def applyAll (ops : List FileOp) (files : Files) : Files := ops.foldl FileOp.apply files

/-! ## Settings, states, errors -/

structure PersistenceSettings where
  schema_version : ℤ
  max_chain_file_bytes : ℤ
  store_keys_on_disk : Bool

structure PersistedState where
  chain : List Block
  node_id : Str
  genesis_prev_hash : Str
  genesis_stakes : StakeMap
  private_key_pem : Option (List UInt8)
  p2p_identity_pem : Option (List UInt8)

/-- `ChainStoreError`, by its message. -/
inductive ChainStoreError
  /-- "Invalid JSON in ..." -/
  | invalid_json (name : FileName)
  /-- "Failed to read ..." -/
  | failed_to_read (name : FileName)
  /-- "meta file must contain a JSON object: ..." -/
  | meta_not_object
  /-- "Invalid schema_version in ..." -/
  | invalid_schema_version
  /-- "Unsupported schema version: ... (expected ...)" -/
  | unsupported_schema_version (found : ℤ)
  /-- "Missing chain file: ..." -/
  | missing_chain_file
  /-- "Chain file too large: ..." -/
  | chain_file_too_large (size : ℕ)
  /-- "chain file must contain a JSON array" -/
  | chain_not_array
  /-- "Chain checksum mismatch: file may be corrupted" -/
  | chain_checksum_mismatch
  /-- "genesis_stakes file must contain a JSON object" -/
  | genesis_stakes_not_object
  /-- "Invalid stake value for ..." -/
  | invalid_stake_value (key : Str)
  /-- "Genesis stakes checksum mismatch: file may be corrupted" -/
  | genesis_stakes_checksum_mismatch
  /-- "Missing genesis_stakes file: ..." -/
  | missing_genesis_stakes_file
  /-- "Chain file too large to save: ..." -/
  | chain_too_large_to_save (size : ℕ)
  deriving DecidableEq

/-- What `load` and `save` can raise. -/
inductive StoreErr
  | store (e : ChainStoreError)
  | other (e : PyErr)
  deriving DecidableEq

abbrev StoreM (α : Type) : Type := Except StoreErr α

/-- A computation outside the store, with its exceptions passed through. -/
def passing {α : Type} (x : PyM α) : StoreM α := x.mapError .other

/-- `str(v)` of values other than strings, which only a meta file that was not
written by `save` can hold. -/
class Stringify where
  str : PyVal → Str

/-- `str(v)`. -/
def pyStr [Stringify] : PyVal → Str
  | .str s => s
  | v => Stringify.str v

section Store

variable [Runtime]

/-- `_compute_checksum`. -/
def compute_checksum (data : PyVal) : PyM Str := do
  let text ← dumps sortedUtf8 data
  let payload ← encode text
  return hexdigest (Runtime.sha256 payload)

/-- `_dump_json_bytes`. -/
def dump_json_bytes (data : PyVal) : PyM (List UInt8) := do
  let text ← dumps indentedUtf8 data
  encode text

/-- A `dict[str, int]` as a value. -/
def stakesValue (stakes : StakeMap) : PyVal :=
  .dict (stakes.entries.map fun p => (.str p.1, .int p.2))

/-! ## Saving -/

/-- `_write_bytes_atomic`. -/
def write_bytes_atomic (name : FileName) (data : List UInt8) : List FileOp :=
  [.mkdir, .create name, .write name data, .fsync name, .replace name]

/-- The meta file. -/
def meta_of (settings : PersistenceSettings) (state : PersistedState)
    (chain_checksum genesis_stakes_checksum : Str) : Dict :=
  [(.str (lit "schema_version"), .int settings.schema_version),
    (.str (lit "node_id"), .str state.node_id),
    (.str (lit "genesis_prev_hash"), .str state.genesis_prev_hash),
    (.str (lit "chain_checksum"), .str chain_checksum),
    (.str (lit "genesis_stakes_checksum"), .str genesis_stakes_checksum)]

/-- What `save` computes before it writes: the meta file and the bytes of the
chain, whose size is checked. -/
def prepare_save (settings : PersistenceSettings) (state : PersistedState) :
    StoreM (Dict × List UInt8) := do
  let chain_checksum ← passing (compute_checksum (.list state.chain))
  let genesis_stakes_checksum ← passing (compute_checksum (stakesValue state.genesis_stakes))
  let chain_bytes ← passing (dump_json_bytes (.list state.chain))
  if 0 < settings.max_chain_file_bytes ∧ settings.max_chain_file_bytes < chain_bytes.length then
    .error (.store (.chain_too_large_to_save chain_bytes.length))
  else return (meta_of settings state chain_checksum genesis_stakes_checksum, chain_bytes)

/-- The operations on the key files. -/
def key_ops (settings : PersistenceSettings) (state : PersistedState) : List FileOp :=
  if settings.store_keys_on_disk then
    let keys_dir := if state.private_key_pem.isSome ∨ state.p2p_identity_pem.isSome then
      [.mkdir, .chmod .private_key_file] else []
    let private_key := match state.private_key_pem with
      | some pem => write_bytes_atomic .private_key_file pem ++ [.chmod .private_key_file]
      | none => []
    let p2p_identity := match state.p2p_identity_pem with
      | some pem => write_bytes_atomic .p2p_identity_file pem ++ [.chmod .p2p_identity_file]
      | none => []
    keys_dir ++ private_key ++ p2p_identity ++ [.fsync_directory]
  else []

/-- The operations of `save`, and the exception that ends it. -/
def save (settings : PersistenceSettings) (state : PersistedState) :
    List FileOp × StoreM Unit :=
  match prepare_save settings state with
  | .error e => ([.mkdir], .error e)
  | .ok (metadata, chain_bytes) =>
    let ops := .mkdir :: write_bytes_atomic .chain_file chain_bytes
    match passing (dump_json_bytes (stakesValue state.genesis_stakes)) with
    | .error e => (ops, .error e)
    | .ok stakes_bytes =>
      let ops := ops ++ write_bytes_atomic .genesis_stakes_file stakes_bytes
      match passing (dump_json_bytes (.dict metadata)) with
      | .error e => (ops, .error e)
      | .ok meta_bytes =>
        (ops ++ write_bytes_atomic .meta_file meta_bytes ++ key_ops settings state
          ++ [.fsync_directory], .ok ())

/-- Where a save stops. -/
inductive Stop
  /-- a crash after so many operations -/
  | crash (done : ℕ)
  /-- an `OSError` from the operation after so many, whose handler runs -/
  | fail (done : ℕ)

/-- The directory a save leaves that stops early. -/
def interrupted (ops : List FileOp) (files : Files) : Stop → Files
  | .crash done => applyAll (ops.take done) files
  | .fail done =>
    match ops.drop done with
    | op :: _ => op.cleanup (applyAll (ops.take done) files)
    | [] => applyAll ops files

/-! ## Loading -/

/-- `_read_json`. -/
def read_json (files : Files) (name : FileName) : StoreM PyVal :=
  match files (.file name) with
  | none => .error (.store (.failed_to_read name))
  | some bytes =>
    match utf8Decode bytes with
    | none => .error (.store (.invalid_json name))
    | some text =>
      match loads text with
      | .ok v => .ok v
      | .error e => if e = .jsonDecodeError then .error (.store (.invalid_json name))
        else .error (.other e)

/-- The meta file, with its schema version checked. -/
def load_meta (settings : PersistenceSettings) (files : Files) : StoreM Dict := do
  match ← read_json files .meta_file with
  | .dict metadata =>
    let version := (Dict.find metadata (lit "schema_version")).getD (.int 0)
    match ← passing (ProofOfWork.try_int version) with
    | none => .error (.store .invalid_schema_version)
    | some schema_version =>
      if schema_version ≠ settings.schema_version then
        .error (.store (.unsupported_schema_version schema_version))
      else return metadata
  | _ => .error (.store .meta_not_object)

/-- A stored checksum, where there is one, against the checksum of the data. -/
def check_checksum (stored : PyVal) (data : PyVal) (mismatch : ChainStoreError) : StoreM Unit :=
  match stored with
  | .none => .ok ()
  | stored => do
    let actual ← passing (compute_checksum data)
    if stored.eq (.str actual) then return () else .error (.store mismatch)

/-- The chain file, with its size and its checksum checked. -/
def load_chain (settings : PersistenceSettings) (files : Files) (metadata : Dict) :
    StoreM (List Block) :=
  match files (.file .chain_file) with
  | none => .error (.store .missing_chain_file)
  | some bytes =>
    if 0 < settings.max_chain_file_bytes ∧ settings.max_chain_file_bytes < bytes.length then
      .error (.store (.chain_file_too_large bytes.length))
    else do
      match ← read_json files .chain_file with
      | .list chain_data =>
        let stored := (Dict.find metadata (lit "chain_checksum")).getD .none
        check_checksum stored (.list chain_data) .chain_checksum_mismatch
        return chain_data
      | _ => .error (.store .chain_not_array)

/-- `genesis_stakes[str(key)] = int(value)` for each item; the keys of decoded
JSON are strings. -/
def read_stakes : StakeMap → Dict → StoreM StakeMap
  | stakes, [] => .ok stakes
  | stakes, (key, value) :: rest =>
    match key with
    | .str key => do
      match ← passing (ProofOfWork.try_int value) with
      | none => .error (.store (.invalid_stake_value key))
      | some stake => read_stakes (stakes.set key stake) rest
    | _ => read_stakes stakes rest

/-- The genesis stakes file, with its checksum checked. -/
def load_genesis_stakes (files : Files) (metadata : Dict) : StoreM StakeMap :=
  match files (.file .genesis_stakes_file) with
  | none =>
    if (Dict.find metadata (lit "genesis_stakes_checksum")).isSome then
      .error (.store .missing_genesis_stakes_file)
    else .ok .empty
  | some _ => do
    match ← read_json files .genesis_stakes_file with
    | .dict stakes_data =>
      let genesis_stakes ← read_stakes .empty stakes_data
      let stored := (Dict.find metadata (lit "genesis_stakes_checksum")).getD .none
      check_checksum stored (.dict stakes_data) .genesis_stakes_checksum_mismatch
      return genesis_stakes
    | _ => .error (.store .genesis_stakes_not_object)

/-- `load`; `none` where nothing was saved. -/
def load [Stringify] (settings : PersistenceSettings) (files : Files) :
    StoreM (Option PersistedState) :=
  match files (.file .meta_file) with
  | none => .ok none
  | some _ => do
    let metadata ← load_meta settings files
    let chain ← load_chain settings files metadata
    let genesis_stakes ← load_genesis_stakes files metadata
    let key (name : FileName) := if settings.store_keys_on_disk then files (.file name) else none
    return some
      { chain := chain
        node_id := pyStr ((Dict.find metadata (lit "node_id")).getD (.str []))
        genesis_prev_hash := pyStr ((Dict.find metadata (lit "genesis_prev_hash")).getD (.str []))
        genesis_stakes := genesis_stakes
        private_key_pem := key .private_key_file
        p2p_identity_pem := key .p2p_identity_file }

end Store

end EasyBlockchain
