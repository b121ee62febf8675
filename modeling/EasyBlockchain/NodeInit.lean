/-
`network/node.py`: construction of a node, and what it keeps in its data directory.

A node takes its id, its genesis stakes and its keys from the directory where
they were saved, and from its arguments or at random otherwise. The saved chain
goes through `replace_chain` under the protocol just created, so what the
protocol has registered by then decides whether the node starts.
-/
import EasyBlockchain.Node
import EasyBlockchain.Store

set_option autoImplicit false

namespace EasyBlockchain

open Py

/-! ## Private keys -/

/-- The `cryptography` package, as far as `signature.py` reads and writes
private keys. A load that fails or does not give an RSA key is `none`. -/
class PrivateKeys [Rsa] where
  load_pem_private_key : List UInt8 → Option Rsa.PrivateKey
  load_der_private_key : List UInt8 → Option Rsa.PrivateKey
  /-- the PEM file of a private key -/
  private_bytes : Rsa.PrivateKey → List UInt8

section Keys

variable [Rsa]

/-- A `SignatureManager` with a key pair. -/
def SignatureManager.of_key (key : Rsa.PrivateKey) : SignatureManager :=
  ⟨some key, some (Rsa.public_key key)⟩

/-- The key `import_private_key` sets, `none` where it raises. -/
def import_private_key [PrivateKeys] (key_data : List UInt8) : Option Rsa.PrivateKey :=
  let stripped := key_data.dropWhile fun b => isAsciiSpace (ofChar (Char.ofNat b.toNat))
  if List.replicate 5 0x2d <+: stripped then PrivateKeys.load_pem_private_key key_data
  else PrivateKeys.load_der_private_key key_data

/-- An exported private key is imported as itself. -/
def KeysReadBack [PrivateKeys] : Prop :=
  ∀ key : Rsa.PrivateKey, import_private_key (PrivateKeys.private_bytes key) = some key

end Keys

/-! ## Arguments -/

/-- The settings a node is constructed with, as far as they decide what it
restores. -/
structure NodeSettings where
  consensus : ConsensusSettings
  network : NetworkSettings
  persistence : PersistenceSettings
  node_id : Str
  require_external_keys : Bool

/-- The arguments of `Node`. The two keys are those given as arguments, or found
in the files or variables that the environment names. -/
structure NodeArgs where
  settings : NodeSettings
  genesis_stakes : Option StakeMap
  validator_private_key_pem : Option (List UInt8)
  p2p_identity_key_pem : Option (List UInt8)

/-- What a constructor draws at random: `str(uuid.uuid4())`, and two key pairs. -/
structure Generated [Rsa] where
  uuid : Str
  uuid_ne : uuid ≠ []
  validator_key : Rsa.PrivateKey
  p2p_identity_key : Rsa.PrivateKey

/-- A node with its keys. -/
structure LiveNode [Rsa] where
  node : Node
  signature_manager : SignatureManager
  p2p_identity_manager : SignatureManager

namespace LiveNode

section Init

variable [Runtime] [Rsa] [PrivateKeys]

omit [Runtime] [PrivateKeys] in
/-- `self.node_id`. -/
def resolve_node_id (args : NodeArgs) (generated : Generated) (persisted : Option PersistedState) :
    Str :=
  let configured :=
    if args.settings.node_id.isEmpty then generated.uuid else args.settings.node_id
  match persisted with
  | some persisted => if persisted.node_id.isEmpty then configured else persisted.node_id
  | none => configured

omit [Runtime] [Rsa] [PrivateKeys] in
/-- `self.genesis_stakes`. -/
def resolve_genesis_stakes (args : NodeArgs) (persisted : Option PersistedState) : StakeMap :=
  match persisted with
  | some persisted =>
    if persisted.genesis_stakes.isEmpty then args.genesis_stakes.getD .empty
    else persisted.genesis_stakes
  | none => args.genesis_stakes.getD .empty

omit [Runtime] in
/-- The key of one of the two managers: given from outside, saved, or generated. -/
def resolve_key (args : NodeArgs) (given saved : Option (List UInt8))
    (generated : Rsa.PrivateKey) : StoreM Rsa.PrivateKey :=
  match given with
  | some pem => passing (orRaise .valueError (import_private_key pem))
  | none =>
    if args.settings.require_external_keys then .error (.other .valueError)
    else
      match saved with
      | some pem => passing (orRaise .valueError (import_private_key pem))
      | none => .ok generated

omit [Runtime] in
/-- `self.signature_manager`; only a proof-of-stake node has a validator key. -/
def resolve_signature_manager (args : NodeArgs) (generated : Generated)
    (persisted : Option PersistedState) : StoreM SignatureManager :=
  if args.settings.consensus.type = lit "pos" then do
    let key ← resolve_key args args.validator_private_key_pem
      (persisted.bind (·.private_key_pem)) generated.validator_key
    return .of_key key
  else return ⟨none, none⟩

/-- `Node.__init__` up to the chain. -/
def construct (args : NodeArgs) (generated : Generated) (persisted : Option PersistedState) :
    StoreM LiveNode := do
  let node_id := resolve_node_id args generated persisted
  let genesis_stakes := resolve_genesis_stakes args persisted
  let signature_manager ← resolve_signature_manager args generated persisted
  let p2p_identity_key ← resolve_key args args.p2p_identity_key_pem
    (persisted.bind (·.p2p_identity_pem)) generated.p2p_identity_key
  let is_pos := args.settings.consensus.type = lit "pos"
  let consensus ← passing (Consensus.create_consensus args.settings.consensus
    (if is_pos then some node_id else none) signature_manager (some genesis_stakes))
  let blockchain : BlockChain :=
    { BlockChain.new (some consensus) args.settings.consensus.genesis_prev_hash with
      enable_signature := is_pos
      signature_manager := if is_pos then some ⟨none, none⟩ else none }
  return ⟨⟨node_id, args.settings.network, genesis_stakes, blockchain⟩, signature_manager,
    .of_key p2p_identity_key⟩

omit [PrivateKeys] in
/-- `_restore_chain`. -/
def restore_chain (self : LiveNode) (args : NodeArgs) (persisted : PersistedState) :
    StoreM LiveNode :=
  if !persisted.genesis_prev_hash.isEmpty &&
      persisted.genesis_prev_hash ≠ args.settings.consensus.genesis_prev_hash then
    .error (.other .valueError)
  else if persisted.chain.isEmpty then .ok self
  else
    match self.node.blockchain.replace_chain persisted.chain (some self.node.genesis_stakes) with
    | (.error e, _) => .error (.other e)
    | (.ok false, _) => .error (.other .valueError)
    | (.ok true, blockchain) => do
      let verification ← passing (blockchain.verify_chain (some self.node.genesis_stakes))
      if !verification.valid then .error (.other .valueError)
      else return { self with node := { self.node with blockchain := blockchain } }

/-! ## Saving -/

omit [Runtime] in
/-- `_build_persisted_state`. -/
def build_persisted_state (self : LiveNode) (args : NodeArgs) : PersistedState where
  chain := self.node.blockchain.chain
  node_id := self.node.node_id
  genesis_prev_hash := args.settings.consensus.genesis_prev_hash
  genesis_stakes := self.node.genesis_stakes
  private_key_pem :=
    if args.settings.persistence.store_keys_on_disk ∧ args.settings.consensus.type = lit "pos" ∧
        args.validator_private_key_pem.isNone then
      self.signature_manager.private_key.map PrivateKeys.private_bytes
    else none
  p2p_identity_pem :=
    if args.settings.persistence.store_keys_on_disk ∧ args.p2p_identity_key_pem.isNone then
      self.p2p_identity_manager.private_key.map PrivateKeys.private_bytes
    else none

/-- `_persist_state`, with the directory after it. -/
def persist_state (self : LiveNode) (args : NodeArgs) (files : Files) : StoreM Unit × Files :=
  let (ops, result) := save args.settings.persistence (self.build_persisted_state args)
  (result, applyAll ops files)

/-- `stop`, as far as the directory goes. -/
def stop (self : LiveNode) (args : NodeArgs) (files : Files) : StoreM Unit × Files :=
  self.persist_state args files

/-- `Node.__init__`, with the directory after it. -/
def init [Stringify] (args : NodeArgs) (generated : Generated) (files : Files) :
    StoreM LiveNode × Files :=
  match load args.settings.persistence files with
  | .error e => (.error e, files)
  | .ok persisted =>
    match construct args generated persisted with
    | .error e => (.error e, files)
    | .ok self =>
      match persisted with
      | some persisted => (self.restore_chain args persisted, files)
      | none =>
        let (result, files) := self.persist_state args files
        (result.map fun _ => self, files)

end Init

end LiveNode

end EasyBlockchain
