/-
`network/node.py`: chain synchronisation and fork resolution.

A node asks a peer for the blocks above its own height. The answers of one
session are checked and collected batch by batch, and the collected blocks go
through fork resolution once, when the session ends. A frame is delivered as the
payload it was made from; the encoding of frames is in `Messages`.
-/
import EasyBlockchain.ForkChoice
import EasyBlockchain.Py.JsonSize

set_option autoImplicit false

namespace EasyBlockchain

open Py Lib

/-- The limits on frames and on synchronisation; the last two are required to be
positive when the settings are read. -/
structure NetworkSettings where
  max_message_bytes : ℤ
  chain_sync_batch_size : ℤ
  chain_sync_max_blocks : ℤ
  chain_sync_max_bytes : ℤ
  max_blocks_pos : 0 < chain_sync_max_blocks
  max_bytes_pos : 0 < chain_sync_max_bytes

/-! ## Numbers in a request -/

/-- The value of a field: a default where it is missing, or no number to `int`. -/
def resolve_int (default : ℤ) (raw : PyVal) : PyM ℤ :=
  match raw with
  | .none => .ok default
  | raw => do
    let requested ← ProofOfWork.try_int raw
    return requested.getD default

/-- `_resolve_get_chain_from_height`. -/
def resolve_get_chain_from_height (from_height_raw : PyVal) : PyM ℤ := do
  let requested ← resolve_int 1 from_height_raw
  return if requested < 1 then 1 else requested

/-- `_resolve_get_chain_batch_size`. -/
def resolve_get_chain_batch_size (limit_raw : PyVal) (max_batch : ℤ) : PyM ℤ := do
  let requested ← resolve_int max_batch limit_raw
  return max 1 (min requested max_batch)

/-! ## Sessions -/

/-- `_ChainSyncSession`; `done` is whether its event is set. -/
structure ChainSyncSession where
  blocks : List Block
  done : Bool
  expected_height : ℤ
  expected_prev_hash : PyVal
  received_bytes : ℕ

/-- The fields of a payload whose types are checked: the blocks, `has_more`,
`from_height` and `next_height`. -/
def batch_fields (payload : Dict) : Option (List Block × Bool × ℤ × ℤ) :=
  match (Dict.find payload (lit "blocks")), (Dict.find payload (lit "has_more")).getD (.bool false),
    Dict.find payload (lit "from_height"), Dict.find payload (lit "next_height") with
  | some (.list blocks), .bool has_more, some (.int from_height), some (.int next_height) =>
    some (blocks, has_more, from_height, next_height)
  | _, _, _, _ => none

/-- One pass of the loop of `_accept_chain_batch`: the hash of a block that has
the index and the predecessor asked for. -/
def check_block (index : ℤ) (previous_hash : PyVal) (block : Block) : Option Str :=
  match block with
  | .dict fields =>
    match Dict.find fields (lit "block_index"), Dict.find fields (lit "block_header") with
    | some (.int block_index), some (.dict header) =>
      match Dict.find header (lit "tran_hash"), Dict.find header (lit "prev_hash") with
      | some (.str tran_hash), some (.str prev_hash) =>
        if block_index ≠ index then none
        else if previous_hash ≠ .none ∧ !(PyVal.str prev_hash).eq previous_hash then none
        else some tran_hash
      | _, _ => none
    | _, _ => none
  | _ => none

/-- The loop of `_accept_chain_batch`; the result is the last hash. -/
def check_blocks : ℤ → PyVal → List Block → Option PyVal
  | _, previous_hash, [] => some previous_hash
  | index, previous_hash, block :: rest =>
    match check_block index previous_hash block with
    | none => none
    | some tran_hash => check_blocks (index + 1) (.str tran_hash) rest

section Session

variable [Runtime]

/-- `len(json.dumps(blocks).encode("utf-8"))`. -/
def batch_bytes (blocks : List Block) : PyM ℕ := jsonSize plainAscii (.list blocks)

/-- `_accept_chain_batch`: the session after an accepted batch. -/
def accept_chain_batch (network : NetworkSettings) (session : ChainSyncSession) (payload : Dict) :
    PyM (Option ChainSyncSession) :=
  match batch_fields payload with
  | none => .ok none
  | some (blocks, has_more, from_height, next_height) =>
    if from_height ≠ session.expected_height ∨ next_height ≠ from_height + blocks.length ∨
        (has_more = true ∧ blocks = []) ∨ network.chain_sync_batch_size < blocks.length ∨
        network.chain_sync_max_blocks < session.blocks.length + blocks.length then .ok none
    else
      match check_blocks from_height session.expected_prev_hash blocks with
      | none => .ok none
      | some previous_hash => do
        let size ← batch_bytes blocks
        if network.chain_sync_max_bytes < session.received_bytes + size then return none
        else
          return some { session with
            blocks := session.blocks ++ blocks
            expected_height := next_height
            expected_prev_hash := previous_hash
            received_bytes := session.received_bytes + size }

/-- What the handler of a `CHAIN_RESPONSE` does after looking at the session. -/
inductive SessionReply
  /-- the session has ended already -/
  | ignored
  /-- the batch is refused and the peer closed -/
  | refused
  /-- the next batch is requested -/
  | request (from_height : ℤ)
  /-- the session ends -/
  | finished
  deriving DecidableEq

/-- The `CHAIN_RESPONSE` branch of `_handle_message`, for a peer with a session. -/
def chain_response (network : NetworkSettings) (session : ChainSyncSession) (payload : Dict) :
    PyM (ChainSyncSession × SessionReply) :=
  if session.done then .ok (session, .ignored)
  else do
    match ← accept_chain_batch network session payload with
    | none => return ({ session with blocks := [], done := true }, .refused)
    | some session =>
      if ((Dict.find payload (lit "has_more")).getD (.bool false)).truthy then
        return (session, .request session.expected_height)
      else return ({ session with done := true }, .finished)

end Session

/-! ## The node -/

structure Node [Rsa] where
  node_id : Str
  network : NetworkSettings
  genesis_stakes : StakeMap
  blockchain : BlockChain

namespace Node

variable [Runtime] [Rsa]

omit [Runtime] in
/-- The payload of `_send_chain_request`. -/
def chain_request (self : Node) (from_height : ℤ) : Dict :=
  [(.str (lit "from_height"), .int from_height),
    (.str (lit "limit"), .int self.network.chain_sync_batch_size),
    (.str (lit "requester"), .str self.node_id)]

omit [Runtime] in
/-- The answer to a `GET_CHAIN`, its numbers resolved. -/
def chain_reply (self : Node) (from_height batch_size : ℤ) : Dict :=
  let blocks := self.blockchain.get_blocks_from from_height (some batch_size.toNat)
  let next_height := from_height + blocks.length
  let total_height : ℤ := self.blockchain.chain.length
  let has_more : Bool := blocks.length = batch_size && next_height ≤ total_height
  [(.str (lit "blocks"), .list blocks),
    (.str (lit "from_height"), .int from_height),
    (.str (lit "next_height"), .int next_height),
    (.str (lit "has_more"), .bool has_more),
    (.str (lit "node_id"), .str self.node_id)]

/-- The `GET_CHAIN` branch of `_handle_message`: the payload it sends. -/
def get_chain (self : Node) (payload : Dict) : PyM Dict := do
  let from_height ← resolve_get_chain_from_height
    ((Dict.find payload (lit "from_height")).getD .none)
  let batch_size ← resolve_get_chain_batch_size ((Dict.find payload (lit "limit")).getD .none)
    self.network.chain_sync_batch_size
  return self.chain_reply from_height batch_size

omit [Runtime] in
/-- The session `_request_chain` creates. -/
def start_session (self : Node) : PyM ChainSyncSession := do
  let from_height : ℤ := if self.blockchain.chain.length > 0 then self.blockchain.chain.length + 1
    else 1
  match self.blockchain.chain.getLast? with
  | none => return ⟨[], false, from_height, .none, 0⟩
  | some tip =>
    let header ← tip.item (lit "block_header")
    let tran_hash ← header.item (lit "tran_hash")
    return ⟨[], false, from_height, tran_hash, 0⟩

end Node

/-- `_join_chain_suffix`. -/
def join_chain_suffix (local_chain suffix : List Block) : PyM (Option (List Block)) := do
  let first ← orRaise .indexError suffix.head?
  let first_header ← first.item (lit "block_header")
  let prev_hash ← first_header.get (lit "prev_hash") .none
  let last ← orRaise .indexError local_chain.getLast?
  let last_header ← last.item (lit "block_header")
  let tran_hash ← last_header.get (lit "tran_hash") .none
  if !prev_hash.eq tran_hash then return none
  else return some (local_chain ++ suffix)

/-- `canonical != local`: a list is equal to itself whatever is in it. -/
def differs (canonical local_chain : List Block) : Bool :=
  canonical ≠ local_chain && !(PyVal.list canonical).eq (.list local_chain)

namespace Node

variable [Runtime] [Rsa]

omit [Runtime] in
/-- The chains `_resolve_fork` chooses from. -/
def fork_candidates (self : Node) (remote_chain : List Block) : PyM (List (List Block)) :=
  if self.blockchain.chain.isEmpty then .ok [remote_chain]
  else do
    let joined ← join_chain_suffix self.blockchain.chain remote_chain
    return [self.blockchain.chain, joined.getD remote_chain]

/-- The chain `_resolve_fork` selects. -/
def canonical_chain (self : Node) (remote_chain : List Block) : PyM (List Block) := do
  let candidates ← self.fork_candidates remote_chain
  let consensus ← orRaise .attributeError self.blockchain.consensus
  consensus.select_canonical_chain candidates (some self.genesis_stakes)

/-- `_resolve_fork`. -/
def resolve_fork (self : Node) (remote_chain : List Block) : PyM Unit × Node :=
  if remote_chain.isEmpty then (.ok (), self)
  else
    match self.canonical_chain remote_chain with
    | .error e => (.error e, self)
    | .ok canonical =>
      if !canonical.isEmpty && differs canonical self.blockchain.chain then
        match self.blockchain.replace_chain canonical (some self.genesis_stakes) with
        | (.error e, blockchain) => (.error e, { self with blockchain := blockchain })
        | (.ok _, blockchain) => (.ok (), { self with blockchain := blockchain })
      else (.ok (), self)

/-- The end of `_request_chain`, once the session's event is set. -/
def finish_session (self : Node) (session : ChainSyncSession) : PyM Unit × Node :=
  if session.blocks.isEmpty then (.ok (), self) else self.resolve_fork session.blocks

/-- The `NEW_BLOCK` branch of `_handle_message`, up to the synchronisation that
follows a refused block. -/
def new_block (self : Node) (payload : Dict) : PyM Bool × Node :=
  match Dict.find payload (lit "block") with
  | some (.dict (entry :: entries)) =>
    let (added, blockchain) :=
      self.blockchain.add_block (.dict (entry :: entries)) true (some self.genesis_stakes)
    (added, { self with blockchain := blockchain })
  | _ => (.ok true, self)

end Node

end EasyBlockchain
