/-
`network/messages.py` and `PeerConnection.send`: what leaves a node.

A message is one JSON text, and `send` does not send a text of more than
`max_message_bytes` bytes. An answer to `GET_CHAIN` is limited by the number of
its blocks only, so whether it leaves the node depends on the bytes of all
blocks of the batch together.
-/
import EasyBlockchain.SyncSession
import EasyBlockchain.ForkResolution
import EasyBlockchain.Py.JsonLoads

set_option autoImplicit false

namespace EasyBlockchain

open Py Lib

inductive MessageType
  | hello
  | peers
  | get_chain
  | chain_response
  | new_block
  | ping
  | pong
  deriving DecidableEq

def MessageType.value : MessageType → Str
  | hello => lit "HELLO"
  | peers => lit "PEERS"
  | get_chain => lit "GET_CHAIN"
  | chain_response => lit "CHAIN_RESPONSE"
  | new_block => lit "NEW_BLOCK"
  | ping => lit "PING"
  | pong => lit "PONG"

/-- The part of `PeerConnection` that sending looks at. -/
structure PeerConnection where
  closed : Bool
  max_message_bytes : ℤ

section Defs

variable [Runtime]

omit [Runtime] in
/-- `{**payload, "type": msg_type.value}`. -/
def message_body (msg_type : MessageType) (payload : Dict) : Dict :=
  Dict.set payload (lit "type") (.str msg_type.value)

def encode_message (msg_type : MessageType) (payload : Dict) : PyM Str :=
  dumps sortedAscii (.dict (message_body msg_type payload))

omit [Runtime] in
/-- `MessageType(value)`, `none` where it raises `ValueError`. -/
def MessageType.of_value (value : PyVal) : Option MessageType :=
  [hello, peers, get_chain, chain_response, new_block, ping, pong].find? fun msg_type =>
    value = .str msg_type.value

/-- `decode_message`; `MessageDecodeError` is a `ValueError`. -/
def decode_message (raw : Str) : PyM (MessageType × Dict) := do
  let data ← (loads raw).mapError fun e => if e = .jsonDecodeError then .valueError else e
  match data with
  | .dict data =>
    let value ← orRaise .valueError (Dict.find data (lit "type"))
    let msg_type ← orRaise .valueError (MessageType.of_value value)
    return (msg_type, Dict.without data (lit "type"))
  | _ => .error .valueError

/-- `PeerConnection.send`: the text given to the websocket, if any. -/
def PeerConnection.send (self : PeerConnection) (msg_type : MessageType) (payload : Dict) :
    PyM (Option Str) :=
  if self.closed then .ok none
  else do
    let encoded ← encode_message msg_type payload
    let size ← utf8Size encoded
    if self.max_message_bytes < size then return none
    else return some encoded

/-- The bytes of a message. -/
def message_bytes (msg_type : MessageType) (payload : Dict) : PyM ℕ :=
  jsonSize sortedAscii (.dict (message_body msg_type payload))

end Defs

section Send

variable [Runtime] {peer : PeerConnection}

/-- An open connection sends what is within the limit. -/
theorem send_eq_some (hopen : peer.closed = false) {msg_type : MessageType} {payload : Dict} :
    (∃ text, peer.send msg_type payload = .ok (some text)) ↔
      ∃ size : ℕ, message_bytes msg_type payload = .ok size ∧ size ≤ peer.max_message_bytes := by
  simp only [PeerConnection.send, hopen, Bool.false_eq_true, if_false, message_bytes, jsonSize,
    encode_message, bind_eq_ok]
  constructor
  · rintro ⟨text, encoded, hencoded, size, hsize, h⟩
    by_cases hlarge : peer.max_message_bytes < size
    · rw [if_pos hlarge] at h
      cases h
    · exact ⟨size, ⟨encoded, hencoded, hsize⟩, not_lt.mp hlarge⟩
  · rintro ⟨size, ⟨encoded, hencoded, hsize⟩, hle⟩
    exact ⟨encoded, encoded, hencoded, size, hsize, by rw [if_neg (not_lt.mpr hle)]; rfl⟩

end Send

/-! ## Answers to `GET_CHAIN` -/

section Defs

variable [Runtime] [Rsa] (self : Node)

omit [Runtime] in
/-- The payload that `Node.add_block` broadcasts. -/
def Node.announcement (block : Block) : Dict :=
  [(.str (lit "block"), block), (.str (lit "node_id"), .str self.node_id)]

/-- The bytes of an answer without its blocks. -/
def Node.fixed_bytes (from_height batch_size : ℤ) : PyM ℕ :=
  message_bytes .chain_response
    ((.str (lit "blocks"), .list []) :: (self.chain_reply from_height batch_size).tail)

end Defs

section Answers

variable [Runtime]

/-- Blocks within a bound add up. -/
theorem exists_sizes_le {bound : ℕ} {blocks : List Block}
    (h : ∀ block ∈ blocks, ∃ size, jsonSize sortedAscii block = .ok size ∧ size ≤ bound) :
    ∃ sizes, mapPy (jsonSize sortedAscii) blocks = .ok sizes ∧
      sizes.sum ≤ sizes.length * bound := by
  induction blocks with
  | nil => exact ⟨[], rfl, Nat.zero_le _⟩
  | cons block rest ih =>
      obtain ⟨size, hsize, hle⟩ := h block List.mem_cons_self
      obtain ⟨sizes, hsizes, hsum⟩ := ih fun b hb => h b (List.mem_cons_of_mem block hb)
      refine ⟨size :: sizes, ?_, ?_⟩
      · rw [mapPy, hsize, ok_bind, hsizes, ok_bind, pure_eq]
      · rw [List.sum_cons, List.length_cons, Nat.add_mul, Nat.one_mul]
        omega

variable [Rsa] {node : Node} {peer : PeerConnection}

omit [Runtime] [Rsa] in
/-- A value that is no number raises only what the handler of a request catches. -/
theorem resolve_int_ok (default : ℤ) (raw : PyVal) : ∃ i, resolve_int default raw = .ok i := by
  unfold resolve_int ProofOfWork.try_int
  cases raw with
  | none => exact ⟨default, rfl⟩
  | bool b => exact ⟨_, rfl⟩
  | int i => exact ⟨i, rfl⟩
  | float f =>
      cases f with
      | nan => exact ⟨default, rfl⟩
      | inf negative => exact ⟨default, rfl⟩
      | negZero => exact ⟨0, rfl⟩
      | fin q => exact ⟨_, rfl⟩
  | str s =>
      simp only [PyVal.toInt]
      rcases intOfStr s with _ | i
      · exact ⟨default, rfl⟩
      · exact ⟨i, rfl⟩
  | list xs => exact ⟨default, rfl⟩
  | tuple xs => exact ⟨default, rfl⟩
  | dict d => exact ⟨default, rfl⟩
  | object hashable id => exact ⟨default, rfl⟩

omit [Runtime] [Rsa] in
theorem exists_resolve_from_height (raw : PyVal) :
    ∃ from_height, resolve_get_chain_from_height raw = .ok from_height ∧ 1 ≤ from_height := by
  obtain ⟨i, hi⟩ := resolve_int_ok 1 raw
  unfold resolve_get_chain_from_height
  rw [hi, ok_bind, pure_eq]
  refine ⟨_, rfl, ?_⟩
  split <;> omega

omit [Runtime] [Rsa] in
theorem exists_resolve_batch_size (raw : PyVal) (max_batch : ℤ) :
    ∃ batch_size, resolve_get_chain_batch_size raw max_batch = .ok batch_size ∧
      1 ≤ batch_size ∧ batch_size ≤ max 1 max_batch := by
  obtain ⟨i, hi⟩ := resolve_int_ok max_batch raw
  unfold resolve_get_chain_batch_size
  rw [hi, ok_bind, pure_eq]
  refine ⟨_, rfl, le_max_left _ _, ?_⟩
  omega

omit [Runtime] in
/-- The handler of `GET_CHAIN` answers every payload. -/
theorem get_chain_ok (payload : Dict) : ∃ from_height batch_size,
    node.get_chain payload = .ok (node.chain_reply from_height batch_size) ∧
      1 ≤ from_height ∧ 1 ≤ batch_size ∧
      batch_size ≤ max 1 node.network.chain_sync_batch_size := by
  obtain ⟨from_height, hfrom, hfrom_pos⟩ := exists_resolve_from_height
    ((Dict.find payload (lit "from_height")).getD .none)
  obtain ⟨batch_size, hbatch, hbatch_pos, hbatch_le⟩ := exists_resolve_batch_size
    ((Dict.find payload (lit "limit")).getD .none) node.network.chain_sync_batch_size
  refine ⟨from_height, batch_size, ?_, hfrom_pos, hbatch_pos, hbatch_le⟩
  unfold Node.get_chain
  rw [hfrom, ok_bind, hbatch, ok_bind, pure_eq]

/-- The bytes of an answer: its fixed fields, the blocks, and two bytes between blocks. -/
theorem answer_bytes {from_height batch_size : ℤ} {n : ℕ} :
    message_bytes .chain_response (node.chain_reply from_height batch_size) = .ok n ↔
      ∃ fixed sizes, node.fixed_bytes from_height batch_size = .ok fixed ∧
        mapPy (jsonSize sortedAscii)
          (node.blockchain.get_blocks_from from_height (some batch_size.toNat)) = .ok sizes ∧
        n = fixed + sizes.sum + 2 * (sizes.length - 1) := by
  have hbody : ∀ v : PyVal, message_body .chain_response
      ((.str (lit "blocks"), v) :: (node.chain_reply from_height batch_size).tail) =
        (.str (lit "blocks"), v) ::
          message_body .chain_response (node.chain_reply from_height batch_size).tail := by
    intro v
    rfl
  have hkeys : ∀ p ∈ message_body .chain_response (node.chain_reply from_height batch_size).tail,
      ∃ k, p.1 = .str k := by
    intro p hp
    have hp' : p.1 ∈ (message_body .chain_response
        (node.chain_reply from_height batch_size).tail).map Prod.fst := List.mem_map_of_mem hp
    have hfst : (message_body .chain_response (node.chain_reply from_height batch_size).tail).map
        Prod.fst = [lit "from_height", lit "next_height", lit "has_more", lit "node_id",
          lit "type"].map PyKey.str := rfl
    rw [hfst] at hp'
    obtain ⟨k, -, hk⟩ := List.mem_map.mp hp'
    exact ⟨k, hk.symm⟩
  have hempty : jsonSize sortedAscii (.list []) = .ok 2 :=
    (jsonSize_list rfl).mpr ⟨[], rfl, rfl⟩
  have hcons := @jsonSize_dict_cons _ sortedAscii rfl (lit "blocks")
    (.list (node.blockchain.get_blocks_from from_height (some batch_size.toNat))) (.list [])
    _ hkeys 2 n hempty
  simp only [← hbody] at hcons
  rw [Node.fixed_bytes]
  refine hcons.trans ?_
  simp only [@jsonSize_list _ sortedAscii rfl]
  constructor
  · rintro ⟨m, fixed, ⟨sizes, hsizes, rfl⟩, hfixed, hn⟩
    exact ⟨fixed, sizes, hfixed, hsizes, by omega⟩
  · rintro ⟨fixed, sizes, hfixed, hsizes, hn⟩
    exact ⟨_, fixed, ⟨sizes, hsizes, rfl⟩, hfixed, by omega⟩

/-- Every `GET_CHAIN` is answered; the answer leaves the node exactly when its
fixed fields, the blocks of the batch and what stands between them are together
within the limit of the connection. -/
theorem answer_sent (hopen : peer.closed = false) (payload : Dict) :
    ∃ from_height batch_size,
      node.get_chain payload = .ok (node.chain_reply from_height batch_size) ∧
      1 ≤ from_height ∧ 1 ≤ batch_size ∧ batch_size ≤ max 1 node.network.chain_sync_batch_size ∧
      ((∃ text, peer.send .chain_response (node.chain_reply from_height batch_size)
          = .ok (some text)) ↔
        ∃ fixed sizes, node.fixed_bytes from_height batch_size = .ok fixed ∧
          mapPy (jsonSize sortedAscii)
            (node.blockchain.get_blocks_from from_height (some batch_size.toNat)) = .ok sizes ∧
          ((fixed + sizes.sum + 2 * (sizes.length - 1) : ℕ) : ℤ) ≤ peer.max_message_bytes) := by
  obtain ⟨from_height, batch_size, hget, hfrom, hbatch, hle⟩ := @get_chain_ok _ node payload
  refine ⟨from_height, batch_size, hget, hfrom, hbatch, hle, ?_⟩
  rw [send_eq_some hopen]
  constructor
  · rintro ⟨n, hn, hlimit⟩
    obtain ⟨fixed, sizes, hfixed, hsizes, rfl⟩ := answer_bytes.mp hn
    exact ⟨fixed, sizes, hfixed, hsizes, hlimit⟩
  · rintro ⟨fixed, sizes, hfixed, hsizes, hlimit⟩
    exact ⟨_, answer_bytes.mpr ⟨fixed, sizes, hfixed, hsizes, rfl⟩, hlimit⟩

/-- Blocks of at most `bound` bytes leave the node in batches that are small enough. -/
theorem answer_sent_of_bounded (hopen : peer.closed = false) {from_height batch_size : ℤ}
    {fixed bound : ℕ} (hfixed : node.fixed_bytes from_height batch_size = .ok fixed)
    (hblocks : ∀ block ∈ node.blockchain.chain,
      ∃ size, jsonSize sortedAscii block = .ok size ∧ size ≤ bound)
    (hlimit : ((fixed + batch_size.toNat * (bound + 2) : ℕ) : ℤ) ≤ peer.max_message_bytes) :
    ∃ text, peer.send .chain_response (node.chain_reply from_height batch_size)
      = .ok (some text) := by
  have hsub : ∀ block ∈ node.blockchain.get_blocks_from from_height (some batch_size.toNat),
      ∃ size, jsonSize sortedAscii block = .ok size ∧ size ≤ bound :=
    fun block hmem => hblocks block (List.mem_of_mem_drop (List.mem_of_mem_take hmem))
  have hlength : (node.blockchain.get_blocks_from from_height (some batch_size.toNat)).length
      ≤ batch_size.toNat := List.length_take_le _ _
  obtain ⟨sizes, hsizes, hsum⟩ := exists_sizes_le hsub
  rw [send_eq_some hopen]
  refine ⟨_, answer_bytes.mpr ⟨fixed, sizes, hfixed, hsizes, rfl⟩, le_trans ?_ hlimit⟩
  have hle : sizes.length ≤ batch_size.toNat := (length_mapPy hsizes).trans_le hlength
  have hmul : sizes.length * (bound + 2) ≤ batch_size.toNat * (bound + 2) :=
    Nat.mul_le_mul_right _ hle
  rw [Nat.mul_add] at hmul
  omega

end Answers

/-! ## A chain whose blocks are announced and never answered -/

namespace Rewritten

attribute [local instance] cpython letterRsa

/-- A kilobyte a message: room for one block, and not for three. -/
def kilobyte : NetworkSettings := { network with max_message_bytes := 1000 }

def connection : PeerConnection := ⟨false, kilobyte.max_message_bytes⟩

theorem answer_sent_mined : ∃ from_height batch_size,
    (node kilobyte mined).get_chain [] = .ok ((node kilobyte mined).chain_reply from_height batch_size) ∧
    1 ≤ from_height ∧ 1 ≤ batch_size ∧ batch_size ≤ max 1 kilobyte.chain_sync_batch_size ∧
    ((∃ text, connection.send .chain_response
        ((node kilobyte mined).chain_reply from_height batch_size) = .ok (some text)) ↔
      ∃ fixed sizes, (node kilobyte mined).fixed_bytes from_height batch_size = .ok fixed ∧
        mapPy (jsonSize sortedAscii) ((node kilobyte mined).blockchain.get_blocks_from from_height
          (some batch_size.toNat)) = .ok sizes ∧
        ((fixed + sizes.sum + 2 * (sizes.length - 1) : ℕ) : ℤ) ≤ connection.max_message_bytes) :=
  answer_sent rfl []

/-- Every block of the chain fits into an announcement; the answer to a request
for the chain is dropped. -/
theorem answer_dropped :
    Verifies ((node kilobyte mined).blockchain.verify_chain (some .empty)) ∧
    (∀ block ∈ (node kilobyte mined).blockchain.chain, ∃ text,
      connection.send .new_block ((node kilobyte mined).announcement block) = .ok (some text)) ∧
    (node kilobyte mined).get_chain [] = .ok ((node kilobyte mined).chain_reply 1 100) ∧
    connection.send .chain_response ((node kilobyte mined).chain_reply 1 100) = .ok none := by
  refine ⟨(node_runs kilobyte mined).verifies_iff.mpr grows_mined, ?_, by decide +kernel,
    by decide +kernel⟩
  have hsizes : ∀ block ∈ mined, ∃ size ∈ [414, 416],
      message_bytes .new_block ((node kilobyte mined).announcement block) = .ok size := by
    decide +kernel
  intro block hblock
  obtain ⟨size, hsize, hbytes⟩ := hsizes block hblock
  rw [send_eq_some rfl]
  refine ⟨size, hbytes, ?_⟩
  rcases List.mem_pair.mp hsize with rfl | rfl <;> decide

end Rewritten

end EasyBlockchain
