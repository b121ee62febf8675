/-
`blockchain.py`: the chain a node holds and the three ways it changes.

An operation returns its result, or the exception it raises, together with the
chain it leaves behind. Reading the clock and drawing a signature's salt are
inputs of `add_new_block`.
-/
import EasyBlockchain.ChainValidator

set_option autoImplicit false

namespace EasyBlockchain

open Py

structure BlockChain [Rsa] where
  chain : List Block
  enable_signature : Bool
  consensus : Option Consensus
  genesis_prev_hash : Str
  signature_manager : Option SignatureManager

namespace BlockChain

variable [Runtime] [Rsa]

omit [Runtime] in
/-- `BlockChain(consensus=..., genesis_prev_hash=...)`. -/
def new (consensus : Option Consensus) (genesis_prev_hash : Str) : BlockChain :=
  ⟨[], false, consensus, genesis_prev_hash, none⟩

/-- `self.chain.append(block)` and the hook after it. -/
def append (self : BlockChain) (block : Block) : PyM Unit × BlockChain :=
  let self := { self with chain := self.chain ++ [block] }
  match self.consensus with
  | none => (.ok (), self)
  | some consensus =>
    match consensus.on_block_added block with
    | .ok consensus => (.ok (), { self with consensus := some consensus })
    | .error e => (.error e, self)

/-! ## Local blocks -/

/-- What a local block takes from outside. -/
structure LocalInput where
  input_data : PyVal
  output_data : PyVal
  clock : DateTime
  salt : List UInt8

/-- The hash a new block is put on top of. -/
def previous_hash (self : BlockChain) : PyM PyVal :=
  match self.chain.getLast? with
  | some last => do
    let header ← last.item (lit "block_header")
    header.item (lit "tran_hash")
  | none => .ok (.str self.genesis_prev_hash)

/-- The header before the consensus protocol fills it in. -/
def draft_header (self : BlockChain) (prev_hash : PyVal) (body_hash : Str) : PyM Dict :=
  match self.consensus with
  | some consensus =>
    .ok [(.str (lit "prev_hash"), prev_hash),
      (.str (lit "consensus_type"), .str consensus.consensus_type),
      (.str (lit "tran_hash"), .str [])]
  | none => do
    let tran_hash ← calc_legacy_tran_hash prev_hash body_hash
    return [(.str (lit "prev_hash"), prev_hash), (.str (lit "tran_hash"), .str tran_hash)]

/-- The block `add_new_block` builds before the consensus protocol completes it. -/
def draft_block (self : BlockChain) (input : LocalInput) : PyM Dict := do
  let new_transaction : PyVal := .dict
    [(.str (lit "input_data"), input.input_data), (.str (lit "output_data"), input.output_data)]
  let prev_hash ← previous_hash self
  let body_hash ← calc_body_hash new_transaction
  let header ← draft_header self prev_hash body_hash
  let input_count ← input.input_data.len
  let output_count ← input.output_data.len
  return [(.str (lit "block_index"), .int (self.chain.length + 1)),
    (.str (lit "block_item"), .str (strftime input.clock)),
    (.str (lit "block_header"), .dict header),
    (.str (lit "tran_counter"), .int (input_count + output_count)),
    (.str (lit "tran_body"), new_transaction)]

/-- The completed block: mined, proposed and signed, signed, or as it is. -/
def complete_block (self : BlockChain) (input : LocalInput) (block : Dict) : PyM Block :=
  match self.consensus with
  | some consensus => consensus.prepare_block input.salt block self.chain
  | none =>
    match self.enable_signature, self.signature_manager with
    | true, some manager =>
      if manager.private_key.isNone then .error .valueError
      else do
        let signed ← sign_block manager input.salt block
        return .dict signed
    | _, _ => .ok (.dict block)

def add_new_block (self : BlockChain) (input : LocalInput) : PyM Block × BlockChain :=
  match draft_block self input >>= complete_block self input with
  | .error e => (.error e, self)
  | .ok block =>
    match self.append block with
    | (.ok _, self) => (.ok block, self)
    | (.error e, self) => (.error e, self)

/-! ## Received blocks -/

/-- The link `add_block` checks without a consensus protocol. -/
def legacy_link (self : BlockChain) (block : Block) (previous : Option Block) : PyM Bool := do
  let prev_hash ← header_prev_hash block
  match previous with
  | some previous =>
    let previous_header ← previous.item (lit "block_header")
    let prev_tran ← previous_header.item (lit "tran_hash")
    if !prev_hash.eq prev_tran then return false
    let block_index ← block.get (lit "block_index") .none
    let previous_index ← previous.item (lit "block_index")
    let next_index ← previous_index.addOne
    return block_index.eq next_index
  | none => return prev_hash.eq (.str self.genesis_prev_hash)

/-- The checks `add_block` makes without a consensus protocol. -/
def legacy_checks (self : BlockChain) (block : Block) (previous : Option Block) : PyM Bool := do
  let linked ← legacy_link self block previous
  if !linked then return false
  let tran_body ← block.get (lit "tran_body") .none
  match tran_body with
  | .none => return false
  | tran_body =>
    let body_hash ← calc_body_hash tran_body
    let header ← block.item (lit "block_header")
    let prev_hash ← header.item (lit "prev_hash")
    let expected ← calc_legacy_tran_hash prev_hash body_hash
    let tran_hash ← header.get (lit "tran_hash") .none
    return tran_hash.eq (.str expected)

/-- The `validate_block` call of `add_block`. -/
def consensus_check (self : BlockChain) (consensus : Consensus) (block : Block)
    (genesis_stakes : Option StakeMap) : PyM ValidationResult :=
  match consensus, genesis_stakes with
  | .pos pos, some genesis_stakes => do
    let validators ←
      ProofOfStake.compute_validators_from_chain self.chain genesis_stakes pos.settings
    pos.validate_block block self.chain (some validators) none
  | consensus, _ => consensus.validate_block block self.chain

/-- `previous is None and block.get("block_index") != 1`, negated. -/
def first_index_ok (self : BlockChain) (block : Block) : PyM Bool :=
  match self.chain.getLast? with
  | none => do
    let block_index ← block.get (lit "block_index") .none
    return block_index.eq (.int 1)
  | some _ => .ok true

/-- The block under `if validate:`; `false` is the early `return False`. -/
def received_checks (self : BlockChain) (block : Block) (genesis_stakes : Option StakeMap) :
    PyM Bool := do
  let previous := self.chain.getLast?
  let first ← first_index_ok self block
  if !first then return false
  match self.consensus with
  | some consensus =>
    let link ← validate_chain_link consensus.genesis_prev_hash block previous
      (some self.genesis_prev_hash)
    if !link.valid then return false
    let result ← consensus_check self consensus block genesis_stakes
    return result.valid
  | none => legacy_checks self block previous

def add_block (self : BlockChain) (block : Block) (validate : Bool)
    (genesis_stakes : Option StakeMap) : PyM Bool × BlockChain :=
  match if validate then received_checks self block genesis_stakes else .ok true with
  | .error e => (.error e, self)
  | .ok false => (.ok false, self)
  | .ok true =>
    match self.append block with
    | (.ok _, self) => (.ok true, self)
    | (.error e, self) => (.error e, self)

/-! ## Whole chains -/

def replace_chain (self : BlockChain) (new_chain : List Block)
    (genesis_stakes : Option StakeMap) : PyM Bool × BlockChain :=
  match verify_chain_integrity new_chain self.consensus self.genesis_prev_hash genesis_stakes with
  | .error e => (.error e, self)
  | .ok verification =>
    if !verification.valid then (.ok false, self)
    else
      let self := { self with chain := new_chain }
      match self.consensus, genesis_stakes with
      | some (.pos pos), some genesis_stakes =>
        match pos.sync_validators_from_chain self.chain genesis_stakes with
        | .ok pos => (.ok true, { self with consensus := some (.pos pos) })
        | .error e => (.error e, self)
      | _, _ => (.ok true, self)

def verify_chain (self : BlockChain) (genesis_stakes : Option StakeMap) :
    PyM ChainVerificationResult :=
  verify_chain_integrity self.chain self.consensus self.genesis_prev_hash genesis_stakes

omit [Runtime] in
def get_blocks_from (self : BlockChain) (from_height : ℤ) (limit : Option ℕ) : List Block :=
  let from_height := if from_height < 1 then 1 else from_height
  let blocks := self.chain.drop (from_height - 1).toNat
  match limit with
  | some limit => blocks.take limit
  | none => blocks

/-- Under consensus a received block passes with an accepted link and an accepted
content. -/
theorem received_checks_iff {self : BlockChain} {consensus : Consensus}
    (hconsensus : self.consensus = some consensus) {block : Block}
    {genesis_stakes : Option StakeMap} :
    self.received_checks block genesis_stakes = .ok true ↔
      Accepts (validate_chain_link consensus.genesis_prev_hash block self.chain.getLast?
          (some self.genesis_prev_hash)) ∧
        Accepts (self.consensus_check consensus block genesis_stakes) := by
  simp only [received_checks, hconsensus, bind_eq_ok, pure_eq]
  constructor
  · rintro ⟨first, -, h⟩
    cases first
    · simp at h
    simp only [Bool.not_true, Bool.false_eq_true, if_false, bind_eq_ok] at h
    obtain ⟨link, hlink, h⟩ := h
    by_cases hvalid : link.valid = true
    · simp only [hvalid, Bool.not_true, Bool.false_eq_true, if_false, bind_eq_ok,
        Except.ok.injEq] at h
      obtain ⟨result, hresult, hok⟩ := h
      exact ⟨⟨link, hlink, hvalid⟩, result, hresult, hok⟩
    · simp [hvalid] at h
  · rintro ⟨⟨link, hlink, hvalid⟩, result, hresult, hok⟩
    refine ⟨true, ?_, by simp [hlink, hvalid, hresult, hok]⟩
    -- the first index is checked before the link, which checks it again
    rw [first_index_ok]
    rcases hlast : self.chain.getLast? with _ | last
    · rw [hlast] at hlink
      obtain ⟨⟨index, hindex, hone⟩, -⟩ := accepts_first_link.mp ⟨link, hlink, hvalid⟩
      simp [PyVal.get_of_item hindex, hone]
    · rfl

/-- One block after the other through `add_block`, stopping at the first that is
refused or raises; `true` when all are accepted. -/
def add_blocks (genesis_stakes : Option StakeMap) : BlockChain → List Block → Bool
  | _, [] => true
  | self, block :: rest =>
    match self.add_block block true genesis_stakes with
    | (.ok true, self) => add_blocks genesis_stakes self rest
    | _ => false

end BlockChain

end EasyBlockchain
