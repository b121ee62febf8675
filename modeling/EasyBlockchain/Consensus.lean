/-
The two consensus protocols as one type, and `consensus/factory.py`.

`ConsensusProtocol` is an abstract class with two implementations, and callers
ask `isinstance(..., ProofOfStake)`; here it is a sum.
-/
import EasyBlockchain.Pow
import EasyBlockchain.Pos

set_option autoImplicit false

namespace EasyBlockchain

open Py

/-- A `ConsensusProtocol`. -/
inductive Consensus [Rsa]
  | pow (self : ProofOfWork)
  | pos (self : ProofOfStake)

/-- The part of `ConsensusSettings` and `GenesisSettings` the factory reads. -/
structure ConsensusSettings where
  type : Str
  pow : PowSettings
  pos : PosSettings
  genesis_prev_hash : Str

namespace Consensus

variable [Runtime] [Rsa]

omit [Runtime] in
def consensus_type : Consensus → Str
  | pow _ => lit "pow"
  | pos _ => lit "pos"

omit [Runtime] in
def genesis_prev_hash : Consensus → Str
  | pow self => self.genesis_prev_hash
  | pos self => self.genesis_prev_hash

def prepare_block (self : Consensus) (salt : List UInt8) (block : Dict) (chain : List Block) :
    PyM Block :=
  match self with
  | pow self => ProofOfWork.mine_block self.settings (.dict block) chain
  | pos self => self.prepare_block salt block chain

/-- `validate_block(block, chain)`, without the keyword arguments. -/
def validate_block (self : Consensus) (block : Block) (chain : List Block) :
    PyM ValidationResult :=
  match self with
  | pow self => ProofOfWork.validate_block self.settings block chain
  | pos self => self.validate_block block chain none none

def on_block_added (self : Consensus) (block : Block) : PyM Consensus :=
  match self with
  | pow self => .ok (pow self)
  | pos self => do
    let self ← self.on_block_added block
    return pos self

def select_canonical_chain (self : Consensus) (chains : List (List Block))
    (genesis_stakes : Option StakeMap) : PyM (List Block) :=
  match self with
  | pow self => self.select_canonical_chain chains
  | pos self => self.select_canonical_chain chains genesis_stakes

/-- The stakes the factory registers: genesis, and the node itself. -/
def registered_stakes (settings : ConsensusSettings) (node_validator_id : Option Str)
    (genesis_stakes : Option StakeMap) : StakeMap :=
  let stakes := genesis_stakes.getD .empty
  match node_validator_id with
  | some id =>
    if !id.isEmpty && !stakes.contains id then stakes.set id settings.pos.min_stake else stakes
  | none => stakes

def create_consensus (settings : ConsensusSettings) (node_validator_id : Option Str)
    (signature_manager : SignatureManager) (genesis_stakes : Option StakeMap) : PyM Consensus :=
  if settings.type = lit "pow" then .ok (pow ⟨settings.pow, settings.genesis_prev_hash⟩)
  else if settings.type = lit "pos" then do
    let new : ProofOfStake :=
      ⟨settings.pos, node_validator_id, signature_manager, .empty, genesis_stakes, .empty,
        settings.genesis_prev_hash⟩
    let registered ← (registered_stakes settings node_validator_id genesis_stakes).entries.foldlM
      (fun (p : ProofOfStake) entry => p.register_validator entry.1 entry.2 none) new
    return pos registered
  else .error .valueError

end Consensus

end EasyBlockchain
