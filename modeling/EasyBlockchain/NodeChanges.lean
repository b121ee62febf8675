/-
How the blockchain of a running node can change.

Local blocks, received blocks and other chains leave the protocol as it is up to
its stakes. The blocks that get into the chain under the node's own id carry its
key, whichever way they come: a local one because it is signed with it, a
received one because it is the key registered for that id.
-/
import EasyBlockchain.StakeCache

set_option autoImplicit false

namespace EasyBlockchain

open Py Lib

/-! ## What a running node keeps of its protocol -/

section Core

variable [Runtime] [Rsa]

omit [Runtime] in
/-- A protocol without its stakes. -/
def Consensus.core : Consensus → Consensus
  | .pow self => .pow self
  | .pos self => .pos { self with genesis_stakes := none, validators := .empty }

omit [Runtime] in
/-- What no change of the chain touches: the protocol without its stakes, and
the genesis hash. -/
def BlockChain.core (self : BlockChain) : Option Consensus × Str :=
  (self.consensus.map Consensus.core, self.genesis_prev_hash)

omit [Runtime] in
theorem core_append (self : BlockChain) (block : Block) :
    (self.append block).2.core = self.core ∧
      (self.append block).2.chain = self.chain ++ [block] := by
  unfold BlockChain.append
  rcases hconsensus : self.consensus with _ | consensus
  · simp only [BlockChain.core, hconsensus, and_self]
  · cases consensus with
    | pow pow => simp only [Consensus.on_block_added, BlockChain.core, hconsensus, and_self]
    | pos pos =>
        simp only [Consensus.on_block_added, ProofOfStake.on_block_added]
        rcases ProofOfStake.apply_block_reward pos.settings pos.validators block with e | validators
        · simp only [error_bind, BlockChain.core, hconsensus, and_self]
        · simp only [ok_bind, pure_eq, BlockChain.core, hconsensus, Option.map_some, Consensus.core,
            and_self]

/-- A local block is appended once it is complete. -/
theorem add_new_block_cases (self : BlockChain) (input : BlockChain.LocalInput) :
    (self.add_new_block input).2 = self ∨
      ∃ block, (self.draft_block input >>= self.complete_block input) = .ok block ∧
        (self.add_new_block input).2 = (self.append block).2 := by
  unfold BlockChain.add_new_block
  rcases hblock : self.draft_block input >>= self.complete_block input with e | block
  · exact Or.inl rfl
  · right
    refine ⟨block, rfl, ?_⟩
    simp only
    rcases self.append block with ⟨_ | _, _⟩
    · rfl
    · rfl

/-- A received block is appended once it is checked. -/
theorem add_block_cases (self : BlockChain) (block : Block) (genesis_stakes : StakeMap) :
    (self.add_block block true (some genesis_stakes)).2 = self ∨
      self.received_checks block (some genesis_stakes) = .ok true ∧
        (self.add_block block true (some genesis_stakes)).2 = (self.append block).2 := by
  unfold BlockChain.add_block
  rw [if_pos rfl]
  rcases hchecks : self.received_checks block (some genesis_stakes) with e | _ | _
  · exact Or.inl rfl
  · exact Or.inl rfl
  · right
    refine ⟨rfl, ?_⟩
    simp only
    rcases self.append block with ⟨_ | _, _⟩
    · rfl
    · rfl

/-- A chain is replaced once it is verified. -/
theorem replace_chain_cases (self : BlockChain) (new_chain : List Block)
    (genesis_stakes : StakeMap) :
    (self.replace_chain new_chain (some genesis_stakes)).2 = self ∨
      Verifies (verify_chain_integrity new_chain self.consensus self.genesis_prev_hash
        (some genesis_stakes)) ∧
      (self.replace_chain new_chain (some genesis_stakes)).2.core = self.core ∧
      (self.replace_chain new_chain (some genesis_stakes)).2.chain = new_chain := by
  unfold BlockChain.replace_chain
  rcases hverify : verify_chain_integrity new_chain self.consensus self.genesis_prev_hash
    (some genesis_stakes) with e | verification
  · exact Or.inl rfl
  by_cases hvalid : verification.valid = true
  swap
  · left
    simp only [hvalid, Bool.not_false, if_true]
  right
  refine ⟨⟨verification, rfl, hvalid⟩, ?_⟩
  simp only [hvalid, Bool.not_true, Bool.false_eq_true, if_false]
  rcases hconsensus : self.consensus with _ | consensus
  · simp only [BlockChain.core, hconsensus, and_self]
  cases consensus with
  | pow pow => simp only [BlockChain.core, hconsensus, and_self]
  | pos pos =>
      simp only [ProofOfStake.sync_validators_from_chain]
      rcases ProofOfStake.compute_validators_from_chain new_chain genesis_stakes pos.settings
        with e | validators
      · simp only [error_bind, BlockChain.core, hconsensus, and_self]
      · simp only [ok_bind, pure_eq, BlockChain.core, hconsensus, Option.map_some, Consensus.core,
          and_self]

/-- A chain replaces another once it is verified. -/
theorem verifies_of_replace_chain {self blockchain : BlockChain} {new_chain : List Block}
    {genesis_stakes : StakeMap}
    (h : self.replace_chain new_chain (some genesis_stakes) = (.ok true, blockchain)) :
    Verifies (verify_chain_integrity new_chain self.consensus self.genesis_prev_hash
      (some genesis_stakes)) := by
  unfold BlockChain.replace_chain at h
  rcases hverify : verify_chain_integrity new_chain self.consensus self.genesis_prev_hash
    (some genesis_stakes) with e | verification
  · rw [hverify] at h
    cases h
  · refine ⟨verification, rfl, ?_⟩
    by_contra hvalid
    rw [hverify] at h
    simp only [hvalid, Bool.not_false, if_true, Prod.mk.injEq, Except.ok.injEq,
      Bool.false_eq_true, false_and] at h

/-- What one change does to the blockchain of a node: nothing, one more block,
local or received, or another chain. -/
inductive StakeStep (genesis_stakes : StakeMap) (self self' : BlockChain) : Prop
  | stay (same : self' = self)
  | mined (input : BlockChain.LocalInput) (block : Block)
      (complete : (self.draft_block input >>= self.complete_block input) = .ok block)
      (core : self'.core = self.core) (chain : self'.chain = self.chain ++ [block])
  | received (block : Block)
      (checks : self.received_checks block (some genesis_stakes) = .ok true)
      (core : self'.core = self.core) (chain : self'.chain = self.chain ++ [block])
  | replaced
      (verifies : Verifies (verify_chain_integrity self'.chain self.consensus
        self.genesis_prev_hash (some genesis_stakes)))
      (core : self'.core = self.core)

theorem StakeStep.replace_chain (self : BlockChain) (new_chain : List Block)
    (genesis_stakes : StakeMap) :
    StakeStep genesis_stakes self (self.replace_chain new_chain (some genesis_stakes)).2 := by
  rcases replace_chain_cases self new_chain genesis_stakes with hstay | ⟨hverifies, hcore, hchain⟩
  · exact .stay hstay
  · rw [← hchain] at hverifies
    exact .replaced hverifies hcore

/-- Every change of a node is one of these, and leaves its id and its genesis
stakes alone. -/
theorem stake_step_cases (node : Node) (op : StakeOp) :
    StakeStep node.genesis_stakes node.blockchain (node.stake_step op).blockchain ∧
      (node.stake_step op).node_id = node.node_id ∧
      (node.stake_step op).genesis_stakes = node.genesis_stakes := by
  cases op with
  | add_new_block input =>
      refine ⟨?_, rfl, rfl⟩
      rcases add_new_block_cases node.blockchain input with hstay | ⟨block, hcomplete, happend⟩
      · exact .stay hstay
      · have hcore := core_append node.blockchain block
        rw [← happend] at hcore
        exact .mined input block hcomplete hcore.1 hcore.2
  | add_block block =>
      refine ⟨?_, rfl, rfl⟩
      rcases add_block_cases node.blockchain block node.genesis_stakes with hstay | ⟨hchecks, happend⟩
      · exact .stay hstay
      · have hcore := core_append node.blockchain block
        rw [← happend] at hcore
        exact .received block hchecks hcore.1 hcore.2
  | replace_chain new_chain =>
      exact ⟨.replace_chain node.blockchain new_chain node.genesis_stakes, rfl, rfl⟩
  | resolve_fork remote_chain =>
      rw [Node.stake_step]
      rcases resolve_fork_replaces node remote_chain with hstay | ⟨canonical, hreplace⟩
      · rw [hstay]
        exact ⟨.stay rfl, rfl, rfl⟩
      · rw [hreplace]
        exact ⟨.replace_chain node.blockchain canonical node.genesis_stakes, rfl, rfl⟩

theorem StakeStep.core_eq {genesis_stakes : StakeMap} {self self' : BlockChain}
    (h : StakeStep genesis_stakes self self') : self'.core = self.core := by
  cases h with
  | stay same => rw [same]
  | mined input block complete core chain => exact core
  | received block checks core chain => exact core
  | replaced verifies core => exact core

end Core

/-! ## The node's own blocks -/

section OwnKey

variable [Runtime] [Rsa]

omit [Runtime] [Rsa] in
/-- The block names a validator, and carries the key `key` if it is the one
called `own`. -/
def NamesKey (own key : Str) (block : Block) : Prop :=
  ∃ id, HeaderIs block (lit "validator_id") (.str id) ∧
    (id = own → block.item (lit "public_key") = .ok (.str key))

/-- A proof-of-stake protocol of a node called `own` that signs with a key and
has it registered. -/
structure SignsAs (own key : Str) (pos : ProofOfStake) : Prop where
  own_id : pos.node_validator_id = some own
  exported : export_public_key pos.signature_manager = .ok key
  registered : pos.validator_public_keys.find own = some key

variable {own key : Str} {pos pos' : ProofOfStake} {self self' : BlockChain} {genesis_stakes : StakeMap}

omit [Runtime] in
theorem SignsAs.congr (h : SignsAs own key pos)
    (hcore : (Consensus.pos pos').core = (Consensus.pos pos).core) : SignsAs own key pos' := by
  have hpos := Consensus.pos.inj hcore
  have hid := congrArg ProofOfStake.node_validator_id hpos
  have hmanager := congrArg ProofOfStake.signature_manager hpos
  have hkeys := congrArg ProofOfStake.validator_public_keys hpos
  simp only at hid hmanager hkeys
  obtain ⟨hown, hexported, hregistered⟩ := h
  rw [← hid] at hown
  rw [← hmanager] at hexported
  rw [← hkeys] at hregistered
  exact ⟨hown, hexported, hregistered⟩

/-- A block that may follow carries the registered key of the validator it names. -/
theorem namesKey_of_step {g : Str} {seen : List Block} {block : Block}
    (hregistered : pos.validator_public_keys.find own = some key)
    (h : PosStep pos g genesis_stakes seen block) : NamesKey own key block := by
  obtain ⟨-, f, hof, hvalid⟩ := h
  refine ⟨f.validator_id, hof.validator_id, ?_⟩
  rintro rfl
  have hkey := hvalid.registered
  rw [hregistered, Option.some.injEq] at hkey
  rw [hof.public_key, hkey]

omit [Runtime] [Rsa] in
theorem namesValidators_of_namesKey {chain : List Block}
    (h : ∀ block ∈ chain, NamesKey own key block) : NamesValidators chain := by
  intro block hblock
  obtain ⟨id, hid, -⟩ := h block hblock
  exact ⟨id, ProofOfStake.block_validator_id_of_header hid⟩

/-- However the chain changes, the blocks under the node's id carry its key. -/
theorem StakeStep.namesKey (h : StakeStep genesis_stakes self self')
    (hpos : self.consensus = some (.pos pos)) (hsigns : SignsAs own key pos)
    (hchain : ∀ block ∈ self.chain, NamesKey own key block) :
    ∀ block ∈ self'.chain, NamesKey own key block := by
  have happended : ∀ block, self'.chain = self.chain ++ [block] → NamesKey own key block →
      ∀ block ∈ self'.chain, NamesKey own key block := by
    intro block heq hblock b hb
    rw [heq] at hb
    rcases List.mem_append.mp hb with hb | hb
    · exact hchain b hb
    · rw [List.mem_singleton.mp hb]
      exact hblock
  cases h with
  | stay same =>
      rw [same]
      exact hchain
  | mined input block complete core chain =>
      apply happended block chain
      obtain ⟨id, key', hid, hkey, hheader, hblock⟩ := local_block_signed hpos complete
      rw [hsigns.exported, Except.ok.injEq] at hkey
      rw [hkey]
      exact ⟨id, hheader, fun _ => hblock⟩
  | received block checks core chain =>
      apply happended block chain
      exact namesKey_of_step hsigns.registered ((pos_received_checks hpos genesis_stakes
        (namesValidators_of_namesKey hchain) block).mp checks)
  | replaced verifies core =>
      rw [hpos] at verifies
      intro block hblock
      obtain ⟨i, hi, rfl⟩ := List.mem_iff_getElem.mp hblock
      exact namesKey_of_step hsigns.registered ((grows_of_verifies verifies).getElem hi)

end OwnKey

end EasyBlockchain
