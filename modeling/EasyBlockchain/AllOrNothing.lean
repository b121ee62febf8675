/-
The three operations of `blockchain.py` end in one of two ways, in every mode.

Either the result is a success and the chain has changed as the operation says, or
nothing has changed and the call answered `False` or raised. The one thing that could
come between, an exception after the chain was written, does not happen: what follows
is the reward of a block, and a block that was accepted or built here names its
validator by a string.
-/
import EasyBlockchain.BlockStructure

set_option autoImplicit false

namespace EasyBlockchain

open Py Lib

section AllOrNothing

variable [Runtime] [Rsa]

/-! ## Blocks that can be rewarded -/

omit [Runtime] in
/-- Where the protocol looks for the validator of a block there is a string. -/
def Rewardable (consensus : Option Consensus) (block : Block) : Prop :=
  ∀ pos, consensus = some (.pos pos) →
    ∃ id, ProofOfStake.block_validator_id block = .ok (.str id)

variable {self : BlockChain} {block : Block} {genesis_stakes : Option StakeMap}

theorem names_of_validate {pos : ProofOfStake} {seen : List Block} {validators : Option StakeMap}
    {height : Option ℕ} (h : Accepts (pos.validate_block block seen validators height)) :
    ∃ id, ProofOfStake.block_validator_id block = .ok (.str id) := by
  obtain ⟨f, hof, -⟩ := (ProofOfStake.accepts_validate_block pos block seen validators height).mp h
  exact ⟨_, hof.block_validator_id⟩

/-- A received block that passes its checks can be rewarded. -/
theorem rewardable_of_received (h : self.received_checks block genesis_stakes = .ok true) :
    Rewardable self.consensus block := by
  intro pos hpos
  obtain ⟨-, hcheck⟩ := (BlockChain.received_checks_iff hpos).mp h
  unfold BlockChain.consensus_check at hcheck
  cases genesis_stakes with
  | none => exact names_of_validate hcheck
  | some stakes =>
      obtain ⟨validators, -, hvalid⟩ := accepts_bind.mp hcheck
      exact names_of_validate hvalid

/-- A block built here can be rewarded. -/
theorem rewardable_of_built {input : BlockChain.LocalInput}
    (h : (self.draft_block input >>= self.complete_block input) = .ok block) :
    Rewardable self.consensus block := by
  intro pos hpos
  obtain ⟨_, _, f, hof, -⟩ := proposed_block_fields hpos h
  exact ⟨_, hof.block_validator_id⟩

/-- So can the blocks of a chain that verifies with stakes. -/
theorem names_of_verifies {pos : ProofOfStake} {g : Str} {stakes : StakeMap} {chain : List Block}
    (h : Verifies (verify_chain_integrity chain (some (.pos pos)) g (some stakes))) :
    NamesValidators chain := by
  obtain ⟨v, hv, hvalid⟩ := h
  obtain ⟨out, hout, hverdict⟩ := bind_eq_ok.mp hv
  rcases out with s | r
  · have hgrows : Grows (fun _ block => ∃ id,
        ProofOfStake.block_validator_id block = .ok (.str id)) chain := by
      refine growsFrom_of_enumerate ?_ hout
      intro s pre block s' hpass
      simp only [pos_verify_step, pure_eq, check_eq_next] at hpass
      exact names_of_validate hpass.2.1
    intro block hblock
    obtain ⟨i, hi, rfl⟩ := List.mem_iff_getElem.mp hblock
    exact hgrows.getElem hi
  · -- an early return reports a failure
    have hfail : r.valid = false := by
      refine ret_of_enumerate (Q := fun r => r.valid = false) ?_ hout
      intro s pre block r hpass
      obtain ⟨reason, rfl⟩ := pos_verify_step_eq_ret hpass
      rfl
    obtain rfl : r = v := Except.ok.inj hverdict
    rw [hfail] at hvalid
    cases hvalid

/-! ## What a success leaves -/

omit [Runtime] in
/-- The protocol after a block was appended. -/
def Consensus.credited (self : Consensus) (block : Block) : Consensus :=
  match self with
  | pow self => pow self
  | pos self =>
    pos { self with validators := ProofOfStake.credit self.settings self.validators block }

/-- The chain after a block was appended. -/
def BlockChain.appended (self : BlockChain) (block : Block) : BlockChain :=
  { self with
    chain := self.chain ++ [block]
    consensus := self.consensus.map (·.credited block) }

omit [Runtime] in
/-- The protocol after the chain was replaced. -/
def Consensus.resynced (self : Consensus) (chain : List Block) (genesis_stakes : Option StakeMap) :
    Consensus :=
  match self, genesis_stakes with
  | pos self, some genesis_stakes =>
    pos { self with
      genesis_stakes := some genesis_stakes
      validators := ProofOfStake.replay self.settings genesis_stakes chain }
  | self, _ => self

/-- The chain after it was replaced. -/
def BlockChain.replaced (self : BlockChain) (chain : List Block) (genesis_stakes : Option StakeMap) :
    BlockChain :=
  { self with chain := chain, consensus := self.consensus.map (·.resynced chain genesis_stakes) }

omit [Runtime] in
/-- The hook after the append does not raise. -/
theorem append_eq (h : Rewardable self.consensus block) :
    self.append block = (.ok (), self.appended block) := by
  unfold BlockChain.append BlockChain.appended
  rcases hmode : self.consensus with _ | pow | pos
  · rfl
  · rfl
  · obtain ⟨id, hid⟩ := h pos hmode
    simp only [Consensus.on_block_added, ProofOfStake.on_block_added,
      ProofOfStake.apply_block_reward_of_id _ _ hid, ok_bind, pure_eq]
    rfl

/-! ## The operations -/

theorem add_new_block_ok {input : BlockChain.LocalInput}
    (h : (self.draft_block input >>= self.complete_block input) = .ok block) :
    self.add_new_block input = (.ok block, self.appended block) := by
  rw [BlockChain.add_new_block, h]
  simp only [append_eq (rewardable_of_built h)]

theorem add_new_block_raises {input : BlockChain.LocalInput} {e : PyErr}
    (h : (self.draft_block input >>= self.complete_block input) = .error e) :
    self.add_new_block input = (.error e, self) := by
  rw [BlockChain.add_new_block, h]

theorem add_block_true (h : self.received_checks block genesis_stakes = .ok true) :
    self.add_block block true genesis_stakes = (.ok true, self.appended block) := by
  rw [BlockChain.add_block, if_pos rfl, h]
  simp only [append_eq (rewardable_of_received h)]

theorem add_block_false (h : self.received_checks block genesis_stakes = .ok false) :
    self.add_block block true genesis_stakes = (.ok false, self) := by
  rw [BlockChain.add_block, if_pos rfl, h]

theorem add_block_error {e : PyErr} (h : self.received_checks block genesis_stakes = .error e) :
    self.add_block block true genesis_stakes = (.error e, self) := by
  rw [BlockChain.add_block, if_pos rfl, h]

theorem replace_chain_true {new_chain : List Block}
    (h : Verifies (verify_chain_integrity new_chain self.consensus self.genesis_prev_hash
      genesis_stakes)) :
    self.replace_chain new_chain genesis_stakes
      = (.ok true, self.replaced new_chain genesis_stakes) := by
  obtain ⟨verification, hverify, hvalid⟩ := h
  rw [BlockChain.replace_chain, hverify]
  simp only [hvalid, Bool.not_true, Bool.false_eq_true, if_false]
  unfold BlockChain.replaced
  rcases hmode : self.consensus with _ | pow | pos
  · rfl
  · rfl
  · cases genesis_stakes with
    | none => rfl
    | some stakes =>
        rw [hmode] at hverify
        have hcompute := ProofOfStake.compute_validators_eq_replay pos.settings stakes
          (names_of_verifies ⟨verification, hverify, hvalid⟩)
        simp only [ProofOfStake.sync_validators_from_chain, hcompute, ok_bind, pure_eq]
        rfl

theorem replace_chain_false {new_chain : List Block} {verification : ChainVerificationResult}
    (h : verify_chain_integrity new_chain self.consensus self.genesis_prev_hash genesis_stakes
      = .ok verification) (hinvalid : verification.valid = false) :
    self.replace_chain new_chain genesis_stakes = (.ok false, self) := by
  rw [BlockChain.replace_chain, h]
  simp only [hinvalid, Bool.not_false, if_true]

theorem replace_chain_error {new_chain : List Block} {e : PyErr}
    (h : verify_chain_integrity new_chain self.consensus self.genesis_prev_hash genesis_stakes
      = .error e) : self.replace_chain new_chain genesis_stakes = (.error e, self) := by
  rw [BlockChain.replace_chain, h]

/-- A local block has the next index. -/
theorem index_of_built {input : BlockChain.LocalInput}
    (h : (self.draft_block input >>= self.complete_block input) = .ok block) :
    block.item (lit "block_index") = .ok (.int (self.chain.length + 1)) := by
  obtain ⟨_, _, _, -, -, -, -, hindex, -⟩ := built_block h
  exact hindex

end AllOrNothing

end EasyBlockchain
