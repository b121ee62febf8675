/-
`network/node.py`: the changes of the chain that a running node makes, and when
they are to be saved.

`add_block`, an accepted `NEW_BLOCK` and a replaced chain call
`_schedule_persist`. Where a change raises or is refused it is not called, and
the chain is as it was: an exception can only come before the block is in the
chain, since the hook behind it does not raise for blocks that name a validator.
-/
import EasyBlockchain.NodeChanges

set_option autoImplicit false

namespace EasyBlockchain

open Py Lib

/-! ## Changes of the chain -/

/-- What changes the chain of a running node: a local block, a `NEW_BLOCK`
message, and a chain given to `_resolve_fork`. -/
inductive ChainChange
  | add_block (input : BlockChain.LocalInput)
  | new_block (payload : Dict)
  | resolve_fork (remote_chain : List Block)

section Change

variable [Runtime] [Rsa]

omit [Runtime] in
/-- What becomes of a node that changes its chain: `_schedule_persist` is called
where the change was made. -/
def Node.scheduled (self : Node) : PyM Bool × BlockChain → Bool × Node
  | (.ok true, blockchain) => (true, { self with blockchain := blockchain })
  | (_, blockchain) => (false, { self with blockchain := blockchain })

/-- `add_block`, up to the broadcast. -/
def Node.add_block (self : Node) (input : BlockChain.LocalInput) : Bool × Node :=
  let result := self.blockchain.add_new_block input
  self.scheduled (result.1.map fun _ => true, result.2)

/-- The `NEW_BLOCK` branch of `_handle_message`. -/
def Node.accept_new_block (self : Node) (payload : Dict) : Bool × Node :=
  match Dict.find payload (lit "block") with
  | some (.dict (entry :: entries)) =>
    self.scheduled
      (self.blockchain.add_block (.dict (entry :: entries)) true (some self.genesis_stakes))
  | _ => (false, self)

/-- `_resolve_fork`. -/
def Node.replace_fork (self : Node) (remote_chain : List Block) : Bool × Node :=
  if remote_chain.isEmpty then (false, self)
  else
    match self.canonical_chain remote_chain with
    | .error _ => (false, self)
    | .ok canonical =>
      if !canonical.isEmpty && differs canonical self.blockchain.chain then
        self.scheduled (self.blockchain.replace_chain canonical (some self.genesis_stakes))
      else (false, self)

def Node.change (self : Node) : ChainChange → Bool × Node
  | .add_block input => self.add_block input
  | .new_block payload => self.accept_new_block payload
  | .resolve_fork remote_chain => self.replace_fork remote_chain

omit [Runtime] in
theorem scheduled_node (self : Node) (result : PyM Bool × BlockChain) :
    (self.scheduled result).2 = { self with blockchain := result.2 } := by
  rcases result with ⟨e | _ | _, blockchain⟩
  · rfl
  · rfl
  · rfl

/-- These are the changes of the node: a scheduled save changes nothing else. -/
theorem change_node (self : Node) :
    (∀ payload, (self.accept_new_block payload).2 = (self.new_block payload).2) ∧
      ∀ remote_chain, (self.replace_fork remote_chain).2 = (self.resolve_fork remote_chain).2 := by
  constructor
  · intro payload
    unfold Node.accept_new_block Node.new_block
    rcases hblock : Dict.find payload (lit "block") with _ | block
    · rfl
    cases block with
    | dict entries =>
        cases entries with
        | nil => rfl
        | cons entry entries => simp only [scheduled_node]
    | _ => rfl
  · intro remote_chain
    unfold Node.replace_fork Node.resolve_fork
    split
    · rfl
    rcases self.canonical_chain remote_chain with e | canonical
    · rfl
    simp only
    split
    · rw [scheduled_node]
      rcases self.blockchain.replace_chain canonical (some self.genesis_stakes) with ⟨e | _, _⟩
      · rfl
      · rfl
    · rfl

variable {self : BlockChain} {block : Block} {genesis_stakes : StakeMap}

omit [Runtime] in
/-- The hook after an appended block raises only under proof of stake, and not
for a block that names its validator. -/
theorem append_ok (h : ∀ pos, self.consensus = some (.pos pos) →
    ∃ id, ProofOfStake.block_validator_id block = .ok (.str id)) :
    (self.append block).1 = .ok () := by
  rcases hconsensus : self.consensus with _ | pow | pos
  · simp [BlockChain.append, hconsensus]
  · simp [BlockChain.append, hconsensus, Consensus.on_block_added]
  · obtain ⟨id, hid⟩ := h pos hconsensus
    rw [pos_append hconsensus hid]

/-- A block that `add_block` lets through names its validator. -/
theorem named_of_received_checks (h : self.received_checks block (some genesis_stakes) = .ok true)
    (pos : ProofOfStake) (hpos : self.consensus = some (.pos pos)) :
    ∃ id, ProofOfStake.block_validator_id block = .ok (.str id) := by
  simp only [BlockChain.received_checks, hpos, bind_eq_ok] at h
  obtain ⟨first, -, h⟩ := h
  split at h
  · cases h
  simp only [bind_eq_ok] at h
  obtain ⟨link, -, h⟩ := h
  split at h
  · cases h
  simp only [BlockChain.consensus_check, bind_eq_ok, pure_eq, Except.ok.injEq] at h
  obtain ⟨result, ⟨validators, -, hresult⟩, hvalid⟩ := h
  obtain ⟨f, hof, -⟩ := (ProofOfStake.accepts_validate_block pos block self.chain (some validators)
    none).mp ⟨result, hresult, hvalid⟩
  exact ⟨f.validator_id, hof.block_validator_id⟩

/-- A local block that raises is not in the chain. -/
theorem add_new_block_error {input : BlockChain.LocalInput} {e : PyErr} {after : BlockChain}
    (h : self.add_new_block input = (.error e, after)) : after = self := by
  unfold BlockChain.add_new_block at h
  rcases hblock : self.draft_block input >>= self.complete_block input with e' | block
  · rw [hblock] at h
    exact (Prod.mk.inj h).2.symm
  · have hok : (self.append block).1 = .ok () := by
      apply append_ok
      intro pos hpos
      obtain ⟨_, _, f, hof, -⟩ := proposed_block_fields hpos hblock
      exact ⟨f.validator_id, hof.block_validator_id⟩
    rw [hblock] at h
    rcases happend : self.append block with ⟨_ | _, _⟩
    · rw [happend] at hok
      cases hok
    · simp only [happend, Prod.mk.injEq, reduceCtorEq, false_and] at h

/-- A received block that is not accepted is not in the chain. -/
theorem add_block_refused {result : PyM Bool} {after : BlockChain}
    (h : self.add_block block true (some genesis_stakes) = (result, after))
    (hrefused : result ≠ .ok true) : after = self := by
  unfold BlockChain.add_block at h
  rw [if_pos rfl] at h
  rcases hchecks : self.received_checks block (some genesis_stakes) with e | _ | _
  · rw [hchecks] at h
    exact (Prod.mk.inj h).2.symm
  · rw [hchecks] at h
    exact (Prod.mk.inj h).2.symm
  · have hok := append_ok (named_of_received_checks hchecks)
    rw [hchecks] at h
    rcases happend : self.append block with ⟨_ | _, _⟩
    · rw [happend] at hok
      cases hok
    · simp only [happend, Prod.mk.injEq] at h
      exact absurd h.1.symm hrefused

/-- A chain that does not replace the local one leaves it. -/
theorem replace_chain_refused {new_chain : List Block} {result : PyM Bool} {after : BlockChain}
    (h : self.replace_chain new_chain (some genesis_stakes) = (result, after))
    (hrefused : result ≠ .ok true) : after = self := by
  unfold BlockChain.replace_chain at h
  rcases hverify : verify_chain_integrity new_chain self.consensus self.genesis_prev_hash
    (some genesis_stakes) with e | verification
  · rw [hverify] at h
    exact (Prod.mk.inj h).2.symm
  rw [hverify] at h
  by_cases hvalid : verification.valid = true
  swap
  · simp only [hvalid, Bool.not_false, if_true] at h
    exact (Prod.mk.inj h).2.symm
  simp only [hvalid, Bool.not_true, Bool.false_eq_true, if_false] at h
  rcases hconsensus : self.consensus with _ | pow | pos
  · rw [hconsensus] at h
    exact absurd (Prod.mk.inj h).1.symm hrefused
  · rw [hconsensus] at h
    exact absurd (Prod.mk.inj h).1.symm hrefused
  · rw [hconsensus] at h hverify
    have hgrows := grows_of_verifies ⟨verification, hverify, hvalid⟩
    have hcompute := ProofOfStake.compute_validators_eq_replay pos.settings genesis_stakes
      (Consensus.namesValidators_of_grows hgrows)
    simp only [ProofOfStake.sync_validators_from_chain, hcompute, ok_bind, pure_eq] at h
    exact absurd (Prod.mk.inj h).1.symm hrefused

omit [Runtime] in
theorem scheduled_eq_false {node : Node} {result : PyM Bool × BlockChain}
    (hrefused : result.1 ≠ .ok true → result.2 = node.blockchain)
    (h : (node.scheduled result).1 = false) : (node.scheduled result).2 = node := by
  have hresult : result.1 ≠ .ok true := by
    rcases result with ⟨e | _ | _, blockchain⟩
    · simp
    · simp
    · cases h
  rw [scheduled_node, hrefused hresult]

/-- A node changes only where `_schedule_persist` is called. -/
theorem change_unscheduled (node : Node) (change : ChainChange)
    (h : (node.change change).1 = false) : (node.change change).2 = node := by
  cases change with
  | add_block input =>
      rw [Node.change, Node.add_block] at h ⊢
      refine scheduled_eq_false ?_ h
      intro hrefused
      rcases hadd : node.blockchain.add_new_block input with ⟨e | block, after⟩
      · exact add_new_block_error hadd
      · rw [hadd] at hrefused
        exact absurd rfl hrefused
  | new_block payload =>
      rw [Node.change, Node.accept_new_block] at h ⊢
      rcases hblock : Dict.find payload (lit "block") with _ | block
      · rfl
      cases block with
      | dict entries =>
          cases entries with
          | nil => rfl
          | cons entry entries =>
              rw [hblock] at h
              exact scheduled_eq_false (fun hrefused => add_block_refused rfl hrefused) h
      | _ => rfl
  | resolve_fork remote_chain =>
      rw [Node.change, Node.replace_fork] at h ⊢
      by_cases hempty : remote_chain.isEmpty = true
      · rw [if_pos hempty]
      rw [if_neg hempty] at h ⊢
      rcases hcanonical : node.canonical_chain remote_chain with e | canonical
      · rfl
      simp only [hcanonical] at h ⊢
      by_cases hdiffers : (!canonical.isEmpty && differs canonical node.blockchain.chain) = true
      · rw [if_pos hdiffers] at h ⊢
        exact scheduled_eq_false (fun hrefused => replace_chain_refused rfl hrefused) h
      · rw [if_neg hdiffers]

end Change

end EasyBlockchain
