/-
The documented structure of a block, for every mode and every run of local
blocks, received blocks and replaced chains.

A received block is judged by its place, its hashes and what its protocol asks
for; no check reads `tran_counter` or the entries of `tran_body`. So the place
of a block is right in every chain a run reaches, while its content is what
`add_new_block` put there, or what the sender did.
-/
import EasyBlockchain.LegacyChain
import EasyBlockchain.PosProducer

set_option autoImplicit false

namespace EasyBlockchain

open Py Lib

section BlockStructure

variable [Runtime] [Rsa]

/-! ## The clauses -/

omit [Runtime] [Rsa] in
/-- A transaction with its two lists, and a counter that adds up their lengths. -/
def HasContent (block : Block) : Prop :=
  ∃ tran_body input_data output_data tran_counter, ∃ m n : ℕ,
    block.item (lit "tran_body") = .ok tran_body ∧
    tran_body.item (lit "input_data") = .ok input_data ∧
    tran_body.item (lit "output_data") = .ok output_data ∧
    input_data.len = .ok m ∧ output_data.len = .ok n ∧
    block.item (lit "tran_counter") = .ok tran_counter ∧
    tran_counter.eq (.int (m + n)) = true

/-- A block as the documentation describes it, after the blocks before it. -/
structure Documented (g : Str) (seen : List Block) (block : Block) : Prop where
  index : IndexIs block (seen.length + 1)
  link : HashLinked g seen block
  content : HasContent block

omit [Runtime] in
/-- The genesis hash a received block has to name: the protocol's own in place of
an empty one. -/
def expected_genesis (consensus : Option Consensus) (g : Str) : Str :=
  match consensus with
  | none => g
  | some consensus => orDefault (some g) consensus.genesis_prev_hash

/-- What the checks of a received block have in common: its place in the chain,
and that it has some body. -/
structure Checked (g expected : Str) (seen : List Block) (block : Block) : Prop where
  index : IndexFollows seen block
  link : HashLinked g seen block ∨ HashLinked expected seen block
  tran_body : ∃ tran_body, block.item (lit "tran_body") = .ok tran_body

/-- The place of a block in a chain. Its index is its height as long as floats
represent the heights exactly, since a received index may be a float. -/
structure Placed (g expected : Str) (seen : List Block) (block : Block) : Prop where
  index : (∀ n : ℕ, n ≤ seen.length + 1 → Runtime.round (n : ℚ) = .fin (n : ℚ)) →
    IndexIs block (seen.length + 1)
  link : HashLinked g seen block ∨ HashLinked expected seen block
  tran_body : ∃ tran_body, block.item (lit "tran_body") = .ok tran_body

variable {self : BlockChain} {block : Block} {seen chain : List Block} {g expected : Str}
  {genesis_stakes : Option StakeMap}

omit [Rsa] in
/-- On a chain of placed blocks the next index is the height. -/
theorem Checked.placed (h : Checked g expected seen block) (hseen : Grows (Placed g expected) seen) :
    Placed g expected seen block := by
  refine ⟨fun hround => ?_, h.link, h.tran_body⟩
  apply (indexFollows_iff (hround _ le_rfl) ?_).mp h.index
  intro previous hlast
  obtain ⟨init, rfl⟩ := List.getLast?_eq_some_iff.mp hlast
  rw [List.length_append] at hround ⊢
  exact (grows_snoc.mp hseen).2.index fun n hn => hround n (by simp; omega)

omit [Rsa] in
theorem placed_of_checked (h : Grows (Checked g expected) chain) : Grows (Placed g expected) chain :=
  h.rule grows_nil fun _ _ _ hplaced hchecked => grows_snoc.mpr ⟨hplaced, hchecked.placed hplaced⟩

/-! ## What the checks look at -/

omit [Runtime] [Rsa] in
theorem orDefault_idem (own : Str) : orDefault (some (orDefault (some g) own)) own
    = orDefault (some g) own := by
  unfold orDefault
  by_cases hempty : g.isEmpty = true <;> simp [hempty]

omit [Rsa] in
/-- An accepted link, for a block whose `prev_hash` is a string. -/
theorem linked_of_accepts {own : Str}
    (h : Accepts (validate_chain_link own block seen.getLast? (some g)))
    (hprev : ∃ p, PrevHashIs block p) :
    HashLinked (orDefault (some g) own) seen block ∧ IndexFollows seen block := by
  rw [← accepts_chain_link (orDefault_idem own) hprev]
  rcases hlast : seen.getLast? with _ | previous
  · rw [hlast, accepts_first_link] at h
    rwa [accepts_first_link, orDefault_idem]
  · rw [hlast, accepts_next_link] at h
    rwa [accepts_next_link]

/-- The content that a consensus protocol accepts has a string as `prev_hash`, and
a body. -/
theorem fields_of_pos {pos : ProofOfStake} {validators : Option StakeMap} {height : Option ℕ}
    (h : Accepts (pos.validate_block block seen validators height)) :
    (∃ p, PrevHashIs block p) ∧ ∃ tran_body, block.item (lit "tran_body") = .ok tran_body := by
  obtain ⟨f, hof, -⟩ := (ProofOfStake.accepts_validate_block pos block seen validators height).mp h
  exact ⟨⟨_, hof.prev_hash⟩, _, hof.tran_body⟩

theorem fields_of_consensus {consensus : Consensus}
    (h : Accepts (consensus.validate_block block seen)) :
    (∃ p, PrevHashIs block p) ∧ ∃ tran_body, block.item (lit "tran_body") = .ok tran_body := by
  cases consensus with
  | pos pos => exact fields_of_pos h
  | pow pow =>
      obtain ⟨f, hof, -⟩ := ProofOfWork.accepts_validate_block.mp h
      exact ⟨⟨_, hof.prev_hash⟩, _, hof.tran_body⟩

/-- What `add_block` asks for under consensus. -/
theorem checked_of_consensus (consensus : Consensus)
    (hlink : Accepts (validate_chain_link consensus.genesis_prev_hash block seen.getLast? (some g)))
    (hfields : (∃ p, PrevHashIs block p) ∧
      ∃ tran_body, block.item (lit "tran_body") = .ok tran_body) :
    Checked g (orDefault (some g) consensus.genesis_prev_hash) seen block := by
  obtain ⟨hhash, hindex⟩ := linked_of_accepts hlink hfields.1
  exact ⟨hindex, Or.inr hhash, hfields.2⟩

omit [Rsa] in
/-- What both paths ask for without consensus. -/
theorem LegacyStep.checked [Rsa] (h : LegacyStep g seen block) : Checked g expected seen block := by
  obtain ⟨hlink, tran_body, body_hash, prev, tran, hbody, -, hprev, htran, -⟩ := h
  -- the hash of a value that is not a string would have raised
  obtain ⟨p, rfl⟩ : ∃ s, prev = .str s := by
    simp only [calc_legacy_tran_hash, bind_eq_ok, concat_eq_ok] at htran
    obtain ⟨_, ⟨s, hs, -⟩, -⟩ := htran
    exact ⟨s, hs⟩
  rcases hlast : seen.getLast? with _ | previous
  · simp only [hlast, link_check, accepts_bind, pure_eq, accepts_guard, Bool.not_eq_false',
      accepts_ok, ValidationResult.ok_valid, and_true, PyVal.eq_str_iff, header_prev_hash_eq_ok]
      at hlink
    obtain ⟨_, hp, rfl, index, hindex, hone⟩ := hlink
    refine ⟨⟨index, hindex, ?_⟩, Or.inl ⟨g, hp, ?_⟩, _, hbody⟩
    · rw [hlast]
      exact hone
    · rw [TipIs, hlast]
  · simp only [hlast, link_check, accepts_bind, pure_eq, accepts_guard, Bool.not_eq_false',
      accepts_ok, ValidationResult.ok_valid, and_true, header_prev_hash_eq_ok] at hlink
    obtain ⟨header, hheader, last_hash, hlast_hash, _, hp, heq, index, hindex, last, hlastidx, next,
      hnext, hone⟩ := hlink
    obtain rfl := hprev.unique hp
    obtain rfl := PyVal.str_eq_iff.mp heq
    refine ⟨⟨index, hindex, ?_⟩, Or.inl ⟨p, hprev, ?_⟩, _, hbody⟩
    · rw [hlast]
      exact ⟨last, next, hlastidx, hnext, hone⟩
    · rw [TipIs, hlast]
      exact ⟨header, hheader, hlast_hash⟩

/-- A received block that `add_block` lets through. -/
theorem checked_of_received (h : self.received_checks block genesis_stakes = .ok true) :
    Checked self.genesis_prev_hash (expected_genesis self.consensus self.genesis_prev_hash) self.chain
      block := by
  rcases hmode : self.consensus with _ | consensus
  · exact ((legacy_received_checks hmode).mp h).1.checked
  · obtain ⟨hlink, hcontent⟩ := (BlockChain.received_checks_iff hmode).mp h
    have hchecked := checked_of_consensus consensus hlink ?_
    · exact hchecked
    · unfold BlockChain.consensus_check at hcontent
      split at hcontent
      · obtain ⟨validators, -, hvalid⟩ := accepts_bind.mp hcontent
        exact fields_of_pos hvalid
      · exact fields_of_consensus hcontent

/-- A block that the loop over PoS stakes passes. -/
theorem checked_of_pos_verify_step {pos : ProofOfStake} {validators s : StakeMap}
    (h : pos_verify_step pos chain g validators seen block = .ok (.next s)) :
    Checked g (expected_genesis (some (.pos pos)) g) seen block := by
  simp only [pos_verify_step, pure_eq, check_eq_next] at h
  obtain ⟨hlink, hvalid, -⟩ := h
  refine checked_of_consensus (.pos pos) ?_ (fields_of_pos hvalid)
  rcases hlast : seen.getLast? with _ | previous
  · simp only [hlast, pos_link_check, accepts_bind, pure_eq, accepts_guard] at hlink
    obtain ⟨_, -, -, hfirst⟩ := hlink
    exact hfirst
  · rw [hlast] at hlink
    exact hlink

/-- The link check of a verification is at least the link check of the protocol. -/
theorem chain_link_of_link_check {consensus : Consensus} {previous : Option Block}
    (h : Accepts (link_check (some consensus) g previous block)) :
    Accepts (validate_chain_link consensus.genesis_prev_hash block previous (some g)) := by
  rcases previous with _ | previous
  · simp only [link_check, accepts_bind, pure_eq, accepts_guard] at h
    obtain ⟨_, -, -, _, -, -, hfirst⟩ := h
    exact hfirst
  · exact h

/-- A block that the other loop passes. -/
theorem VerifyStep.checked {consensus : Option Consensus} (h : VerifyStep consensus g seen block) :
    Checked g (expected_genesis consensus g) seen block := by
  rcases consensus with _ | consensus
  · exact (legacy_verifyStep.mp h).1.checked
  · obtain ⟨hlink, hcontent⟩ := h
    exact checked_of_consensus _ (chain_link_of_link_check hlink)
      (fields_of_consensus (accepts_content_check.mp hcontent))

/-- A chain that `replace_chain` takes. -/
theorem checked_of_verifies {consensus : Option Consensus}
    (h : Verifies (verify_chain_integrity chain consensus g genesis_stakes)) :
    Grows (Checked g (expected_genesis consensus g)) chain := by
  unfold verify_chain_integrity at h
  split at h
  · rename_i pos genesis_stakes
    obtain ⟨v, hv, hvalid⟩ := h
    obtain ⟨out, hout, hverdict⟩ := bind_eq_ok.mp hv
    rcases out with s | r
    · refine growsFrom_of_enumerate ?_ hout
      intro s pre x s' hpass
      exact checked_of_pos_verify_step hpass
    · -- an early return reports a failure
      have hfail : r.valid = false := by
        refine ret_of_enumerate (Q := fun r => r.valid = false) ?_ hout
        intro s pre x r hpass
        obtain ⟨reason, rfl⟩ := pos_verify_step_eq_ret hpass
        rfl
      obtain rfl : r = v := Except.ok.inj hverdict
      rw [hfail] at hvalid
      cases hvalid
  · exact ((loop_verification _ g chain rfl).1.mp h).imp fun _ _ _ hstep => hstep.checked

/-! ## The local block -/

/-- What `add_new_block` builds, in every mode. -/
theorem built_block {input : BlockChain.LocalInput}
    (h : (self.draft_block input >>= self.complete_block input) = .ok block) :
    ∃ prev_hash, ∃ m n : ℕ, self.previous_hash = .ok (.str prev_hash) ∧
      PrevHashIs block prev_hash ∧
      input.input_data.len = .ok m ∧ input.output_data.len = .ok n ∧
      block.item (lit "block_index") = .ok (.int (self.chain.length + 1)) ∧
      block.item (lit "tran_counter") = .ok (.int (m + n)) ∧
      block.item (lit "tran_body") = .ok input.transaction := by
  rcases hmode : self.consensus with _ | pow | pos
  · obtain ⟨draft, hdraft, hcomplete⟩ := bind_eq_ok.mp h
    simp only [BlockChain.draft_block, BlockChain.draft_header, hmode, bind_eq_ok, pure_eq,
      Except.ok.injEq] at hdraft
    obtain ⟨prev, hprev, body_hash, -, _, ⟨tran_hash, htran, rfl⟩, m, hm, n, hn, rfl⟩ := hdraft
    -- the hash of a value that is not a string would have raised
    obtain ⟨p, rfl⟩ : ∃ s, prev = .str s := by
      simp only [calc_legacy_tran_hash, bind_eq_ok, concat_eq_ok] at htran
      obtain ⟨_, ⟨s, hs, -⟩, -⟩ := htran
      exact ⟨s, hs⟩
    refine ⟨p, m, n, hprev, ?_⟩
    simp only [BlockChain.complete_block, hmode] at hcomplete
    split at hcomplete
    · split at hcomplete
      · cases hcomplete
      · simp only [sign_block, bind_eq_ok, pure_eq, Except.ok.injEq] at hcomplete
        obtain ⟨_, ⟨_, -, _, -, _, -, rfl⟩, rfl⟩ := hcomplete
        exact ⟨⟨_, rfl, rfl⟩, hm, hn, rfl, rfl, rfl⟩
    · obtain rfl := Except.ok.inj hcomplete
      exact ⟨⟨_, rfl, rfl⟩, hm, hn, rfl, rfl, rfl⟩
  · obtain ⟨draft, hdraft, hmine⟩ := bind_eq_ok.mp h
    simp only [BlockChain.draft_block, BlockChain.draft_header, hmode, bind_eq_ok, pure_eq,
      Except.ok.injEq, exists_eq_left'] at hdraft
    obtain ⟨prev, hprev, _, -, m, hm, n, hn, rfl⟩ := hdraft
    simp only [BlockChain.complete_block, hmode, Consensus.prepare_block] at hmine
    obtain ⟨prev_hash, _, _, _, _, nonce, hfprev, -, -, -, -, -, rfl⟩ := mine_block_eq_ok (by rfl) hmine
    obtain rfl : prev = .str prev_hash := Option.some.inj hfprev
    exact ⟨prev_hash, m, n, hprev, ⟨_, rfl, rfl⟩, hm, hn, rfl, rfl, rfl⟩
  · obtain ⟨_, _, prev_hash, _, _, _, _, _, m, n, -, -, -, hprev, hm, hn, -, -, -, -, -, rfl⟩ :=
      proposed_block_eq hmode h
    exact ⟨prev_hash, m, n, hprev, ⟨_, rfl, rfl⟩, hm, hn, rfl, rfl, rfl⟩

/-! ## One operation -/

/-- The genesis hashes are the same after as before. -/
structure SameGenesis (start after : BlockChain) : Prop where
  own : after.genesis_prev_hash = start.genesis_prev_hash
  expected : expected_genesis after.consensus after.genesis_prev_hash
    = expected_genesis start.consensus start.genesis_prev_hash

omit [Runtime] in
theorem genesis_of_on_block_added {consensus consensus' : Consensus}
    (h : consensus.on_block_added block = .ok consensus') :
    consensus'.genesis_prev_hash = consensus.genesis_prev_hash := by
  cases consensus with
  | pow pow =>
      obtain rfl := Except.ok.inj h
      rfl
  | pos pos =>
      simp only [Consensus.on_block_added, ProofOfStake.on_block_added, bind_eq_ok, pure_eq,
        Except.ok.injEq] at h
      obtain ⟨_, ⟨_, -, rfl⟩, rfl⟩ := h
      rfl

omit [Runtime] in
/-- A block is appended also when the hook after it raises. -/
theorem append_keeps (self : BlockChain) (block : Block) :
    (self.append block).2.chain = self.chain ++ [block] ∧ SameGenesis self (self.append block).2 := by
  rcases hmode : self.consensus with _ | consensus
  · simp only [BlockChain.append, hmode, true_and]
    exact ⟨rfl, by rw [hmode]⟩
  · rcases hadded : consensus.on_block_added block with e | consensus'
    · simp only [BlockChain.append, hmode, hadded, true_and]
      exact ⟨rfl, by rw [hmode]⟩
    · simp only [BlockChain.append, hmode, hadded, true_and]
      refine ⟨rfl, ?_⟩
      rw [hmode, expected_genesis, expected_genesis, genesis_of_on_block_added hadded]

/-- A local block that is complete is appended. -/
theorem add_new_block_snd {input : BlockChain.LocalInput}
    (h : (self.draft_block input >>= self.complete_block input) = .ok block) :
    (self.add_new_block input).2 = (self.append block).2 := by
  rw [BlockChain.add_new_block, h]
  rcases happend : self.append block with ⟨_ | _, self'⟩
  · simp only [happend]
  · simp only [happend]

/-- A received block that passes its checks is appended. -/
theorem add_block_snd (h : self.received_checks block genesis_stakes = .ok true) :
    (self.add_block block true genesis_stakes).2 = (self.append block).2 := by
  rw [BlockChain.add_block, if_pos rfl, h]
  rcases self.append block with ⟨_ | _, self'⟩
  · rfl
  · rfl

/-- A chain that verifies is stored. -/
theorem replace_chain_snd {new_chain : List Block}
    (h : Verifies (verify_chain_integrity new_chain self.consensus self.genesis_prev_hash
      genesis_stakes)) :
    (self.replace_chain new_chain genesis_stakes).2.chain = new_chain ∧
      SameGenesis self (self.replace_chain new_chain genesis_stakes).2 := by
  obtain ⟨verification, hverify, hvalid⟩ := h
  rw [BlockChain.replace_chain, hverify]
  simp only [hvalid, Bool.not_true, Bool.false_eq_true, if_false]
  split
  · rename_i pos stakes hmode
    split
    · rename_i pos' hsync
      simp only [ProofOfStake.sync_validators_from_chain, bind_eq_ok, pure_eq, Except.ok.injEq]
        at hsync
      obtain ⟨_, -, rfl⟩ := hsync
      exact ⟨rfl, rfl, by rw [hmode]; rfl⟩
    · exact ⟨rfl, rfl, rfl⟩
  · exact ⟨rfl, rfl, rfl⟩

/-- What an operation does to the chain, in every mode. -/
theorem ChainOp.step_cases (self : BlockChain) (op : ChainOp) :
    SameGenesis self (op.step self) ∧ ((op.step self).chain = self.chain ∨
      (∃ input block, op = .add_new_block input ∧
        (self.draft_block input >>= self.complete_block input) = .ok block ∧
        (op.step self).chain = self.chain ++ [block]) ∨
      (∃ block genesis_stakes, op = .add_block block genesis_stakes ∧
        self.received_checks block genesis_stakes = .ok true ∧
        (op.step self).chain = self.chain ++ [block]) ∨
      ∃ new_chain genesis_stakes, op = .replace_chain new_chain genesis_stakes ∧
        Verifies (verify_chain_integrity new_chain self.consensus self.genesis_prev_hash
          genesis_stakes) ∧ (op.step self).chain = new_chain) := by
  have hsame : SameGenesis self self := ⟨rfl, rfl⟩
  cases op with
  | add_new_block input =>
      rw [ChainOp.step]
      rcases hblock : self.draft_block input >>= self.complete_block input with e | block
      · rw [BlockChain.add_new_block, hblock]
        exact ⟨hsame, Or.inl rfl⟩
      · obtain ⟨hchain, hgenesis⟩ := append_keeps self block
        rw [add_new_block_snd hblock]
        exact ⟨hgenesis, Or.inr (Or.inl ⟨input, block, rfl, hblock, hchain⟩)⟩
  | add_block block genesis_stakes =>
      rw [ChainOp.step]
      rcases hchecks : self.received_checks block genesis_stakes with e | _ | _
      · rw [BlockChain.add_block, if_pos rfl, hchecks]
        exact ⟨hsame, Or.inl rfl⟩
      · rw [BlockChain.add_block, if_pos rfl, hchecks]
        exact ⟨hsame, Or.inl rfl⟩
      · obtain ⟨hchain, hgenesis⟩ := append_keeps self block
        rw [add_block_snd hchecks]
        exact ⟨hgenesis, Or.inr (Or.inr (Or.inl ⟨block, genesis_stakes, rfl, hchecks, hchain⟩))⟩
  | replace_chain new_chain genesis_stakes =>
      rw [ChainOp.step]
      by_cases hverifies : Verifies (verify_chain_integrity new_chain self.consensus
        self.genesis_prev_hash genesis_stakes)
      · obtain ⟨hchain, hgenesis⟩ := replace_chain_snd hverifies
        exact ⟨hgenesis, Or.inr (Or.inr (Or.inr ⟨new_chain, genesis_stakes, rfl, hverifies, hchain⟩))⟩
      · rw [BlockChain.replace_chain]
        rcases hverify : verify_chain_integrity new_chain self.consensus self.genesis_prev_hash
          genesis_stakes with e | verification
        · exact ⟨hsame, Or.inl rfl⟩
        · have hinvalid : verification.valid = false := by
            by_contra hvalid
            exact hverifies ⟨verification, hverify, by simpa using hvalid⟩
          simp only [hinvalid, Bool.not_false, if_true, true_or, and_true]
          exact hsame

/-! ## Runs -/

/-- A block that a node built itself: the index is an integer. -/
def Built (n : ℕ) (block : Block) : Prop :=
  block.item (lit "block_index") = .ok (.int n) ∧ HasContent block

/-- A block that an operation was given. -/
def ChainOp.Gives (block : Block) : ChainOp → Prop
  | add_new_block _ => False
  | add_block given _ => given = block
  | replace_chain new_chain _ => block ∈ new_chain

/-- What holds of the chain after a run. -/
structure StructureInv (start : BlockChain) (ops : List ChainOp) (after : BlockChain) : Prop where
  genesis : SameGenesis start after
  placed : Grows (Placed start.genesis_prev_hash
    (expected_genesis start.consensus start.genesis_prev_hash)) after.chain
  origin : Grows (fun seen block => Built (seen.length + 1) block ∨ ∃ op ∈ ops, op.Gives block)
    after.chain

/-- The place and the content of a local block. -/
theorem placed_of_built {input : BlockChain.LocalInput}
    (h : (self.draft_block input >>= self.complete_block input) = .ok block) :
    Placed self.genesis_prev_hash expected self.chain block ∧
      Built (self.chain.length + 1) block := by
  obtain ⟨prev_hash, m, n, hprevious, hprev, hm, hn, hindex, hcounter, hbody⟩ := built_block h
  have hcontent : HasContent block :=
    ⟨_, _, _, _, m, n, hbody, rfl, rfl, hm, hn, hcounter, by
      simp [PyVal.eq, PyVal.numEq, PyVal.num, PyFloat.eq, PyFloat.value]⟩
  have htip : TipIs TranHashIs self.genesis_prev_hash self.chain prev_hash := by
    unfold BlockChain.previous_hash at hprevious
    unfold TipIs
    rcases hlast : self.chain.getLast? with _ | last
    · rw [hlast] at hprevious
      exact (PyVal.str.inj (Except.ok.inj hprevious)).symm
    · rw [hlast] at hprevious
      exact bind_eq_ok.mp hprevious
  refine ⟨⟨fun _ => ⟨_, hindex, ?_⟩, Or.inl ⟨prev_hash, hprev, htip⟩, _, hbody⟩, hindex, hcontent⟩
  simp [PyVal.eq, PyVal.numEq, PyVal.num, PyFloat.eq, PyFloat.value]

/-- One step: what is built is placed and has its content, what is received is
placed. -/
theorem StructureInv.step {start : BlockChain} {ops : List ChainOp} {op : ChainOp}
    (h : StructureInv start ops self) (hop : op ∈ ops) : StructureInv start ops (op.step self) := by
  obtain ⟨hgenesis, hplaced, horigin⟩ := h
  obtain ⟨hsame, hcases⟩ := op.step_cases self
  have hgenesis' : SameGenesis start (op.step self) :=
    ⟨hsame.own.trans hgenesis.own, hsame.expected.trans hgenesis.expected⟩
  have hplaces : Placed start.genesis_prev_hash
      (expected_genesis start.consensus start.genesis_prev_hash)
        = Placed self.genesis_prev_hash (expected_genesis self.consensus self.genesis_prev_hash) := by
    rw [hgenesis.expected, hgenesis.own]
  rw [hplaces] at hplaced
  rcases hcases with hchain | ⟨input, block, rfl, hblock, hchain⟩ |
    ⟨block, genesis_stakes, rfl, hchecks, hchain⟩ | ⟨new_chain, genesis_stakes, rfl, hnew, hchain⟩
  · refine ⟨hgenesis', ?_, ?_⟩
    · rw [hchain, hplaces]
      exact hplaced
    · rw [hchain]
      exact horigin
  · obtain ⟨hplace, hbuilt⟩ := placed_of_built hblock
    refine ⟨hgenesis', ?_, ?_⟩
    · rw [hchain, hplaces]
      exact grows_snoc.mpr ⟨hplaced, hplace⟩
    · rw [hchain]
      exact grows_snoc.mpr ⟨horigin, Or.inl hbuilt⟩
  · refine ⟨hgenesis', ?_, ?_⟩
    · rw [hchain, hplaces]
      exact grows_snoc.mpr ⟨hplaced, (checked_of_received hchecks).placed hplaced⟩
    · rw [hchain]
      exact grows_snoc.mpr ⟨horigin, Or.inr ⟨_, hop, rfl⟩⟩
  · refine ⟨hgenesis', ?_, ?_⟩
    · rw [hchain, hplaces]
      exact placed_of_checked (checked_of_verifies hnew)
    · rw [hchain, grows_iff_getElem]
      exact fun i hi => Or.inr ⟨_, hop, List.getElem_mem hi⟩

/-- In every chain that a run of operations makes of an empty one, in every mode,
each block has the place it is documented to have: its index equals its height,
as long as floats represent the heights up to it exactly, its `prev_hash` is the
`tran_hash` before it or the genesis hash, and it has a body. A block that the
node built has the documented content too, with an integer as index; every
other block is as the operation that brought it gave it. -/
theorem placed_blocks (start : BlockChain) (hempty : start.chain = []) (ops : List ChainOp) :
    let chain := (run ChainOp.step start ops).chain
    ∀ (i : ℕ) (hi : i < chain.length),
      Placed start.genesis_prev_hash (expected_genesis start.consensus start.genesis_prev_hash)
        (chain.take i) chain[i] ∧
      (Built (i + 1) chain[i] ∨ ∃ op ∈ ops, op.Gives chain[i]) := by
  intro chain i hi
  have hstart : StructureInv start ops start := by
    refine ⟨⟨rfl, rfl⟩, ?_, ?_⟩
    · rw [hempty]
      exact grows_nil
    · rw [hempty]
      exact grows_nil
  have hinv := run_invariant (fun self op => StructureInv.step) hstart
    (alwaysMeets_mem ChainOp.step start fun op hop => hop)
  refine ⟨hinv.placed.getElem hi, ?_⟩
  have horigin := hinv.origin.getElem hi
  rwa [List.length_take, Nat.min_eq_left hi.le] at horigin

end BlockStructure

/-! ## Received content -/

namespace LegacyBlocks

attribute [local instance] cpython letterRsa

/-- A first block whose body is an empty dictionary. -/
def bare : Block :=
  block (.dict []) "e3e16a6e3b4ddc8b9e3f8be75976e48e5f6e6653d1301cda731be9f960cf7ce5" []

theorem add_bare : fresh.add_block bare true none = (.ok true, { fresh with chain := [bare] }) :=
  add_of_checks (by decide +kernel)

/-- The theorem on the run that receives a first block. -/
theorem received_block_placed :
    Placed DEFAULT_GENESIS_PREV_HASH DEFAULT_GENESIS_PREV_HASH [] (first []) := by
  have hrun : (run ChainOp.step fresh [.add_block (first []) none]).chain = [first []] := by
    simp only [run, List.foldl_cons, List.foldl_nil, ChainOp.step, add_first]
  have hplaced := (placed_blocks fresh rfl [.add_block (first []) none] 0 (by rw [hrun]; decide)).1
  simp only [hrun] at hplaced
  exact hplaced

/-- Without consensus a node stores a received block that has no `tran_counter`,
and one whose body has neither list. -/
theorem received_content_unchecked :
    ((run ChainOp.step fresh [.add_block (first []) none]).chain = [first []] ∧
        ¬ Documented fresh.genesis_prev_hash [] (first [])) ∧
      (run ChainOp.step fresh [.add_block bare none]).chain = [bare] ∧
        ¬ Documented fresh.genesis_prev_hash [] bare := by
  refine ⟨⟨?_, ?_⟩, ?_, ?_⟩
  · simp only [run, List.foldl_cons, List.foldl_nil, ChainOp.step, add_first]
  · rintro ⟨-, -, _, _, _, _, _, _, -, -, -, -, -, hcounter, -⟩
    cases hcounter
  · simp only [run, List.foldl_cons, List.foldl_nil, ChainOp.step, add_bare]
  · rintro ⟨-, -, _, _, _, _, _, _, hbody, hinput, -⟩
    obtain rfl := Except.ok.inj hbody
    cases hinput

end LegacyBlocks

end EasyBlockchain
