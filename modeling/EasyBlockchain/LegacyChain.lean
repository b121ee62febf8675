/-
A chain without a consensus protocol: block-by-block acceptance against
verification of the whole chain.

`add_block` and `verify_chain_integrity` check the link and the hash of a block
the same way. On top of it, one refuses a block whose `tran_body` is null and
the other a block whose header has a `consensus_type`. So they differ on the
blocks that are linked and hashed and fail exactly one of the two.
-/
import EasyBlockchain.OwnChain

set_option autoImplicit false

namespace EasyBlockchain

open Py Lib

section LegacyChain

variable [Runtime] [Rsa]

/-! ## What both look at -/

omit [Rsa] in
/-- The `tran_hash` of the block is made of its predecessor's and of its body. -/
def HashesBody (block : Block) : Prop :=
  ∃ tran_body body_hash prev_hash tran_hash, block.item (lit "tran_body") = .ok tran_body ∧
    calc_body_hash tran_body = .ok body_hash ∧ HeaderIs block (lit "prev_hash") prev_hash ∧
    calc_legacy_tran_hash prev_hash body_hash = .ok tran_hash ∧ TranHashIs block tran_hash

/-- The block follows the chain, and its hash is made as without consensus. -/
def LegacyStep (g : Str) (seen : List Block) (block : Block) : Prop :=
  Accepts (link_check none g seen.getLast? block) ∧ HashesBody block

omit [Runtime] [Rsa] in
/-- `block.get("tran_body") is not None`. -/
def HasBody (block : Block) : Prop :=
  ∃ tran_body, block.item (lit "tran_body") = .ok tran_body ∧ tran_body ≠ .none

omit [Runtime] [Rsa] in
/-- `header.get("consensus_type") is None`. -/
def NoConsensusType (block : Block) : Prop :=
  ∃ header, block.item (lit "block_header") = .ok header ∧
    header.get (lit "consensus_type") .none = .ok .none

variable {self : BlockChain} {block : Block} {genesis_stakes : Option StakeMap}

omit [Rsa] in
/-- The number after an index is not null. -/
theorem not_none_eq_addOne {last next : PyVal} (h : last.addOne = .ok next) :
    PyVal.none.eq next = false := by
  cases last <;> simp only [PyVal.addOne, Except.ok.injEq, reduceCtorEq] at h <;> subst h <;> rfl

/-! ## The link -/

/-- A block without an index fails both comparisons. -/
theorem legacy_link_iff :
    (self.first_index_ok block = .ok true ∧
        self.legacy_link block self.chain.getLast? = .ok true) ↔
      Accepts (link_check none self.genesis_prev_hash self.chain.getLast? block) := by
  rcases hlast : self.chain.getLast? with _ | previous
  · simp only [BlockChain.first_index_ok, BlockChain.legacy_link, hlast, link_check, accepts_bind,
      pure_eq, accepts_guard, Bool.not_eq_false', accepts_ok, ValidationResult.ok_valid, and_true,
      bind_eq_ok, Except.ok.injEq, header_prev_hash_eq_ok]
    constructor
    · rintro ⟨⟨index, hindex, hone⟩, prev, hprev, heq⟩
      refine ⟨prev, hprev, heq, index, PyVal.item_of_get hindex ?_, hone⟩
      rintro rfl
      cases hone
    · rintro ⟨prev, hprev, heq, index, hindex, hone⟩
      exact ⟨⟨index, PyVal.get_of_item hindex, hone⟩, prev, hprev, heq⟩
  · simp only [BlockChain.first_index_ok, BlockChain.legacy_link, hlast, link_check, accepts_bind,
      pure_eq, accepts_guard, Bool.not_eq_false', accepts_ok, ValidationResult.ok_valid, and_true,
      bind_eq_ok, true_and, header_prev_hash_eq_ok]
    constructor
    · rintro ⟨prev, hprev, header, hheader, tran, htran, h⟩
      by_cases heq : prev.eq tran = true
      swap
      · simp [heq] at h
      rw [if_neg (by simp [heq])] at h
      simp only [bind_eq_ok, Except.ok.injEq] at h
      obtain ⟨index, hindex, last, hlastidx, next, hnext, hone⟩ := h
      refine ⟨header, hheader, tran, htran, prev, hprev, heq, index, PyVal.item_of_get hindex ?_,
        last, hlastidx, next, hnext, hone⟩
      rintro rfl
      rw [not_none_eq_addOne hnext] at hone
      cases hone
    · rintro ⟨header, hheader, tran, htran, prev, hprev, heq, index, hindex, last, hlastidx, next,
        hnext, hone⟩
      refine ⟨prev, hprev, header, hheader, tran, htran, ?_⟩
      rw [if_neg (by simp [heq])]
      simp only [bind_eq_ok, Except.ok.injEq]
      exact ⟨index, PyVal.get_of_item hindex, last, hlastidx, next, hnext, hone⟩

/-! ## The two decisions -/

/-- What `add_block` asks of a block. -/
theorem legacy_received_checks (hlegacy : self.consensus = none) :
    self.received_checks block genesis_stakes = .ok true ↔
      LegacyStep self.genesis_prev_hash self.chain block ∧ HasBody block := by
  rw [LegacyStep, ← legacy_link_iff]
  simp only [BlockChain.received_checks, hlegacy, BlockChain.legacy_checks, pure_eq, bind_eq_ok]
  constructor
  · rintro ⟨first, hfirst, h⟩
    cases first
    · simp at h
    simp only [Bool.not_true, Bool.false_eq_true, if_false, bind_eq_ok] at h
    obtain ⟨linked, hlinked, h⟩ := h
    cases linked
    · simp at h
    simp only [Bool.not_true, Bool.false_eq_true, if_false, bind_eq_ok] at h
    obtain ⟨body, hbody, h⟩ := h
    by_cases hnone : body = .none
    · subst hnone
      cases h
    · have hitem := PyVal.item_of_get hbody hnone
      split at h
      · exact absurd rfl hnone
      simp only [bind_eq_ok, Except.ok.injEq, PyVal.eq_str_iff] at h
      obtain ⟨body_hash, hbody_hash, header, hheader, prev, hprev, expected, hexpected, _, htran,
        rfl⟩ := h
      exact ⟨⟨⟨hfirst, hlinked⟩, body, body_hash, prev, expected, hitem, hbody_hash,
        ⟨header, hheader, hprev⟩, hexpected, header, hheader, PyVal.item_of_get htran (by simp)⟩,
        body, hitem, hnone⟩
  · rintro ⟨⟨⟨hfirst, hlinked⟩, body, body_hash, prev, expected, hitem, hbody_hash,
      ⟨header, hheader, hprev⟩, hexpected, header', hheader', htran⟩, body', hitem', hnone⟩
    rw [hitem, Except.ok.injEq] at hitem'
    rw [hheader, Except.ok.injEq] at hheader'
    subst hitem' hheader'
    refine ⟨true, hfirst, ?_⟩
    simp only [Bool.not_true, Bool.false_eq_true, if_false, bind_eq_ok]
    refine ⟨true, hlinked, ?_⟩
    simp only [Bool.not_true, Bool.false_eq_true, if_false, bind_eq_ok]
    refine ⟨body, PyVal.get_of_item hitem, ?_⟩
    split
    · exact absurd rfl hnone
    simp only [bind_eq_ok, Except.ok.injEq, PyVal.eq_str_iff]
    exact ⟨body_hash, hbody_hash, header, hheader, prev, hprev, expected, hexpected, _,
      PyVal.get_of_item htran, rfl⟩

/-- What verification asks of a block. -/
theorem legacy_verifyStep {g : Str} {seen : List Block} :
    VerifyStep none g seen block ↔ LegacyStep g seen block ∧ NoConsensusType block := by
  rw [VerifyStep, LegacyStep, and_assoc]
  apply and_congr_right
  intro _
  simp only [content_check, accepts_bind, pure_eq]
  constructor
  · rintro ⟨header, hheader, ctype, hctype, h⟩
    by_cases hnone : ctype = .none
    swap
    · split at h
      · exact absurd rfl hnone
      · simp at h
    subst hnone
    simp only [accepts_bind, accepts_guard, Bool.not_eq_false', accepts_ok,
      ValidationResult.ok_valid, and_true, PyVal.eq_str_iff] at h
    obtain ⟨body, hbody, body_hash, hbody_hash, prev, hprev, expected, hexpected, _, htran, rfl⟩ := h
    have hitem : block.item (lit "block_header") = .ok header := by
      refine PyVal.item_of_get hheader ?_
      rintro rfl
      simp [PyVal.item] at hprev
    exact ⟨⟨body, body_hash, prev, expected, hbody, hbody_hash, ⟨header, hitem, hprev⟩, hexpected,
      header, hitem, PyVal.item_of_get htran (by simp)⟩, header, hitem, hctype⟩
  · rintro ⟨⟨body, body_hash, prev, expected, hbody, hbody_hash, ⟨header, hheader, hprev⟩, hexpected,
      header', hheader', htran⟩, header'', hheader'', hctype⟩
    rw [hheader, Except.ok.injEq] at hheader' hheader''
    subst hheader' hheader''
    refine ⟨header, PyVal.get_of_item hheader, _, hctype, ?_⟩
    simp only [accepts_bind, accepts_guard, Bool.not_eq_false', accepts_ok,
      ValidationResult.ok_valid, and_true, PyVal.eq_str_iff]
    exact ⟨body, hbody, body_hash, hbody_hash, prev, hprev, expected, hexpected, _,
      PyVal.get_of_item htran, rfl⟩

/-! ## Local blocks -/

/-- The entries of a local block, signed or not. -/
theorem legacy_local_block (hlegacy : self.consensus = none) {input : BlockChain.LocalInput}
    (h : (self.draft_block input >>= self.complete_block input) = .ok block) :
    ∃ prev_hash body_hash tran_hash, ∃ tran_body header : Dict,
      self.previous_hash = .ok (.str prev_hash) ∧
      calc_body_hash (.dict tran_body) = .ok body_hash ∧
      calc_legacy_tran_hash (.str prev_hash) body_hash = .ok tran_hash ∧
      header = [(.str (lit "prev_hash"), .str prev_hash), (.str (lit "tran_hash"), .str tran_hash)] ∧
      block.item (lit "block_index") = .ok (.int (self.chain.length + 1)) ∧
      block.item (lit "block_header") = .ok (.dict header) ∧
      block.item (lit "tran_body") = .ok (.dict tran_body) := by
  obtain ⟨draft, hdraft, hcomplete⟩ := bind_eq_ok.mp h
  simp only [BlockChain.draft_block, BlockChain.draft_header, hlegacy, bind_eq_ok, pure_eq,
    Except.ok.injEq] at hdraft
  obtain ⟨prev, hprev, body_hash, hbody_hash, _, ⟨tran_hash, htran, rfl⟩, _, -, _, -, rfl⟩ := hdraft
  -- the hash of a value that is not a string would have raised
  obtain ⟨prev_hash, rfl⟩ : ∃ s, prev = .str s := by
    simp only [calc_legacy_tran_hash, bind_eq_ok, concat_eq_ok] at htran
    obtain ⟨_, ⟨s, hs, -⟩, -⟩ := htran
    exact ⟨s, hs⟩
  refine ⟨prev_hash, body_hash, tran_hash, _, _, hprev, hbody_hash, htran, rfl, ?_⟩
  simp only [BlockChain.complete_block, hlegacy] at hcomplete
  split at hcomplete
  · split at hcomplete
    · cases hcomplete
    · simp only [sign_block, bind_eq_ok, pure_eq, Except.ok.injEq] at hcomplete
      obtain ⟨_, ⟨_, -, _, -, _, -, rfl⟩, rfl⟩ := hcomplete
      exact ⟨rfl, rfl, rfl⟩
  · obtain rfl := Except.ok.inj hcomplete
    exact ⟨rfl, rfl, rfl⟩

/-- Verification accepts a local block exactly where the tip has its index. -/
theorem legacy_local_step_iff (hlegacy : self.consensus = none) {input : BlockChain.LocalInput}
    (h : (self.draft_block input >>= self.complete_block input) = .ok block) :
    VerifyStep none self.genesis_prev_hash self.chain block ↔ TipIndexed self := by
  obtain ⟨prev_hash, body_hash, tran_hash, tran_body, header, hprevious, hbody_hash, htran, rfl,
    hindex, hheader, hbody⟩ := legacy_local_block hlegacy h
  have hprev : HeaderIs block (lit "prev_hash") (.str prev_hash) := ⟨_, hheader, rfl⟩
  have hhashes : HashesBody block :=
    ⟨_, body_hash, _, tran_hash, hbody, hbody_hash, hprev, htran, _, hheader, rfl⟩
  have hplain : NoConsensusType block := ⟨_, hheader, rfl⟩
  rw [legacy_verifyStep, LegacyStep, and_iff_left hplain, and_iff_left hhashes]
  unfold BlockChain.previous_hash at hprevious
  unfold TipIndexed
  rcases hlast : self.chain.getLast? with _ | tip
  · rw [hlast] at hprevious
    obtain rfl := PyVal.str.inj (Except.ok.inj hprevious)
    have hnil := List.getLast?_eq_none_iff.mp hlast
    simp only [link_check, accepts_bind, pure_eq, accepts_guard, Bool.not_eq_false', accepts_ok,
      ValidationResult.ok_valid, and_true, header_prev_hash_eq_ok, reduceCtorEq, false_imp_iff,
      implies_true, iff_true]
    refine ⟨_, hprev, PyVal.eq_str_iff.mpr rfl, _, hindex, ?_⟩
    rw [hnil]
    decide
  · rw [hlast] at hprevious
    obtain ⟨previous_header, hprevious_header, hprev_tran⟩ := bind_eq_ok.mp hprevious
    simp only [link_check, accepts_bind, pure_eq, accepts_guard, Bool.not_eq_false', accepts_ok,
      ValidationResult.ok_valid, and_true, header_prev_hash_eq_ok, Option.some.injEq, forall_eq']
    constructor
    · rintro ⟨_, -, _, -, _, -, -, index, hindex', last, hlastidx, next, hnext, hone⟩
      rw [hindex, Except.ok.injEq] at hindex'
      subst hindex'
      exact ⟨last, next, hlastidx, hnext, hone⟩
    · rintro ⟨last, next, hlastidx, hnext, hone⟩
      exact ⟨previous_header, hprevious_header, _, hprev_tran, _, hprev, PyVal.eq_str_iff.mpr rfl, _,
        hindex, last, hlastidx, next, hnext, hone⟩

/-! ## One operation -/

/-- The local block, the received block or the new chain is stored, or nothing
changes. -/
theorem legacy_step_cases (hlegacy : self.consensus = none) (op : ChainOp) :
    op.step self = self ∨
    (∃ input block, op = .add_new_block input ∧
      (self.draft_block input >>= self.complete_block input) = .ok block ∧
      op.step self = { self with chain := self.chain ++ [block] }) ∨
    (∃ block genesis_stakes, op = .add_block block genesis_stakes ∧
      self.received_checks block genesis_stakes = .ok true ∧
      op.step self = { self with chain := self.chain ++ [block] }) ∨
    (∃ new_chain genesis_stakes, op = .replace_chain new_chain genesis_stakes ∧
      Verifies (verify_chain_integrity new_chain self.consensus self.genesis_prev_hash
        genesis_stakes) ∧ op.step self = { self with chain := new_chain }) := by
  have happend : ∀ block, self.append block
      = (.ok (), { self with chain := self.chain ++ [block] }) := by
    intro block
    simp only [BlockChain.append, hlegacy]
  cases op with
  | add_new_block input =>
      simp only [ChainOp.step, BlockChain.add_new_block]
      rcases hblock : self.draft_block input >>= self.complete_block input with e | block
      · exact Or.inl rfl
      · simp only [happend]
        exact Or.inr (Or.inl ⟨input, block, rfl, hblock, rfl⟩)
  | add_block block genesis_stakes =>
      simp only [ChainOp.step, BlockChain.add_block, if_true]
      rcases hchecks : self.received_checks block genesis_stakes with e | _ | _
      · exact Or.inl rfl
      · exact Or.inl rfl
      · simp only [happend]
        exact Or.inr (Or.inr (Or.inl ⟨block, genesis_stakes, rfl, hchecks, rfl⟩))
  | replace_chain new_chain genesis_stakes =>
      simp only [ChainOp.step, BlockChain.replace_chain]
      rcases hverify : verify_chain_integrity new_chain self.consensus self.genesis_prev_hash
        genesis_stakes with e | verification
      · exact Or.inl rfl
      · by_cases hvalid : verification.valid = true
        swap
        · simp [hvalid]
        · simp only [hvalid, Bool.not_true, Bool.false_eq_true, if_false, hlegacy]
          rw [hlegacy] at hverify
          exact Or.inr (Or.inr (Or.inr ⟨new_chain, genesis_stakes, rfl,
            ⟨verification, hverify, hvalid⟩, rfl⟩))

/-! ## Agreement, and runs -/

theorem legacy_verifies_iff {g : Str} {chain : List Block} :
    Verifies (verify_chain_integrity chain none g genesis_stakes) ↔ Grows (VerifyStep none g) chain :=
  (loop_verification none g chain rfl).1

/-- `add_block` returns `True` exactly when verification accepts the longer chain. -/
def SameVerdict (self : BlockChain) (genesis_stakes : Option StakeMap) (block : Block) : Prop :=
  (self.add_block block true genesis_stakes).1 = .ok true ↔
    Verifies (verify_chain_integrity (self.chain ++ [block]) self.consensus self.genesis_prev_hash
      genesis_stakes)

/-- A block that follows the chain has a body exactly if it has no `consensus_type`. -/
def LegacyBlock (self : BlockChain) (block : Block) : Prop :=
  LegacyStep self.genesis_prev_hash self.chain block → (HasBody block ↔ NoConsensusType block)

theorem sameVerdict_iff (hlegacy : self.consensus = none)
    (hvalid : Verifies (self.verify_chain genesis_stakes)) :
    SameVerdict self genesis_stakes block ↔ LegacyBlock self block := by
  rw [BlockChain.verify_chain, hlegacy, legacy_verifies_iff] at hvalid
  have hadd : (self.add_block block true genesis_stakes).1 = .ok true ↔
      self.received_checks block genesis_stakes = .ok true := by
    rw [BlockChain.add_block, if_pos rfl]
    rcases self.received_checks block genesis_stakes with e | _ | _
    · simp
    · simp
    · simp [BlockChain.append, hlegacy]
  rw [SameVerdict, hadd, hlegacy, legacy_verifies_iff, grows_snoc, and_iff_right hvalid,
    legacy_received_checks hlegacy, legacy_verifyStep]
  exact and_congr_right_iff

/-- The condition on a step: received blocks have a body exactly if they have no
`consensus_type`, and local ones come after a tip whose index is its height. -/
def ChainOp.LegacyInOrder (self : BlockChain) : ChainOp → Prop
  | add_new_block _ => TipIndexed self
  | add_block block _ => LegacyBlock self block
  | replace_chain _ _ => True

/-- A chain without consensus that verifies. -/
structure LegacySound (blockchain : BlockChain) : Prop where
  consensus : blockchain.consensus = none
  valid : Verifies (blockchain.verify_chain none)

/-- One step. -/
theorem ChainOp.step_legacySound {op : ChainOp} (h : LegacySound self)
    (hop : op.LegacyInOrder self) : LegacySound (op.step self) := by
  obtain ⟨hlegacy, hvalid⟩ := h
  have hgrows := hvalid
  rw [BlockChain.verify_chain, hlegacy, legacy_verifies_iff] at hgrows
  -- one more block that verification accepts keeps the chain valid
  have happend : ∀ block, VerifyStep none self.genesis_prev_hash self.chain block →
      LegacySound { self with chain := self.chain ++ [block] } := by
    intro block hstep
    refine ⟨hlegacy, ?_⟩
    rw [BlockChain.verify_chain, hlegacy, legacy_verifies_iff]
    exact grows_snoc.mpr ⟨hgrows, hstep⟩
  rcases legacy_step_cases hlegacy op with hsame | ⟨input, block, rfl, hblock, hstep⟩ |
    ⟨block, genesis_stakes, rfl, hchecks, hstep⟩ | ⟨new_chain, genesis_stakes, rfl, hnew, hstep⟩
  · rw [hsame]
    exact ⟨hlegacy, hvalid⟩
  · rw [hstep]
    exact happend block ((legacy_local_step_iff hlegacy hblock).mpr hop)
  · rw [hstep]
    obtain ⟨hlegacy_step, hbody⟩ := (legacy_received_checks hlegacy).mp hchecks
    exact happend block (legacy_verifyStep.mpr ⟨hlegacy_step, (hop hlegacy_step).mp hbody⟩)
  · rw [hstep]
    refine ⟨hlegacy, ?_⟩
    rw [hlegacy, legacy_verifies_iff] at hnew
    rw [BlockChain.verify_chain, hlegacy, legacy_verifies_iff]
    exact hnew

/-- On a verified chain without consensus, `add_block` and verification agree on
exactly the blocks of the condition, and a run whose steps all meet it keeps the
chain verified. -/
theorem legacy_acceptance (self : BlockChain) (hlegacy : self.consensus = none)
    (hvalid : Verifies (self.verify_chain none)) :
    (∀ block, SameVerdict self none block ↔ LegacyBlock self block) ∧
      ∀ ops, AlwaysMeets (fun self op => op.LegacyInOrder self) ChainOp.step self ops → ∀ k,
        Verifies ((run ChainOp.step self (ops.take k)).verify_chain none) := by
  constructor
  · intro block
    exact sameVerdict_iff hlegacy hvalid
  · intro ops hops k
    have hsound : LegacySound self := ⟨hlegacy, hvalid⟩
    exact (run_invariant_take (fun self op => ChainOp.step_legacySound) hsound hops k).valid

end LegacyChain

/-! ## Two blocks that are judged differently -/

namespace LegacyBlocks

attribute [local instance] cpython letterRsa

/-- A first block with the given body and further header entries. -/
def block (tran_body : PyVal) (tran_hash : String) (entries : Dict) : Block := .dict
  [(.str (lit "block_index"), .int 1),
    (.str (lit "block_header"), .dict
      ([(.str (lit "prev_hash"), .str DEFAULT_GENESIS_PREV_HASH),
        (.str (lit "tran_hash"), .str (lit tran_hash))] ++ entries)),
    (.str (lit "tran_body"), tran_body)]

def fresh : BlockChain := BlockChain.new none DEFAULT_GENESIS_PREV_HASH

def tran_body : PyVal :=
  .dict [(.str (lit "input_data"), .str (lit "a")), (.str (lit "output_data"), .str (lit "b"))]

/-- A first block with the given header entries. -/
def first (entries : Dict) : Block :=
  block tran_body "3eb47357c0e5a98c5470e8f01653e9fe27903cc6ece08e344da752811229a29f" entries

/-- A first block whose body is null. -/
def bodiless : Block :=
  block .none "cace9eeca4558ded29d4a9416ea02f602d58dbf8e4e19e07e5ee9d5f898a2645" []

/-- A first block with a `consensus_type`. -/
def typed : Block := first [(.str (lit "consensus_type"), .str (lit "pow"))]

theorem add_of_checks {b : Block} (h : fresh.received_checks b none = .ok true) :
    fresh.add_block b true none = (.ok true, { fresh with chain := [b] }) := by
  rw [BlockChain.add_block, if_pos rfl, h]
  rfl

theorem add_first : fresh.add_block (first []) true none
    = (.ok true, { fresh with chain := [first []] }) :=
  add_of_checks (by decide +kernel)

theorem add_typed : fresh.add_block typed true none
    = (.ok true, { fresh with chain := [typed] }) :=
  add_of_checks (by decide +kernel)

theorem not_verifies_typed :
    ¬ Verifies (verify_chain_integrity [typed] none DEFAULT_GENESIS_PREV_HASH none) := by
  have hfail : verify_chain_integrity [typed] none DEFAULT_GENESIS_PREV_HASH none
      = .ok (.fail 1 (lit "consensus_type present but no consensus validator configured")) := by
    decide +kernel
  rintro ⟨v, hv, hvalid⟩
  rw [hfail] at hv
  obtain rfl := Except.ok.inj hv
  cases hvalid

/-- The theorem on a run that receives a block and adds one. -/
theorem legacy_run_verifies :
    (SameVerdict fresh none (first []) ↔ LegacyBlock fresh (first [])) ∧
      Verifies ((run ChainOp.step fresh ([.add_block (first []) none,
        .add_new_block (FutureBlock.input (FutureBlock.newYear 2024 (by decide)))].take 2)).verify_chain
        none) := by
  have hvalid : Verifies (fresh.verify_chain none) := ⟨.ok, rfl, rfl⟩
  refine ⟨(legacy_acceptance fresh rfl hvalid).1 _, (legacy_acceptance fresh rfl hvalid).2 _ ?_ 2⟩
  refine ⟨?_, ?_, trivial⟩
  · intro _
    exact ⟨fun _ => ⟨_, rfl, rfl⟩, fun _ => ⟨_, rfl, by simp [tran_body]⟩⟩
  · change TipIndexed (fresh.add_block (first []) true none).2
    rw [add_first]
    intro tip htip
    obtain rfl := Option.some.inj htip
    exact ⟨.int 1, .int 2, rfl, rfl, by decide⟩

/-- A block with a `consensus_type` is accepted and then fails verification; a
block with a null body would verify and is refused. -/
theorem verdicts_differ :
    ¬ SameVerdict fresh none typed ∧
      ¬ Verifies ((run ChainOp.step fresh [.add_block typed none]).verify_chain none) ∧
      ¬ SameVerdict fresh none bodiless := by
  refine ⟨?_, ?_, ?_⟩
  · intro hsame
    exact not_verifies_typed (hsame.mp (by rw [add_typed]))
  · simp only [run, List.foldl_cons, List.foldl_nil, ChainOp.step, add_typed]
    exact not_verifies_typed
  · intro hsame
    have hrefused : fresh.received_checks bodiless none = .ok false := by decide +kernel
    have hverifies : verify_chain_integrity [bodiless] none DEFAULT_GENESIS_PREV_HASH none
        = .ok .ok := by decide +kernel
    have hadded := hsame.mpr ⟨_, hverifies, rfl⟩
    rw [BlockChain.add_block, if_pos rfl, hrefused] at hadded
    cases hadded

end LegacyBlocks

end EasyBlockchain
