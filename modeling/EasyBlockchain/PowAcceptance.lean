/-
Proof of work: fork choice, chain verification and block-by-block acceptance
decide the same thing.

The three are separate loops in the source. Each is shown to decide `Grows
(PowStep ...)`: every block links to its predecessor and passes
`validate_block` on top of the blocks before it. Prefix closure, the longest
accepted prefix and the agreement between fork choice and `replace_chain` are
then facts about growth.
-/
import EasyBlockchain.BlockChain
import EasyBlockchain.Py.CPython

set_option autoImplicit false

namespace EasyBlockchain

open Py Lib

variable [Runtime] [Rsa]

/-! ## One meaning -/

/-- A block may follow a chain under proof of work. -/
def PowStep (pow : ProofOfWork) (g : Str) (seen : List Block) (block : Block) : Prop :=
  Accepts (validate_chain_link pow.genesis_prev_hash block seen.getLast? (some g)) ∧
    Accepts (ProofOfWork.validate_block pow.settings block seen)

omit [Rsa] in
theorem chain_valid_step_eq_next {pow : ProofOfWork} {seen : List Block} {block : Block} {s : Unit} :
    ProofOfWork.chain_valid_step pow () seen block = .ok (.next s) ↔
      PowStep pow pow.genesis_prev_hash seen block ∧ s = () := by
  simp only [ProofOfWork.chain_valid_step, pure_eq, check_eq_next, PowStep, and_true]

omit [Rsa] in
/-- `_is_chain_valid` decides growth. -/
theorem is_chain_valid_iff {pow : ProofOfWork} {chain : List Block} :
    pow.is_chain_valid chain = .ok true ↔ Grows (PowStep pow pow.genesis_prev_hash) chain := by
  refine returns_true_iff_grows (ProofOfWork.chain_valid_step pow) (fun _ => ())
    (fun pre x s => chain_valid_step_eq_next) ?_ rfl (fun _ => rfl) fun _ => rfl
  intro pre x r hret
  simp only [ProofOfWork.chain_valid_step, pure_eq] at hret
  rcases check_eq_ret hret with ⟨_, rfl⟩ | hret
  · rfl
  · rcases check_eq_ret hret with ⟨_, rfl⟩ | hret
    · rfl
    · simp at hret

/-- The verification of a proof-of-work chain decides growth, and a failure
names the height after the longest prefix that grows. -/
theorem pow_verification {pow : ProofOfWork} {g : Str}
    (hg : orDefault (some g) pow.genesis_prev_hash = g) {chain : List Block}
    {genesis_stakes : Option StakeMap} :
    (Verifies (verify_chain_integrity chain (some (.pow pow)) g genesis_stakes) ↔
        Grows (PowStep pow g) chain) ∧
      ∀ v, verify_chain_integrity chain (some (.pow pow)) g genesis_stakes = .ok v →
        v.valid = false → ∃ n, v.failed_at_index = some (n + 1) ∧
          IsGreatest {m | m ≤ chain.length ∧ Grows (PowStep pow g) (chain.take m)} n := by
  have hstep : VerifyStep (some (.pow pow)) g = PowStep pow g := by
    funext seen block
    exact propext (and_congr (accepts_link_check hg) accepts_content_check)
  rw [← hstep]
  exact loop_verification (some (.pow pow)) g chain rfl

/-- A genesis hash other than the one the protocol expects leaves only the
empty chain valid. -/
theorem pow_verifies_iff {pow : ProofOfWork} {g : Str} {chain : List Block}
    {genesis_stakes : Option StakeMap} :
    Verifies (verify_chain_integrity chain (some (.pow pow)) g genesis_stakes) ↔
      (chain ≠ [] → orDefault (some g) pow.genesis_prev_hash = g) ∧
        Grows (PowStep pow g) chain := by
  by_cases hg : orDefault (some g) pow.genesis_prev_hash = g
  · simp [hg, (pow_verification hg).1]
  rcases chain with _ | ⟨block, rest⟩
  · exact ⟨fun _ => ⟨fun hne => absurd rfl hne, grows_nil⟩, fun _ =>
      (loop_verification (some (.pow pow)) g [] rfl).1.mpr grows_nil⟩
  · simp only [hg, ne_eq, reduceCtorEq, not_false_eq_true, forall_const, false_and, iff_false]
    intro h
    -- the first block would have to name both hashes
    obtain ⟨hlink, -⟩ := ((loop_verification (some (.pow pow)) g _ rfl).1.mp h).1
    simp only [link_check, List.getLast?_nil, accepts_bind, pure_eq, accepts_guard,
      Bool.not_eq_false', PyVal.eq_str_iff, header_prev_hash_eq_ok] at hlink
    obtain ⟨_, hprev, rfl, _, -, -, hfirst⟩ := hlink
    exact hg (PyVal.str.inj ((accepts_first_link.mp hfirst).2.unique hprev))

/-- One block through `add_block`. -/
theorem pow_add_block {self : BlockChain} {pow : ProofOfWork}
    (hpow : self.consensus = some (.pow pow)) (block : Block)
    (genesis_stakes : Option StakeMap) :
    self.add_block block true genesis_stakes
        = (.ok true, { self with chain := self.chain ++ [block] }) ↔
      PowStep pow self.genesis_prev_hash self.chain block := by
  have hchecks : self.received_checks block genesis_stakes = .ok true ↔
      PowStep pow self.genesis_prev_hash self.chain block := by
    rw [BlockChain.received_checks_iff hpow]
    rfl
  rw [← hchecks, BlockChain.add_block]
  rcases hr : self.received_checks block genesis_stakes with e | b
  · simp
  · cases b
    · simp
    · simp [BlockChain.append, hpow, Consensus.on_block_added]

/-- The chain is the only thing `add_block` changes under proof of work. -/
theorem pow_add_block_ok {self self' : BlockChain} {pow : ProofOfWork}
    (hpow : self.consensus = some (.pow pow)) {block : Block} {validate : Bool}
    {genesis_stakes : Option StakeMap} {r : PyM Bool}
    (h : self.add_block block validate genesis_stakes = (r, self')) :
    (r = .ok true ∧ self' = { self with chain := self.chain ++ [block] }) ∨
      (r ≠ .ok true ∧ self' = self) := by
  unfold BlockChain.add_block at h
  split at h
  · obtain ⟨rfl, rfl⟩ := Prod.mk.inj h
    exact Or.inr ⟨by simp, rfl⟩
  · obtain ⟨rfl, rfl⟩ := Prod.mk.inj h
    exact Or.inr ⟨by simp, rfl⟩
  · simp only [BlockChain.append, hpow, Consensus.on_block_added, Prod.mk.injEq] at h
    obtain ⟨rfl, rfl⟩ := h
    exact Or.inl ⟨rfl, by rw [hpow]⟩

/-- What `add_block` answers. -/
theorem pow_accepts {self : BlockChain} {pow : ProofOfWork}
    (hpow : self.consensus = some (.pow pow)) (block : Block)
    (genesis_stakes : Option StakeMap) :
    (self.add_block block true genesis_stakes).1 = .ok true ↔
      PowStep pow self.genesis_prev_hash self.chain block := by
  rw [← pow_add_block hpow block genesis_stakes]
  obtain ⟨r, self', hadd⟩ : ∃ r self', self.add_block block true genesis_stakes = (r, self') :=
    ⟨_, _, rfl⟩
  rw [hadd]
  constructor
  · intro h
    rcases pow_add_block_ok hpow hadd with ⟨hr, hself⟩ | ⟨hr, -⟩
    · rw [hr, hself]
    · exact absurd h hr
  · intro h
    rw [h]

/-- Block-by-block acceptance decides growth. -/
theorem pow_add_blocks {self : BlockChain} {pow : ProofOfWork}
    (hpow : self.consensus = some (.pow pow)) {blocks : List Block}
    {genesis_stakes : Option StakeMap} :
    self.add_blocks genesis_stakes blocks = true ↔
      GrowsFrom (PowStep pow self.genesis_prev_hash) self.chain blocks := by
  induction blocks generalizing self with
  | nil => simp [BlockChain.add_blocks, GrowsFrom]
  | cons block blocks ih =>
      rw [BlockChain.add_blocks, GrowsFrom, ← pow_add_block hpow block genesis_stakes]
      rcases hadd : self.add_block block true genesis_stakes with ⟨r, self'⟩
      rcases pow_add_block_ok hpow hadd with ⟨rfl, rfl⟩ | ⟨hr, rfl⟩
      · simp only [true_and]
        exact ih hpow
      · have hne : (r, self') ≠ (.ok true, { self' with chain := self'.chain ++ [block] }) := by
          intro h
          exact hr (Prod.mk.inj h).1
        simp only [hne, false_and, iff_false]
        split
        · rename_i h
          exact absurd (Prod.mk.inj h).1 hr
        · simp

omit [Rsa] in
/-- A chain accepted by `_is_chain_valid` is what `select_canonical_chain` returns. -/
theorem select_canonical_chain_grows {pow : ProofOfWork} {chains : List (List Block)}
    {chain : List Block} (h : pow.select_canonical_chain chains = .ok chain) :
    Grows (PowStep pow pow.genesis_prev_hash) chain := by
  simp only [ProofOfWork.select_canonical_chain, bind_eq_ok] at h
  obtain ⟨valid, hvalid, best, hbest, h⟩ := h
  rcases best with _ | best
  · obtain rfl := Except.ok.inj h
    exact grows_nil
  · obtain rfl := Except.ok.inj h
    obtain ⟨hmem, -⟩ := maxBy_eq_some hbest
    rw [(filterPy_eq_ok.mp hvalid).2] at hmem
    exact is_chain_valid_iff.mp (by simpa using (List.mem_filter.mp hmem).2)

/-- A local block is stored when it is complete, and nothing else changes. -/
theorem pow_add_new_block_ok {self self' : BlockChain} {pow : ProofOfWork}
    (hpow : self.consensus = some (.pow pow)) {input : BlockChain.LocalInput} {r : PyM Block}
    (h : self.add_new_block input = (r, self')) :
    (∃ block, (self.draft_block input >>= self.complete_block input) = .ok block ∧
      self' = { self with chain := self.chain ++ [block] }) ∨ self' = self := by
  unfold BlockChain.add_new_block at h
  split at h
  · exact Or.inr (Prod.mk.inj h).2.symm
  · rename_i block hblock
    simp only [BlockChain.append, hpow, Consensus.on_block_added, Prod.mk.injEq] at h
    exact Or.inl ⟨block, hblock, by rw [← h.2, hpow]⟩

/-- A new chain is stored when it verifies, and nothing else changes. -/
theorem pow_replace_chain_ok {self self' : BlockChain} {pow : ProofOfWork}
    (hpow : self.consensus = some (.pow pow)) {new_chain : List Block}
    {genesis_stakes : Option StakeMap} {r : PyM Bool}
    (h : self.replace_chain new_chain genesis_stakes = (r, self')) :
    (Verifies (verify_chain_integrity new_chain (some (.pow pow)) self.genesis_prev_hash
      genesis_stakes) ∧ self' = { self with chain := new_chain }) ∨ self' = self := by
  unfold BlockChain.replace_chain at h
  split at h
  · exact Or.inr (Prod.mk.inj h).2.symm
  · rename_i v hv
    by_cases hvalid : v.valid = true
    · simp only [hvalid, Bool.not_true, Bool.false_eq_true, if_false, hpow, Prod.mk.injEq] at h
      rw [hpow] at hv
      exact Or.inl ⟨⟨v, hv, hvalid⟩, by rw [← h.2, hpow]⟩
    · simp only [hvalid, Bool.not_false, if_true, Prod.mk.injEq] at h
      exact Or.inr h.2.symm

/-- `replace_chain` takes every chain that verifies. -/
theorem pow_replace_chain {self : BlockChain} {pow : ProofOfWork}
    (hpow : self.consensus = some (.pow pow)) {chain : List Block}
    {genesis_stakes : Option StakeMap}
    (h : Verifies (verify_chain_integrity chain (some (.pow pow)) self.genesis_prev_hash
      genesis_stakes)) :
    self.replace_chain chain genesis_stakes = (.ok true, { self with chain := chain }) := by
  obtain ⟨v, hv, hvalid⟩ := h
  simp [BlockChain.replace_chain, hpow, hv, hvalid]

/-- Fork choice, chain verification and block-by-block acceptance agree on every
list of blocks. Acceptance is closed under prefixes, `replace_chain` takes the
chain that fork choice picked, and a failed verification points just past the
longest accepted prefix. -/
theorem pow_acceptance (pow : ProofOfWork) (chain : List Block)
    (genesis_stakes : Option StakeMap) :
    let verification (c : List Block) :=
      verify_chain_integrity c (some (.pow pow)) pow.genesis_prev_hash genesis_stakes
    let empty := BlockChain.new (some (.pow pow)) pow.genesis_prev_hash
    (pow.is_chain_valid chain = .ok true ↔ Verifies (verification chain)) ∧
    (Verifies (verification chain) ↔ empty.add_blocks genesis_stakes chain = true) ∧
    (∀ c, c <+: chain → Verifies (verification chain) → Verifies (verification c)) ∧
    (∀ (self : BlockChain) (chains : List (List Block)) (picked : List Block),
      self.consensus = some (.pow pow) → self.genesis_prev_hash = pow.genesis_prev_hash →
        pow.select_canonical_chain chains = .ok picked →
          self.replace_chain picked genesis_stakes = (.ok true, { self with chain := picked })) ∧
    (∀ v, verification chain = .ok v → v.valid = false →
      ∃ n, v.failed_at_index = some (n + 1) ∧
        IsGreatest {m | m ≤ chain.length ∧
          empty.add_blocks genesis_stakes (chain.take m) = true} n) := by
  intro verification empty
  have horDefault : orDefault (some pow.genesis_prev_hash) pow.genesis_prev_hash
      = pow.genesis_prev_hash := orDefault_self _
  have hverify : ∀ c, Verifies (verification c) ↔
      Grows (PowStep pow pow.genesis_prev_hash) c := fun c => (pow_verification horDefault).1
  have hadd : ∀ c, empty.add_blocks genesis_stakes c = true ↔
      Grows (PowStep pow pow.genesis_prev_hash) c := fun c => pow_add_blocks rfl
  refine ⟨?_, ?_, ?_, ?_, ?_⟩
  · rw [hverify, is_chain_valid_iff]
  · rw [hverify, hadd]
  · intro c hc h
    exact (hverify c).mpr (((hverify chain).mp h).prefix_closed hc)
  · intro self chains picked hpow hgen hpicked
    refine pow_replace_chain hpow ?_
    rw [hgen]
    exact (hverify picked).mpr (select_canonical_chain_grows hpicked)
  · intro v hv hinvalid
    simp only [hadd]
    exact (pow_verification horDefault).2 v hv hinvalid

end EasyBlockchain
