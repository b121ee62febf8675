/-
Proof of stake: chain verification, fork choice's validator and block-by-block
acceptance decide the same thing.

The three thread the stakes differently: a map updated block by block
(`verify_chain_integrity`, `validate_chain_with_genesis_stakes`), and a
recomputation from the accepted chain at every block (`add_block`). All arrive
at the genesis stakes with one reward for every block below, so all decide
`Grows (PosStep ...)`.
-/
import EasyBlockchain.BlockChain

set_option autoImplicit false

namespace EasyBlockchain

open Py Lib

/-! ## Stakes at a height -/

/-- The genesis stakes with one reward for each block of the chain. -/
def rewarded (settings : PosSettings) (genesis_stakes : StakeMap) (chain : List Block) : StakeMap :=
  ⟨genesis_stakes.entries.map fun p =>
      (p.1, p.2 + settings.block_reward
        * chain.countP (fun b => ProofOfStake.proposedBy b = some p.1)), by
    rw [List.map_map]
    exact genesis_stakes.nodup⟩

/-- Replaying the rewards one by one gives the stakes the formula gives. -/
theorem replay_eq_rewarded (settings : PosSettings) (genesis_stakes : StakeMap)
    (chain : List Block) :
    ProofOfStake.replay settings genesis_stakes chain = rewarded settings genesis_stakes chain := by
  induction chain using List.reverseRecOn with
  | nil => simp [ProofOfStake.replay, rewarded]
  | append_singleton chain block ih =>
      rw [ProofOfStake.replay_snoc, ih]
      rcases hid : ProofOfStake.proposedBy block with _ | id
      · simp [ProofOfStake.credit, hid, rewarded]
      · simp only [ProofOfStake.credit, hid, rewarded, StrDict.modify, StrDict.mk.injEq,
          List.map_map]
        refine List.map_congr_left fun p _ => ?_
        rw [Function.comp_apply, List.countP_append, List.countP_singleton]
        by_cases hp : p.1 = id
        · simp only [hp, if_true, hid, decide_true, Prod.mk.injEq, true_and]
          push_cast
          ring
        · have hne : ¬ (some id = some p.1) := fun h => hp (Option.some.inj h).symm
          simp [hp, hid, hne]

/-! ## One meaning -/

section Acceptance

variable [Runtime] [Rsa]

/-- A block may follow a chain under proof of stake. -/
def PosStep (pos : ProofOfStake) (g : Str) (genesis_stakes : StakeMap) (seen : List Block)
    (block : Block) : Prop :=
  Accepts (validate_chain_link pos.genesis_prev_hash block seen.getLast? (some g)) ∧
    ∃ f : ProofOfStake.PosFields, f.Of block ∧ f.Valid pos.validator_public_keys
      (rewarded pos.settings genesis_stakes seen) (seen.length + 1)

omit [Rsa] in
/-- A block that names its validator is rewarded as the formula counts it. -/
theorem apply_block_reward_of_fields (settings : PosSettings) (genesis_stakes : StakeMap)
    (seen : List Block) {block : Block} {f : ProofOfStake.PosFields} (hof : f.Of block) :
    ProofOfStake.apply_block_reward settings (rewarded settings genesis_stakes seen) block
      = .ok (rewarded settings genesis_stakes (seen ++ [block])) := by
  rw [ProofOfStake.apply_block_reward_of_id _ _ hof.block_validator_id, ← replay_eq_rewarded,
    ← replay_eq_rewarded, ProofOfStake.replay_snoc]

/-- An accepted block's proposer is known, so its reward is the one replayed. -/
theorem apply_block_reward_of_step {pos : ProofOfStake} {g : Str} {genesis_stakes : StakeMap}
    {seen : List Block} {block : Block} (h : PosStep pos g genesis_stakes seen block) :
    ProofOfStake.apply_block_reward pos.settings (rewarded pos.settings genesis_stakes seen) block
      = .ok (rewarded pos.settings genesis_stakes (seen ++ [block])) := by
  obtain ⟨-, f, hof, -⟩ := h
  exact apply_block_reward_of_fields pos.settings genesis_stakes seen hof

theorem accepts_pos_link_check {pos : ProofOfStake} {g : Str}
    (hg : orDefault (some g) pos.genesis_prev_hash = g) {previous : Option Block} {block : Block} :
    Accepts (pos_link_check pos g previous block) ↔
      Accepts (validate_chain_link pos.genesis_prev_hash block previous (some g)) := by
  rcases previous with _ | previous
  · simp only [pos_link_check, accepts_bind, pure_eq, accepts_guard, Bool.not_eq_false',
      PyVal.eq_str_iff, header_prev_hash_eq_ok]
    constructor
    · rintro ⟨_, -, -, h⟩
      exact h
    · intro h
      obtain ⟨-, hprev⟩ := accepts_first_link.mp h
      rw [hg] at hprev
      exact ⟨_, hprev, rfl, h⟩
  · rfl

/-- The part of a loop body after the checks. -/
theorem reward_eq_next {ρ : Type} {pos : ProofOfStake} {g : Str} {genesis_stakes : StakeMap}
    {seen : List Block} {block : Block} {s : StakeMap} (h : PosStep pos g genesis_stakes seen block) :
    (do
      let validators ← ProofOfStake.apply_block_reward pos.settings
        (rewarded pos.settings genesis_stakes seen) block
      return Pass.next validators : PyM (Pass StakeMap ρ)) = .ok (.next s) ↔
      s = rewarded pos.settings genesis_stakes (seen ++ [block]) := by
  simp only [apply_block_reward_of_step h, ok_bind, pure_eq, Except.ok.injEq, Pass.next.injEq]
  exact eq_comm

theorem pos_verify_step_eq_next {pos : ProofOfStake} {g : Str}
    (hg : orDefault (some g) pos.genesis_prev_hash = g) {genesis_stakes : StakeMap}
    {chain seen : List Block} {block : Block} {s : StakeMap} :
    pos_verify_step pos chain g (rewarded pos.settings genesis_stakes seen) seen block
        = .ok (.next s) ↔
      PosStep pos g genesis_stakes seen block ∧
        s = rewarded pos.settings genesis_stakes (seen ++ [block]) := by
  simp only [pos_verify_step, pure_eq, check_eq_next, accepts_pos_link_check hg,
    ProofOfStake.accepts_validate_block, Option.getD_some]
  constructor
  · rintro ⟨hlink, hblock, hrest⟩
    exact ⟨⟨hlink, hblock⟩, (reward_eq_next ⟨hlink, hblock⟩).mp hrest⟩
  · rintro ⟨⟨hlink, hblock⟩, hs⟩
    exact ⟨hlink, hblock, (reward_eq_next ⟨hlink, hblock⟩).mpr hs⟩

theorem pos_verify_step_eq_ret {pos : ProofOfStake} {g : Str} {chain seen : List Block}
    {validators : StakeMap} {block : Block} {r : ChainVerificationResult}
    (h : pos_verify_step pos chain g validators seen block = .ok (.ret r)) :
    ∃ reason, r = .fail (seen.length + 1) reason := by
  simp only [pos_verify_step, pure_eq] at h
  rcases check_eq_ret h with ⟨result, rfl⟩ | h
  · exact ⟨result.reason, rfl⟩
  · rcases check_eq_ret h with ⟨result, rfl⟩ | h
    · exact ⟨result.reason, rfl⟩
    · obtain ⟨_, -, h⟩ := bind_eq_ok.mp h
      simp at h

/-- The verification of a proof-of-stake chain decides growth, and a failure
names the height after the longest prefix that grows. -/
theorem pos_verification {pos : ProofOfStake} {g : Str}
    (hg : orDefault (some g) pos.genesis_prev_hash = g) (genesis_stakes : StakeMap)
    (chain : List Block) :
    (Verifies (verify_chain_integrity chain (some (.pos pos)) g (some genesis_stakes)) ↔
        Grows (PosStep pos g genesis_stakes) chain) ∧
      ∀ v, verify_chain_integrity chain (some (.pos pos)) g (some genesis_stakes) = .ok v →
        v.valid = false → ∃ n, v.failed_at_index = some (n + 1) ∧
          IsGreatest {m | m ≤ chain.length ∧ Grows (PosStep pos g genesis_stakes) (chain.take m)}
            n := by
  refine verifies_iff_grows (pos_verify_step pos chain g)
    (rewarded pos.settings genesis_stakes) (fun pre x s => pos_verify_step_eq_next hg)
    (fun pre x r h => pos_verify_step_eq_ret h) ?_
  have hstart : rewarded pos.settings genesis_stakes [] = genesis_stakes := by
    simp [rewarded]
  rw [hstart]
  rfl

theorem genesis_stakes_step_eq_next {pos : ProofOfStake} {g : Str} {genesis_stakes : StakeMap}
    {chain seen : List Block} {block : Block} {s : StakeMap} :
    pos.genesis_stakes_step chain g (rewarded pos.settings genesis_stakes seen) seen block
        = .ok (.next s) ↔
      PosStep pos g genesis_stakes seen block ∧
        s = rewarded pos.settings genesis_stakes (seen ++ [block]) := by
  simp only [ProofOfStake.genesis_stakes_step, pure_eq, check_eq_next,
    ProofOfStake.accepts_validate_block, Option.getD_some]
  constructor
  · rintro ⟨hlink, hblock, hrest⟩
    exact ⟨⟨hlink, hblock⟩, (reward_eq_next ⟨hlink, hblock⟩).mp hrest⟩
  · rintro ⟨⟨hlink, hblock⟩, hs⟩
    exact ⟨hlink, hblock, (reward_eq_next ⟨hlink, hblock⟩).mpr hs⟩

/-- `validate_chain_with_genesis_stakes` decides growth. -/
theorem validate_chain_with_genesis_stakes_iff {pos : ProofOfStake} {g : Option Str}
    {genesis_stakes : StakeMap} {chain : List Block} :
    pos.validate_chain_with_genesis_stakes chain genesis_stakes g = .ok true ↔
      Grows (PosStep pos (orDefault g pos.genesis_prev_hash) genesis_stakes) chain := by
  set expected := orDefault g pos.genesis_prev_hash with hexpected
  have hstart : rewarded pos.settings genesis_stakes [] = genesis_stakes := by
    simp [rewarded]
  refine returns_true_iff_grows (pos.genesis_stakes_step chain expected)
    (rewarded pos.settings genesis_stakes) (fun pre x s => genesis_stakes_step_eq_next) ?_
    (by rw [hstart]; rfl) (fun _ => rfl) fun _ => rfl
  intro pre x r hret
  simp only [ProofOfStake.genesis_stakes_step, pure_eq] at hret
  rcases check_eq_ret hret with ⟨_, rfl⟩ | hret
  · rfl
  · rcases check_eq_ret hret with ⟨_, rfl⟩ | hret
    · rfl
    · obtain ⟨_, -, hret⟩ := bind_eq_ok.mp hret
      simp at hret

/-! ## Block by block -/

/-- The two protocols differ in the running stakes only, which acceptance from
genesis stakes does not read. -/
structure SameRules (pos pos' : ProofOfStake) : Prop where
  settings : pos'.settings = pos.settings
  keys : pos'.validator_public_keys = pos.validator_public_keys
  genesis : pos'.genesis_prev_hash = pos.genesis_prev_hash

theorem SameRules.posStep {pos pos' : ProofOfStake} (h : SameRules pos pos') {g : Str}
    {genesis_stakes : StakeMap} :
    PosStep pos' g genesis_stakes = PosStep pos g genesis_stakes := by
  funext seen block
  simp only [PosStep, h.settings, h.keys, h.genesis]

/-- The blocks of a valid chain hold the values they are judged by. -/
theorem fields_of_grows {pos : ProofOfStake} {g : Str} {genesis_stakes : StakeMap}
    {chain : List Block} (h : Grows (PosStep pos g genesis_stakes) chain) :
    ∀ block ∈ chain, ∃ f : ProofOfStake.PosFields, f.Of block := by
  intro block hblock
  obtain ⟨i, hi, rfl⟩ := List.mem_iff_getElem.mp hblock
  obtain ⟨-, f, hof, -⟩ := h.getElem hi
  exact ⟨f, hof⟩

/-- The blocks of a chain name their validators. -/
def NamesValidators (chain : List Block) : Prop :=
  ∀ block ∈ chain, ∃ id, ProofOfStake.block_validator_id block = .ok (.str id)

/-- The checks of `add_block`, on a chain of accepted blocks. -/
theorem pos_received_checks {self : BlockChain} {pos : ProofOfStake}
    (hpos : self.consensus = some (.pos pos)) (genesis_stakes : StakeMap)
    (hchain : NamesValidators self.chain) (block : Block) :
    self.received_checks block (some genesis_stakes) = .ok true ↔
      PosStep pos self.genesis_prev_hash genesis_stakes self.chain block := by
  have hcompute := ProofOfStake.compute_validators_eq_replay pos.settings genesis_stakes hchain
  rw [replay_eq_rewarded] at hcompute
  have haccept := ProofOfStake.accepts_validate_block pos block self.chain
    (some (rewarded pos.settings genesis_stakes self.chain)) none
  simp only [Option.getD_some, Option.getD_none] at haccept
  rw [BlockChain.received_checks_iff hpos, PosStep, ← haccept]
  simp only [BlockChain.consensus_check, hcompute, ok_bind, Consensus.genesis_prev_hash]

omit [Runtime] in
/-- A block that names its validator is appended, and its reward credited. -/
theorem pos_append {self : BlockChain} {pos : ProofOfStake}
    (hpos : self.consensus = some (.pos pos)) {block : Block} {id : Str}
    (hid : ProofOfStake.block_validator_id block = .ok (.str id)) :
    self.append block = (.ok (), { self with
      chain := self.chain ++ [block]
      consensus := some (.pos { pos with
        validators := ProofOfStake.credit pos.settings pos.validators block }) }) := by
  have hreward := ProofOfStake.apply_block_reward_of_id pos.settings pos.validators hid
  simp only [BlockChain.append, hpos, Consensus.on_block_added, ProofOfStake.on_block_added, hreward,
    ok_bind, pure_eq]

/-- What `add_block` answers, on a chain of accepted blocks. -/
theorem pos_accepts {self : BlockChain} {pos : ProofOfStake}
    (hpos : self.consensus = some (.pos pos)) (genesis_stakes : StakeMap)
    (hchain : NamesValidators self.chain) (block : Block) :
    (self.add_block block true (some genesis_stakes)).1 = .ok true ↔
      PosStep pos self.genesis_prev_hash genesis_stakes self.chain block := by
  have hchecks := pos_received_checks hpos genesis_stakes hchain block
  rw [← hchecks, BlockChain.add_block, if_pos rfl]
  rcases hr : self.received_checks block (some genesis_stakes) with e | _ | _
  · simp
  · simp
  · -- an accepted block names its validator
    obtain ⟨-, f, hof, -⟩ := hchecks.mp hr
    simp [pos_append hpos hof.block_validator_id]

/-- Block-by-block acceptance decides growth. -/
theorem pos_add_blocks {self : BlockChain} {pos pos' : ProofOfStake} (hrules : SameRules pos pos')
    (hpos : self.consensus = some (.pos pos')) {genesis_stakes : StakeMap}
    (hchain : NamesValidators self.chain) {blocks : List Block} :
    self.add_blocks (some genesis_stakes) blocks = true ↔
      GrowsFrom (PosStep pos self.genesis_prev_hash genesis_stakes) self.chain blocks := by
  induction blocks generalizing self pos' with
  | nil => simp [BlockChain.add_blocks, GrowsFrom]
  | cons block blocks ih =>
      rw [BlockChain.add_blocks, GrowsFrom, ← hrules.posStep, BlockChain.add_block, if_pos rfl]
      have hchecks := pos_received_checks hpos genesis_stakes hchain block
      rcases hr : self.received_checks block (some genesis_stakes) with e | b
      · simp [← hchecks, hr]
      · cases b
        · simp [← hchecks, hr]
        · have hstep := hchecks.mp hr
          obtain ⟨-, f, hof, -⟩ := hstep
          have hnamed : NamesValidators (self.chain ++ [block]) := by
            intro b hb
            rcases List.mem_append.mp hb with hb | hb
            · exact hchain b hb
            · rw [List.mem_singleton.mp hb]
              exact ⟨_, hof.block_validator_id⟩
          simp only [pos_append hpos hof.block_validator_id, ← hchecks, hr, true_and]
          rw [hrules.posStep]
          have hrules' : SameRules pos { pos' with
              validators := ProofOfStake.credit pos'.settings pos'.validators block } :=
            ⟨hrules.settings, hrules.keys, hrules.genesis⟩
          exact ih hrules' rfl hnamed

/-! ## What is accepted, height by height -/

/-- The index of a block equals a number. -/
def IndexIs (block : Block) (n : ℕ) : Prop :=
  ∃ index, block.item (lit "block_index") = .ok index ∧ index.eq (.int n) = true

/-- The content of a block at a height: `consensus_type` `pos`, the slot of its
height, the validator elected with the stakes at that height, its transaction
hash, its registered key and its signature. -/
def Proposed (pos : ProofOfStake) (genesis_stakes : StakeMap) (seen : List Block) (block : Block)
    (f : ProofOfStake.PosFields) : Prop :=
  f.Of block ∧ f.slot = ((seen.length + 1 : ℕ) : ℤ) ∧
    (rewarded pos.settings genesis_stakes seen).contains f.validator_id = true ∧
    ProofOfStake.select_proposer ((seen.length + 1 : ℕ) : ℤ)
      (rewarded pos.settings genesis_stakes seen) = .ok f.validator_id ∧
    (∃ body_hash, calc_body_hash (.dict f.tran_body) = .ok body_hash ∧
      calc_pos_tran_hash (.str f.prev_hash) body_hash f.validator_id f.slot = .ok f.tran_hash) ∧
    pos.validator_public_keys.find f.validator_id = some f.public_key ∧
    SignedBy f.public_key f.signature f.content

theorem posStep_iff {pos : ProofOfStake} {g : Str}
    (hg : orDefault (some g) pos.genesis_prev_hash = g) {genesis_stakes : StakeMap}
    {seen : List Block} {block : Block} :
    PosStep pos g genesis_stakes seen block ↔
      HashLinked g seen block ∧ IndexFollows seen block ∧
        ∃ f, Proposed pos genesis_stakes seen block f ∧ f.validator_id ≠ [] := by
  constructor
  · rintro ⟨hlink, f, hof, hvalid⟩
    have hproposed : Proposed pos genesis_stakes seen block f :=
      ⟨hof, hvalid.slot, hvalid.known, hvalid.proposer, hvalid.hash, hvalid.registered,
        hvalid.signed⟩
    obtain ⟨hhash, hindex⟩ := (accepts_chain_link hg ⟨f.prev_hash, hof.prev_hash⟩).mp hlink
    exact ⟨hhash, hindex, f, hproposed, hvalid.named⟩
  · rintro ⟨hhash, hindex, f, ⟨hof, hslot, hknown, hproposer, hh, hreg, hsigned⟩, hnamed⟩
    exact ⟨(accepts_chain_link hg ⟨f.prev_hash, hof.prev_hash⟩).mpr ⟨hhash, hindex⟩, f, hof,
      ⟨hnamed, hslot, hknown, hproposer, hh, hreg, hsigned⟩⟩

/-! ## Indices as numbers -/

omit [Rsa] in
/-- The number after an index, where floats do not round it. -/
theorem addOne_of_eq {v : PyVal} {n : ℕ} (hround : Runtime.round ((n + 1 : ℕ) : ℚ)
    = .fin ((n + 1 : ℕ) : ℚ)) (h : v.eq (.int n) = true) :
    ∃ next, v.addOne = .ok next ∧ next.num = some (.fin ((n + 1 : ℕ) : ℚ)) := by
  cases v with
  | bool b =>
      refine ⟨_, rfl, ?_⟩
      simp only [PyVal.eq, PyVal.numEq, PyVal.num, PyFloat.eq, PyFloat.value, Option.getD_some,
        beq_iff_eq] at h
      push_cast at h ⊢
      rw [← h]
      cases b <;> norm_num [PyVal.num]
  | int i =>
      refine ⟨_, rfl, ?_⟩
      simp only [PyVal.eq, PyVal.numEq, PyVal.num, PyFloat.eq, PyFloat.value, Option.getD_some,
        beq_iff_eq] at h
      have hi : i = n := by exact_mod_cast h
      simp [PyVal.num, hi]
  | float f =>
      refine ⟨_, rfl, ?_⟩
      cases f with
      | fin q =>
          simp only [PyVal.eq, PyVal.numEq, PyVal.num, PyFloat.eq, PyFloat.value, Option.getD_some,
            beq_iff_eq] at h
          have hq : q = n := by exact_mod_cast h
          simp only [PyVal.num, PyFloat.addOne, hq]
          rw [← hround]
          push_cast
          rfl
      | negZero =>
          simp only [PyVal.eq, PyVal.numEq, PyVal.num, PyFloat.eq, PyFloat.value, Option.getD_some,
            beq_iff_eq] at h
          have hn : n = 0 := by exact_mod_cast h.symm
          subst hn
          simpa [PyVal.num, PyFloat.addOne] using hround
      | nan => simp [PyVal.eq, PyVal.numEq, PyVal.num, PyFloat.eq] at h
      | inf s => simp [PyVal.eq, PyVal.numEq, PyVal.num, PyFloat.eq] at h
  | _ => simp [PyVal.eq] at h

omit [Rsa] in
/-- After a block with its own height as index, the next index is its height. -/
theorem indexFollows_iff {seen : List Block} {block : Block}
    (hround : Runtime.round ((seen.length + 1 : ℕ) : ℚ) = .fin ((seen.length + 1 : ℕ) : ℚ))
    (hlast : ∀ previous, seen.getLast? = some previous → IndexIs previous seen.length) :
    IndexFollows seen block ↔ IndexIs block (seen.length + 1) := by
  refine exists_congr fun index => and_congr_right fun _ => ?_
  rcases hl : seen.getLast? with _ | previous
  · simp [List.getLast?_eq_none_iff.mp hl]
  · obtain ⟨last, hlastidx, hnum⟩ := hlast previous hl
    obtain ⟨next, hnext, hnextnum⟩ := addOne_of_eq hround hnum
    have hcongr : index.eq next = index.eq (.int (seen.length + 1 : ℕ)) :=
      PyVal.eq_congr_num hnextnum (by simp [PyVal.num])
    constructor
    · rintro ⟨last', next', hlast', hnext', heq⟩
      rw [hlastidx] at hlast'
      obtain rfl := Except.ok.inj hlast'
      rw [hnext] at hnext'
      obtain rfl := Except.ok.inj hnext'
      rwa [← hcongr]
    · intro heq
      exact ⟨last, next, hlastidx, hnext, by rwa [hcongr]⟩

omit [Rsa] in
/-- On chains short enough for exact floats, indices that follow each other are
the heights. -/
theorem grows_indexFollows {Q : List Block → Block → Prop} {chain : List Block}
    (hround : ∀ n : ℕ, n ≤ chain.length → Runtime.round (n : ℚ) = .fin (n : ℚ)) :
    Grows (fun seen block => IndexFollows seen block ∧ Q seen block) chain ↔
      Grows (fun seen block => IndexIs block (seen.length + 1) ∧ Q seen block) chain := by
  induction chain using List.reverseRecOn with
  | nil => simp
  | append_singleton chain block ih =>
      have hshort : ∀ n : ℕ, n ≤ chain.length → Runtime.round (n : ℚ) = .fin (n : ℚ) :=
        fun n hn => hround n (by simp; omega)
      rw [grows_snoc, grows_snoc, ih hshort]
      refine and_congr_right fun hgrows => ?_
      rw [indexFollows_iff (hround (chain.length + 1) (by simp))]
      intro previous hlast
      obtain ⟨init, rfl⟩ := List.getLast?_eq_some_iff.mp hlast
      simpa using (grows_snoc.mp hgrows).2.1

/-- Chain verification, fork choice's validator and block-by-block acceptance
agree on every list of blocks. They accept exactly the chains where every block
links to its predecessor by hash and by index, and is proposed under a
non-empty id by the validator elected with the genesis stakes and the rewards
below it. As long as floats represent the heights exactly, linking by index
means that the index is the height. A failed verification points just past the
longest accepted prefix. -/
theorem pos_acceptance (pos : ProofOfStake) (genesis_stakes : StakeMap) (chain : List Block) :
    let g := pos.genesis_prev_hash
    let verification := verify_chain_integrity chain (some (.pos pos)) g (some genesis_stakes)
    let empty := BlockChain.new (some (.pos pos)) g
    let Rule (index_ok : List Block → Block → Prop) (seen : List Block) (block : Block) : Prop :=
      HashLinked g seen block ∧ index_ok seen block ∧
        ∃ f, Proposed pos genesis_stakes seen block f ∧ f.validator_id ≠ []
    (Verifies verification ↔
      pos.validate_chain_with_genesis_stakes chain genesis_stakes (some g) = .ok true) ∧
    (Verifies verification ↔ empty.add_blocks (some genesis_stakes) chain = true) ∧
    (Verifies verification ↔
      ∀ (i : ℕ) (hi : i < chain.length), Rule IndexFollows (chain.take i) chain[i]) ∧
    ((∀ n : ℕ, n ≤ chain.length → Runtime.round (n : ℚ) = .fin (n : ℚ)) →
      (Verifies verification ↔ ∀ (i : ℕ) (hi : i < chain.length),
        Rule (fun seen block => IndexIs block (seen.length + 1)) (chain.take i) chain[i])) ∧
    (∀ v, verification = .ok v → v.valid = false →
      ∃ n, v.failed_at_index = some (n + 1) ∧
        IsGreatest {m | m ≤ chain.length ∧
          empty.add_blocks (some genesis_stakes) (chain.take m) = true} n) := by
  intro g verification empty Rule
  have hg : orDefault (some g) pos.genesis_prev_hash = g := orDefault_self _
  have hverify := pos_verification hg genesis_stakes chain
  have hadd : ∀ c, empty.add_blocks (some genesis_stakes) c = true ↔
      Grows (PosStep pos g genesis_stakes) c := fun c =>
    pos_add_blocks ⟨rfl, rfl, rfl⟩ rfl (fun block hblock => by simp [empty, BlockChain.new] at hblock)
  have hrule : PosStep pos g genesis_stakes = Rule IndexFollows := by
    funext seen block
    exact propext (posStep_iff hg)
  refine ⟨?_, ?_, ?_, ?_, ?_⟩
  · rw [hverify.1, validate_chain_with_genesis_stakes_iff, hg]
  · rw [hverify.1, hadd]
  · rw [hverify.1, hrule, grows_iff_getElem]
  · intro hround
    have hcomm : ∀ index_ok : List Block → Block → Prop, Rule index_ok = fun seen block =>
        index_ok seen block ∧ HashLinked g seen block ∧
          ∃ f, Proposed pos genesis_stakes seen block f ∧ f.validator_id ≠ [] := by
      intro index_ok
      funext seen block
      exact propext and_left_comm
    rw [hverify.1, hrule, hcomm, grows_indexFollows hround, ← grows_iff_getElem, hcomm]
  · intro v hv hinvalid
    simp only [hadd]
    exact hverify.2 v hv hinvalid

end Acceptance

/-! ## The validator without a name

Genesis stakes may name the empty id, and then it is elected like any other. The
validator reads an empty `validator_id` as a missing field, so no block of that
validator is accepted, however well it is linked, hashed and signed. -/

namespace NamelessValidator

attribute [local instance] cpython letterRsa

def stakes : StakeMap := ⟨[([], 100)], by decide⟩

def tran_body : Dict :=
  [(.str (lit "input_data"), .str (lit "a")), (.str (lit "output_data"), .str (lit "b"))]

def tran_hash : Str := lit "cf385ae602004ad68eb448a5f1ee3b07b16726eb30644cde3c0e00d3ffa99059"

/-- The block at height one, without its signature. -/
def content : Dict :=
  [(.str (lit "block_index"), .int 1),
    (.str (lit "block_item"), .str (lit "2024-01-01 00:00:00")),
    (.str (lit "block_header"), .dict
      [(.str (lit "prev_hash"), .str DEFAULT_GENESIS_PREV_HASH),
        (.str (lit "consensus_type"), .str (lit "pos")),
        (.str (lit "validator_id"), .str []),
        (.str (lit "slot"), .int 1),
        (.str (lit "tran_hash"), .str tran_hash)]),
    (.str (lit "tran_counter"), .int 2),
    (.str (lit "tran_body"), .dict tran_body)]

/-- The signature of the content with the key `A`. -/
def signature : Str := lit "2bcb7e6b317f6f1b62038388c5772b8b45cfc6568363a609644e87fcc6e56463"

def block : Block :=
  .dict (content ++ [(.str (lit "signature"), .str signature),
    (.str (lit "public_key"), .str (lit "-----A"))])

/-- The protocol with the nameless validator's key registered. -/
def pos : ProofOfStake :=
  ⟨⟨10, 100, 10⟩, none, ⟨none, none⟩, stakes, some stakes, ⟨[([], lit "-----A")], by decide⟩,
    DEFAULT_GENESIS_PREV_HASH⟩

/-- The values the block is judged by. -/
def fields : ProofOfStake.PosFields :=
  ⟨DEFAULT_GENESIS_PREV_HASH, tran_body, [], 1, tran_hash, lit "-----A", signature,
    (signed_bytes content).toOption.getD []⟩

theorem fields_of_block : fields.Of block :=
  ⟨⟨_, rfl, rfl⟩, ⟨_, rfl, rfl⟩, rfl, ⟨_, rfl, rfl⟩, ⟨_, rfl, rfl⟩, ⟨_, rfl, rfl⟩, rfl, rfl,
    ⟨_, rfl, by decide +kernel⟩⟩

theorem signed : SignedBy fields.public_key fields.signature fields.content := by
  have hkey : import_public_key ((utf8 (lit "-----A")).getD []) = some (0 : Fin 26) := by rfl
  exact ⟨(utf8 (lit "-----A")).getD [], (fromHex signature).getD [], (0 : Fin 26),
    by decide +kernel, by decide +kernel, hkey, by decide +kernel, by decide +kernel⟩

/-- A block that meets every rule, and a verification that fails. -/
theorem nameless_validator_refused :
    (HashLinked DEFAULT_GENESIS_PREV_HASH [] block ∧ IndexIs block 1 ∧
        ∃ f, Proposed pos stakes [] block f) ∧
      ¬ Verifies (verify_chain_integrity [block] (some (.pos pos)) DEFAULT_GENESIS_PREV_HASH
        (some stakes)) := by
  refine ⟨⟨⟨_, ⟨_, rfl, rfl⟩, rfl⟩, ⟨_, rfl, by decide⟩, fields, fields_of_block, rfl,
    by decide +kernel, by decide +kernel, ⟨_, rfl, by decide +kernel⟩, by decide +kernel, signed⟩, ?_⟩
  have hfail : verify_chain_integrity [block] (some (.pos pos)) DEFAULT_GENESIS_PREV_HASH
      (some stakes) = .ok (.fail 1 (lit "missing PoS fields")) := by decide +kernel
  rintro ⟨v, hv, hvalid⟩
  rw [hfail] at hv
  obtain rfl := Except.ok.inj hv
  simp [ChainVerificationResult.fail] at hvalid

end NamelessValidator

end EasyBlockchain
