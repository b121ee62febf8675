/-
Proof of stake: the node that proposes a block, and a node that validates it.

Both elect the proposer with the genesis stakes and the rewards of the chain,
the one in `prepare_block` and the other in `validate_block`, so the running
stakes of either do not matter. The producer does not look at the indices of
the chain it builds on, nor at whether its own id is empty; the validator does.
-/
import EasyBlockchain.ForkAttribution
import EasyBlockchain.OwnChain

set_option autoImplicit false

namespace EasyBlockchain

open Py Lib

section Producer

variable [Runtime] [Rsa]

/-! ## The proposed block -/

/-- A manager that signs for the key `pem`: what it signs verifies. -/
def Signs (manager : SignatureManager) (pem : Str) : Prop :=
  ∃ key, manager.private_key = some key ∧ export_public_key manager = .ok pem ∧
    ∀ salt content, SignedBy pem (toHex (Rsa.sign key salt content)) content

/-- The header of a proposed block. -/
def proposed_header (prev_hash tran_hash validator_id : Str) (slot : ℕ) : Dict :=
  [(.str (lit "prev_hash"), .str prev_hash),
    (.str (lit "consensus_type"), .str (lit "pos")),
    (.str (lit "tran_hash"), .str tran_hash),
    (.str (lit "validator_id"), .str validator_id),
    (.str (lit "slot"), .int slot)]

/-- What a proposed block is: the elected proposer is the node itself, and the
block is hashed and signed. -/
theorem proposed_block_eq {self : BlockChain} {pos : ProofOfStake}
    (hpos : self.consensus = some (.pos pos)) {input : BlockChain.LocalInput} {block : Block}
    (h : (self.draft_block input >>= self.complete_block input) = .ok block) :
    ∃ validators key prev_hash proposer body_hash tran_hash pem content, ∃ m n : ℕ,
      pos.proposal_stakes self.chain = .ok validators ∧
      ProofOfStake.select_proposer (self.chain.length + 1 : ℕ) validators = .ok proposer ∧
      pos.node_validator_id = some proposer ∧
      self.previous_hash = .ok (.str prev_hash) ∧
      input.input_data.len = .ok m ∧ input.output_data.len = .ok n ∧
      calc_body_hash input.transaction = .ok body_hash ∧
      calc_pos_tran_hash (.str prev_hash) body_hash proposer (self.chain.length + 1 : ℕ)
        = .ok tran_hash ∧
      pos.signature_manager.private_key = some key ∧
      export_public_key pos.signature_manager = .ok pem ∧
      signed_bytes (local_entries (self.chain.length + 1) (m + n) (strftime input.clock)
        (proposed_header prev_hash tran_hash proposer (self.chain.length + 1)) input.transaction)
          = .ok content ∧
      block = .dict (local_entries (self.chain.length + 1) (m + n) (strftime input.clock)
        (proposed_header prev_hash tran_hash proposer (self.chain.length + 1)) input.transaction
        ++ [(.str (lit "signature"), .str (toHex (Rsa.sign key input.salt content))),
          (.str (lit "public_key"), .str pem)]) := by
  obtain ⟨draft, hdraft, hcomplete⟩ := bind_eq_ok.mp h
  simp only [BlockChain.draft_block, BlockChain.draft_header, hpos, bind_eq_ok, pure_eq,
    Except.ok.injEq, exists_eq_left'] at hdraft
  obtain ⟨prev, hprev, _, -, m, hm, n, hn, rfl⟩ := hdraft
  simp only [BlockChain.complete_block, hpos, Consensus.prepare_block, ProofOfStake.prepare_block,
    bind_eq_ok] at hcomplete
  obtain ⟨validators, hvalidators, proposer, hproposer, hcomplete⟩ := hcomplete
  by_cases hown : pos.node_validator_id = some proposer
  swap
  · rw [if_pos hown] at hcomplete
    cases hcomplete
  by_cases hkey : pos.signature_manager.private_key.isNone = true
  · rw [if_neg (not_not.mpr hown), if_pos hkey] at hcomplete
    cases hcomplete
  rw [if_neg (not_not.mpr hown), if_neg hkey] at hcomplete
  simp only [PyVal.item_dict, bind_eq_ok, orRaise_eq_ok] at hcomplete
  obtain ⟨header, hheader, tran_body, htran_body, body_hash, hbody_hash, _, hh₁, _, hh₂, prev_hash,
    hprev_hash, tran_hash, htran_hash, _, hh₃, _, hh₄, signed, hsigned, hblock⟩ := hcomplete
  obtain rfl := Except.ok.inj hblock
  obtain rfl := Option.some.inj hheader
  obtain rfl := Option.some.inj htran_body
  obtain rfl := Except.ok.inj hh₁
  obtain rfl := Except.ok.inj hh₂
  obtain rfl : prev = prev_hash := Except.ok.inj hprev_hash
  obtain rfl := Except.ok.inj hh₃
  obtain rfl := Except.ok.inj hh₄
  -- the hash of a value that is not a string would have raised
  obtain ⟨p, rfl⟩ : ∃ s, prev = .str s := by
    simp only [calc_pos_tran_hash, bind_eq_ok, concat_eq_ok] at htran_hash
    obtain ⟨_, ⟨s, hs, -⟩, -⟩ := htran_hash
    exact ⟨s, hs⟩
  simp only [sign_block, bind_eq_ok, pure_eq, Except.ok.injEq, orRaise_eq_ok] at hsigned
  obtain ⟨key, hkey, content, hcontent, pem, hexport, rfl⟩ := hsigned
  exact ⟨validators, key, p, proposer, body_hash, tran_hash, pem, content, m, n, hvalidators,
    hproposer, hown, hprev, hm, hn, hbody_hash, htran_hash, hkey, hexport, hcontent, rfl⟩

/-- The local block of a proof-of-stake chain holds the values it is judged by. -/
theorem proposed_block_fields {self : BlockChain} {pos : ProofOfStake}
    (hpos : self.consensus = some (.pos pos)) {input : BlockChain.LocalInput} {block : Block}
    (h : (self.draft_block input >>= self.complete_block input) = .ok block) :
    ∃ validators key, ∃ f : ProofOfStake.PosFields, f.Of block ∧
      pos.proposal_stakes self.chain = .ok validators ∧
      ProofOfStake.select_proposer (self.chain.length + 1 : ℕ) validators = .ok f.validator_id ∧
      pos.node_validator_id = some f.validator_id ∧ f.slot = (self.chain.length + 1 : ℕ) ∧
      self.previous_hash = .ok (.str f.prev_hash) ∧
      block.item (lit "block_index") = .ok (.int (self.chain.length + 1)) ∧
      (∃ body_hash, calc_body_hash (.dict f.tran_body) = .ok body_hash ∧
        calc_pos_tran_hash (.str f.prev_hash) body_hash f.validator_id f.slot = .ok f.tran_hash) ∧
      pos.signature_manager.private_key = some key ∧
      export_public_key pos.signature_manager = .ok f.public_key ∧
      f.signature = toHex (Rsa.sign key input.salt f.content) := by
  obtain ⟨validators, key, prev_hash, proposer, body_hash, tran_hash, pem, content, m, n, hvalidators,
    hproposer, hown, hprev, -, -, hbody_hash, htran_hash, hkey, hexport, hcontent, rfl⟩ :=
    proposed_block_eq hpos h
  refine ⟨validators, key, ⟨prev_hash, _, proposer, _, tran_hash, pem,
    toHex (Rsa.sign key input.salt content), content⟩, ?_, hvalidators, hproposer, hown, rfl, hprev,
    rfl, ⟨body_hash, hbody_hash, htran_hash⟩, hkey, hexport, rfl⟩
  exact ⟨⟨_, rfl, rfl⟩, ⟨_, rfl, rfl⟩, rfl, ⟨_, rfl, rfl⟩, ⟨_, rfl, rfl⟩, ⟨_, rfl, rfl⟩, rfl, rfl,
    ⟨_, rfl, hcontent⟩⟩

/-! ## Two nodes on one chain -/

/-- A node that can propose on the chain. Its running stakes, its id and its keys
can be any. -/
structure ProposesOn (settings : PosSettings) (stakes : StakeMap) (g : Str) (blocks : List Block)
    (producer : BlockChain) (pos : ProofOfStake) : Prop where
  consensus : producer.consensus = some (.pos pos)
  chain : producer.chain = blocks
  genesis : producer.genesis_prev_hash = g
  same_settings : pos.settings = settings
  genesis_stakes : pos.genesis_stakes = some stakes

/-- A node that validates blocks on the chain. Its running stakes, and the
genesis stakes its protocol was created with, can be any. -/
structure ValidatesOn (settings : PosSettings) (g : Str) (blocks : List Block)
    (verifier : BlockChain) (pos : ProofOfStake) : Prop where
  consensus : verifier.consensus = some (.pos pos)
  chain : verifier.chain = blocks
  genesis : verifier.genesis_prev_hash = g
  expected_genesis : pos.genesis_prev_hash = g
  same_settings : pos.settings = settings

variable {settings : PosSettings} {stakes : StakeMap} {g pem : Str} {blocks : List Block}
  {producer verifier : BlockChain} {pos pos' : ProofOfStake}

omit [Runtime] in
/-- The proposer is elected with the stakes of the chain. -/
theorem ProposesOn.proposal_stakes (h : ProposesOn settings stakes g blocks producer pos)
    (hchain : NamesValidators blocks) :
    pos.proposal_stakes producer.chain = .ok (rewarded settings stakes blocks) := by
  rw [ProofOfStake.proposal_stakes, h.genesis_stakes, h.chain, h.same_settings,
    ← replay_eq_rewarded]
  exact ProofOfStake.compute_validators_eq_replay settings stakes hchain

/-- The validator accepts a proposed block exactly if the proposer's id is not
empty and the tip has its index. -/
theorem proposed_step_iff (hproducer : ProposesOn settings stakes g blocks producer pos)
    (hverifier : ValidatesOn settings g blocks verifier pos') (hchain : NamesValidators blocks)
    (hsigns : Signs pos.signature_manager pem)
    (hkey : ∀ id, pos.node_validator_id = some id →
      pos'.validator_public_keys.find id = some pem)
    {input : BlockChain.LocalInput} {block : Block}
    (h : (producer.draft_block input >>= producer.complete_block input) = .ok block) :
    PosStep pos' g stakes blocks block ↔ pos.node_validator_id ≠ some [] ∧ TipIndexed producer := by
  obtain ⟨validators, key, f, hof, hvalidators, hproposer, hown, hslot, hprevious, hindex, hhash,
    hprivate, hexport, hsignature⟩ := proposed_block_fields hproducer.consensus h
  rw [hproducer.proposal_stakes hchain, Except.ok.injEq] at hvalidators
  subst hvalidators
  obtain ⟨key', hprivate', hexport', hverifies⟩ := hsigns
  rw [hprivate, Option.some.injEq] at hprivate'
  rw [hexport, Except.ok.injEq] at hexport'
  subst hprivate' hexport'
  have hlink := local_link_iff pos'.genesis_prev_hash hprevious hof.prev_hash hindex
  rw [hproducer.chain, hproducer.genesis, hverifier.expected_genesis, orDefault_self] at hlink
  rw [hproducer.chain] at hproposer hslot
  have hnamed : pos.node_validator_id ≠ some [] ↔ f.validator_id ≠ [] := by
    rw [hown, ne_eq, Option.some.injEq]
  rw [PosStep, hverifier.expected_genesis, hlink, hverifier.same_settings, hnamed]
  constructor
  · rintro ⟨⟨htip, -⟩, f', hof', hvalid⟩
    obtain rfl := hof.unique hof'
    exact ⟨hvalid.named, htip⟩
  · rintro ⟨hne, htip⟩
    refine ⟨⟨htip, fun _ => rfl⟩, f, hof, hne, hslot, ?_, hproposer, hhash, hkey _ hown, ?_⟩
    · exact ProofOfStake.contains_of_select_proposer hproposer
    · rw [hsignature]
      exact hverifies input.salt f.content

/-- Where floats do not round the heights, the tip of a valid chain has its index. -/
theorem tipIndexed_of_grows (hproducer : ProposesOn settings stakes g blocks producer pos)
    (hg : pos'.genesis_prev_hash = g) (hgrows : Grows (PosStep pos' g stakes) blocks)
    (hround : ∀ n : ℕ, n ≤ blocks.length + 1 → Runtime.round (n : ℚ) = .fin (n : ℚ)) :
    TipIndexed producer := by
  have hindexed : Grows (fun seen block => IndexIs block (seen.length + 1) ∧ True) blocks := by
    apply (grows_indexFollows fun n hn => hround n (by omega)).mp
    refine hgrows.imp fun seen block _ hstep => ⟨?_, trivial⟩
    exact ((posStep_iff (by rw [hg, orDefault_self])).mp hstep).2.1
  intro tip htip
  rw [hproducer.chain] at htip ⊢
  obtain ⟨init, hinit⟩ := List.getLast?_eq_some_iff.mp htip
  have hlength : blocks.length = init.length + 1 := by rw [hinit, List.length_append]; rfl
  rw [hinit] at hindexed
  obtain ⟨index, hindex, heq⟩ := (grows_snoc.mp hindexed).2.1
  obtain ⟨next, hnext, hnum⟩ := addOne_of_eq (hround (init.length + 1 + 1) (by omega)) heq
  have hcongr : PyVal.eq (.int (blocks.length + 1)) next
      = PyVal.eq (.int (blocks.length + 1)) (.int (blocks.length + 1)) :=
    PyVal.eq_congr_num hnum (by simp [PyVal.num, hlength])
  refine ⟨index, next, hindex, hnext, ?_⟩
  rw [hcongr]
  simp [PyVal.eq, PyVal.numEq, PyVal.num, PyFloat.eq, PyFloat.value]

/-! ## What the validator makes of it -/

/-- The node is the proposer elected for the next block. -/
def Elected (settings : PosSettings) (stakes : StakeMap) (blocks : List Block) (pos : ProofOfStake) :
    Prop :=
  ∃ id, pos.node_validator_id = some id ∧ ProofOfStake.select_proposer (blocks.length + 1 : ℕ)
    (rewarded settings stakes blocks) = .ok id

/-- A node appends its own block as the elected proposer, or raises and keeps its
chain. -/
theorem add_new_block_elected (hproducer : ProposesOn settings stakes g blocks producer pos)
    (hchain : NamesValidators blocks) (input : BlockChain.LocalInput) :
    (∃ e, producer.add_new_block input = (.error e, producer)) ∨
      ∃ block after, producer.add_new_block input = (.ok block, after) ∧
        after.chain = blocks ++ [block] ∧ Elected settings stakes blocks pos ∧
        (producer.draft_block input >>= producer.complete_block input) = .ok block := by
  unfold BlockChain.add_new_block
  rcases hblock : producer.draft_block input >>= producer.complete_block input with e | block
  · exact Or.inl ⟨e, rfl⟩
  · obtain ⟨validators, key, f, hof, hvalidators, hproposer, hown, -⟩ :=
      proposed_block_fields hproducer.consensus hblock
    rw [hproducer.proposal_stakes hchain, Except.ok.injEq] at hvalidators
    subst hvalidators
    rw [hproducer.chain] at hproposer
    simp only [pos_append hproducer.consensus hof.block_validator_id, hproducer.chain]
    exact Or.inr ⟨block, _, rfl, rfl, ⟨_, hown, hproposer⟩, rfl⟩

/-- A block that a node with a non-empty id proposes on a valid chain is accepted
by `add_block` and in a verification of the longer chain, whatever the running
stakes of the two nodes, exactly if the tip has its index; it has on every chain
whose heights floats do not round. Only one id can propose on the chain, and a
node with another raises and keeps its chain. -/
theorem proposal_accepted (hproducer : ProposesOn settings stakes g blocks producer pos)
    (hverifier : ValidatesOn settings g blocks verifier pos')
    (hvalid : Verifies (verifier.verify_chain (some stakes)))
    (hsigns : Signs pos.signature_manager pem)
    (hkey : ∀ id, pos.node_validator_id = some id →
      pos'.validator_public_keys.find id = some pem) :
    (∀ input block after, producer.add_new_block input = (.ok block, after) →
      after.chain = blocks ++ [block] ∧
      ((verifier.add_block block true (some stakes)).1 = .ok true ↔
        pos.node_validator_id ≠ some [] ∧ TipIndexed producer) ∧
      (Verifies (verify_chain_integrity (blocks ++ [block]) (some (.pos pos')) g (some stakes)) ↔
        pos.node_validator_id ≠ some [] ∧ TipIndexed producer)) ∧
    ((∀ n : ℕ, n ≤ blocks.length + 1 → Runtime.round (n : ℚ) = .fin (n : ℚ)) →
      TipIndexed producer) ∧
    ∀ other other_pos, ProposesOn settings stakes g blocks other other_pos → ∀ input,
      (∃ e, other.add_new_block input = (.error e, other)) ∨
        ∃ block after, other.add_new_block input = (.ok block, after) ∧
          Elected settings stakes blocks other_pos := by
  have hg : orDefault (some g) pos'.genesis_prev_hash = g := by
    rw [hverifier.expected_genesis, orDefault_self]
  rw [BlockChain.verify_chain, hverifier.consensus, hverifier.genesis, hverifier.chain,
    (pos_verification hg stakes blocks).1] at hvalid
  have hnames : NamesValidators blocks := by
    intro block hblock
    obtain ⟨f, hof⟩ := fields_of_grows hvalid block hblock
    exact ⟨_, hof.block_validator_id⟩
  refine ⟨?_, tipIndexed_of_grows hproducer hverifier.expected_genesis hvalid, ?_⟩
  · intro input block after hadd
    rcases add_new_block_elected hproducer hnames input with ⟨e, hraise⟩ |
      ⟨block', after', hadd', hafter, -, hblock⟩
    · rw [hraise] at hadd
      cases hadd
    rw [hadd, Prod.mk.injEq, Except.ok.injEq] at hadd'
    obtain ⟨rfl, rfl⟩ := hadd'
    have hstep := proposed_step_iff hproducer hverifier hnames hsigns hkey hblock
    refine ⟨hafter, ?_, ?_⟩
    · have haccepts := pos_accepts hverifier.consensus stakes
        (by rw [hverifier.chain]; exact hnames) block
      rw [hverifier.genesis, hverifier.chain] at haccepts
      rw [haccepts, hstep]
    · rw [(pos_verification hg stakes (blocks ++ [block])).1, grows_snoc, and_iff_right hvalid, hstep]
  · intro other other_pos hother input
    rcases add_new_block_elected hother hnames input with hraise |
      ⟨block, after, hadd, -, helected, -⟩
    · exact Or.inl hraise
    · exact Or.inr ⟨block, after, hadd, helected⟩

end Producer

/-! ## A producer with a name, and one without -/

namespace Proposals

attribute [local instance] cpython letterRsa

def settings : PosSettings := ⟨10, 100, 10⟩

/-- The key `A`. -/
def manager : SignatureManager := ⟨some (0 : Fin 26), some (0 : Fin 26)⟩

/-- A producer of the given id whose running stakes are empty. -/
def producer_pos (id : Str) (stakes : StakeMap) : ProofOfStake :=
  ⟨settings, some id, manager, .empty, some stakes, .empty, DEFAULT_GENESIS_PREV_HASH⟩

/-- A validator that knows the key of the given id, with other running stakes. -/
def verifier_pos (id : Str) : ProofOfStake :=
  ⟨settings, none, ⟨none, none⟩, .single (lit "w") 7, none, .single id (lit "-----A"),
    DEFAULT_GENESIS_PREV_HASH⟩

def holding (pos : ProofOfStake) : BlockChain :=
  BlockChain.new (some (.pos pos)) DEFAULT_GENESIS_PREV_HASH

theorem proposesOn (id : Str) (stakes : StakeMap) : ProposesOn settings stakes
    DEFAULT_GENESIS_PREV_HASH [] (holding (producer_pos id stakes)) (producer_pos id stakes) :=
  ⟨rfl, rfl, rfl, rfl, rfl⟩

theorem validatesOn (id : Str) : ValidatesOn settings DEFAULT_GENESIS_PREV_HASH []
    (holding (verifier_pos id)) (verifier_pos id) :=
  ⟨rfl, rfl, rfl, rfl, rfl⟩

theorem signs : Signs manager (lit "-----A") := by
  have hbytes : utf8 (lit "-----A") = some ((utf8 (lit "-----A")).getD []) := by decide +kernel
  have hkey : import_public_key ((utf8 (lit "-----A")).getD []) = some (0 : Fin 26) := by rfl
  refine ⟨(0 : Fin 26), rfl, by decide +kernel, ?_⟩
  intro salt content
  refine ⟨_, _, _, hbytes, fromHex_toHex _, hkey, ?_, ?_⟩
  · exact List.length_map _
  · exact decide_eq_true rfl

/-- A local transaction of 2024. -/
def input : BlockChain.LocalInput := FutureBlock.input (FutureBlock.newYear 2024 validFields_2024)

theorem registered (id : Str) (stakes : StakeMap) : ∀ own,
    (producer_pos id stakes).node_validator_id = some own →
      (verifier_pos id).validator_public_keys.find own = some (lit "-----A") := by
  rintro own hown
  obtain rfl := Option.some.inj hown
  simp [verifier_pos, StrDict.find]

theorem proposes (id : Str) (stakes : StakeMap)
    (h : ((holding (producer_pos id stakes)).add_new_block input).1.isOk = true) :
    ∃ block after, (holding (producer_pos id stakes)).add_new_block input = (.ok block, after) := by
  rcases hadd : (holding (producer_pos id stakes)).add_new_block input with ⟨e | block, after⟩
  · rw [hadd] at h
    cases h
  · exact ⟨block, after, rfl⟩

/-- The validator `v` proposes the first block, and it is accepted. -/
theorem first_proposal_accepted : ∃ block after,
    (holding (producer_pos (lit "v") TwoBlocks.stakes)).add_new_block input = (.ok block, after) ∧
      ((holding (verifier_pos (lit "v"))).add_block block true (some TwoBlocks.stakes)).1
        = .ok true := by
  obtain ⟨block, after, hadd⟩ := proposes (lit "v") TwoBlocks.stakes (by decide +kernel)
  obtain ⟨hproposal, -, -⟩ := proposal_accepted (proposesOn (lit "v") TwoBlocks.stakes)
    (validatesOn (lit "v")) ⟨.ok, rfl, rfl⟩ signs (registered (lit "v") TwoBlocks.stakes)
  refine ⟨block, after, hadd, (hproposal input block after hadd).2.1.mpr ⟨by decide, ?_⟩⟩
  rintro tip ⟨⟩

/-- A validator whose id is the empty string proposes the first block, and no
node accepts it. -/
theorem nameless_proposal_refused :
    ProposesOn settings NamelessValidator.stakes DEFAULT_GENESIS_PREV_HASH []
        (holding (producer_pos [] NamelessValidator.stakes))
        (producer_pos [] NamelessValidator.stakes) ∧
      ValidatesOn settings DEFAULT_GENESIS_PREV_HASH [] (holding (verifier_pos []))
        (verifier_pos []) ∧
      Verifies ((holding (verifier_pos [])).verify_chain (some NamelessValidator.stakes)) ∧
      Signs manager (lit "-----A") ∧
      (verifier_pos []).validator_public_keys.find [] = some (lit "-----A") ∧
      ∃ block after,
        (holding (producer_pos [] NamelessValidator.stakes)).add_new_block input
          = (.ok block, after) ∧
        ((holding (verifier_pos [])).add_block block true (some NamelessValidator.stakes)).1
          ≠ .ok true := by
  refine ⟨proposesOn [] _, validatesOn [], ⟨.ok, rfl, rfl⟩, signs, rfl, ?_⟩
  obtain ⟨block, after, hadd⟩ := proposes [] NamelessValidator.stakes (by decide +kernel)
  refine ⟨block, after, hadd, ?_⟩
  have hrefused : ∀ r, (holding (producer_pos [] NamelessValidator.stakes)).add_new_block input = r →
      (match r.1 with
        | .ok block =>
          ((holding (verifier_pos [])).add_block block true (some NamelessValidator.stakes)).1
        | .error e => .error e) = .ok false := by
    rintro _ rfl
    decide +kernel
  have hfalse := hrefused _ hadd
  simp only at hfalse
  rw [hfalse]
  decide

end Proposals

end EasyBlockchain
