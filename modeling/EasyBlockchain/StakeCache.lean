/-
The stakes of a proof-of-stake node over a run of local blocks, received blocks,
replaced chains and resolved forks.

The running stakes are updated by one reward for each appended block and
recomputed when the chain is replaced. Every block that gets into the chain
names a validator of the genesis stakes: a received one because the validator
looks it up, a local one because the node proposes under its own id. So both
ways lead to the genesis stakes with one reward for each block of the chain.
-/
import EasyBlockchain.ForkResolution
import EasyBlockchain.PosProducer

set_option autoImplicit false

namespace EasyBlockchain

open Py Lib

section StakeCache

variable [Runtime] [Rsa]

/-! ## The proposed block -/

/-- A local block of a proof-of-stake chain names the node itself, and carries
its public key. -/
theorem local_block_signed {self : BlockChain} {pos : ProofOfStake}
    (hpos : self.consensus = some (.pos pos)) {input : BlockChain.LocalInput} {block : Block}
    (h : (self.draft_block input >>= self.complete_block input) = .ok block) :
    ∃ id key, pos.node_validator_id = some id ∧
      export_public_key pos.signature_manager = .ok key ∧
      HeaderIs block (lit "validator_id") (.str id) ∧
      block.item (lit "public_key") = .ok (.str key) := by
  obtain ⟨_, _, f, hof, -, -, hown, -, -, -, -, -, hexport, -⟩ := proposed_block_fields hpos h
  exact ⟨f.validator_id, f.public_key, hown, hexport, hof.validator_id, hof.public_key⟩

/-! ## Rewards that reach a validator -/

omit [Runtime] [Rsa] in
/-- The block names a validator of the stakes. -/
def NamesMember (genesis_stakes : StakeMap) (block : Block) : Prop :=
  ∃ id, ProofOfStake.block_validator_id block = .ok (.str id) ∧ id ≠ [] ∧
    genesis_stakes.contains id = true

omit [Runtime] [Rsa] in
theorem proposedBy_of_namesMember {genesis_stakes : StakeMap} {block : Block}
    (h : NamesMember genesis_stakes block) :
    ∃ id, ProofOfStake.proposedBy block = some id ∧ genesis_stakes.contains id = true := by
  obtain ⟨id, hid, hne, hcontains⟩ := h
  refine ⟨id, ?_, hcontains⟩
  rw [ProofOfStake.proposedBy, hid]
  simp [hne]

omit [Runtime] [Rsa] in
/-- Each block adds one reward to the sum of the stakes. -/
theorem total_rewarded {settings : PosSettings} {genesis_stakes : StakeMap} {chain : List Block}
    (h : ∀ block ∈ chain, NamesMember genesis_stakes block) :
    (rewarded settings genesis_stakes chain).total
      = genesis_stakes.total + settings.block_reward * chain.length := by
  rw [← replay_eq_rewarded]
  induction chain using List.reverseRecOn with
  | nil => simp [ProofOfStake.replay]
  | append_singleton chain block ih =>
      obtain ⟨id, hid, hcontains⟩ := proposedBy_of_namesMember (h block (by simp))
      have hpresent : (ProofOfStake.replay settings genesis_stakes chain).contains id = true := by
        rw [ProofOfStake.contains_replay, hcontains]
      rw [ProofOfStake.replay_snoc, ProofOfStake.credit, hid]
      simp only
      rw [StrDict.total_modify hpresent, ih fun b hb => h b (List.mem_append_left _ hb),
        List.length_append, List.length_singleton]
      push_cast
      ring

/-- An accepted block names a validator of the genesis stakes. -/
theorem namesMember_of_step {pos : ProofOfStake} {g : Str} {genesis_stakes : StakeMap}
    {seen : List Block} {block : Block} (h : PosStep pos g genesis_stakes seen block) :
    NamesMember genesis_stakes block := by
  obtain ⟨-, f, hof, hvalid⟩ := h
  refine ⟨f.validator_id, hof.block_validator_id, hvalid.named, ?_⟩
  have hknown := hvalid.known
  rw [← replay_eq_rewarded, ProofOfStake.contains_replay] at hknown
  exact hknown

/-- The blocks of a valid chain name validators of the genesis stakes. -/
theorem namesMember_of_grows {pos : ProofOfStake} {g : Str} {genesis_stakes : StakeMap}
    {chain : List Block} (h : Grows (PosStep pos g genesis_stakes) chain) :
    ∀ block ∈ chain, NamesMember genesis_stakes block := by
  intro block hblock
  obtain ⟨i, hi, rfl⟩ := List.mem_iff_getElem.mp hblock
  exact namesMember_of_step (h.getElem hi)

/-! ## The registered stakes -/

omit [Runtime] in
/-- What `register_validator` leaves alone, and what it adds. -/
theorem register_validator_eq_ok {p q : ProofOfStake} {id : Str} {stake : ℤ}
    {public_key_pem : Option Str} (h : p.register_validator id stake public_key_pem = .ok q) :
    q.settings = p.settings ∧ q.node_validator_id = p.node_validator_id ∧
      q.genesis_stakes = p.genesis_stakes ∧ q.validators = p.validators.set id stake := by
  have hown : ∀ {p q : ProofOfStake},
      ProofOfStake.register_validator.register_own p id = .ok q →
      q.settings = p.settings ∧ q.node_validator_id = p.node_validator_id ∧
        q.genesis_stakes = p.genesis_stakes ∧ q.validators = p.validators := by
    intro p q h
    simp only [ProofOfStake.register_validator.register_own] at h
    split at h
    · split at h
      · obtain rfl := Except.ok.inj h
        exact ⟨rfl, rfl, rfl, rfl⟩
      · obtain rfl := Except.ok.inj h
        exact ⟨rfl, rfl, rfl, rfl⟩
    · obtain rfl := Except.ok.inj h
      exact ⟨rfl, rfl, rfl, rfl⟩
  unfold ProofOfStake.register_validator at h
  split at h
  · cases h
  cases public_key_pem with
  | none => exact hown h
  | some pem =>
      simp only at h
      split at h
      · exact hown h
      · obtain rfl := Except.ok.inj h
        exact ⟨rfl, rfl, rfl, rfl⟩

omit [Runtime] in
/-- Registering different validators one after the other adds them in order. -/
theorem register_all_eq_ok {p q : ProofOfStake} {entries : List (Str × ℤ)}
    (h : entries.foldlM (fun (p : ProofOfStake) entry =>
      p.register_validator entry.1 entry.2 none) p = .ok q)
    (hnodup : ((p.validators.entries ++ entries).map Prod.fst).Nodup) :
    q.settings = p.settings ∧ q.node_validator_id = p.node_validator_id ∧
      q.genesis_stakes = p.genesis_stakes ∧
      q.validators.entries = p.validators.entries ++ entries := by
  induction entries generalizing p with
  | nil =>
      obtain rfl := Except.ok.inj h
      exact ⟨rfl, rfl, rfl, (List.append_nil _).symm⟩
  | cons entry rest ih =>
      rw [List.foldlM_cons] at h
      obtain ⟨p', hp', h⟩ := bind_eq_ok.mp h
      obtain ⟨hsettings, hid, hgenesis, hvalidators⟩ := register_validator_eq_ok hp'
      have hnew : entry.1 ∉ p.validators.entries.map Prod.fst := by
        rw [List.map_append, List.map_cons, List.nodup_append] at hnodup
        intro hmem
        exact hnodup.2.2 _ hmem _ List.mem_cons_self rfl
      have hentries : p'.validators.entries = p.validators.entries ++ [entry] := by
        rw [hvalidators, StrDict.set]
        exact StrDict.setEntries_of_not_mem hnew
      rw [List.append_cons, ← hentries] at hnodup
      obtain ⟨hsettings', hid', hgenesis', hentries'⟩ := ih h hnodup
      rw [hentries, ← List.append_cons] at hentries'
      exact ⟨hsettings'.trans hsettings, hid'.trans hid, hgenesis'.trans hgenesis, hentries'⟩

omit [Runtime] in
/-- A protocol created with genesis stakes that contain its own id starts with these. -/
theorem create_consensus_stakes {settings : ConsensusSettings} {id : Str}
    {manager : SignatureManager} {genesis_stakes : StakeMap} {pos : ProofOfStake}
    (hown : genesis_stakes.contains id = true)
    (h : Consensus.create_consensus settings (some id) manager (some genesis_stakes)
      = .ok (.pos pos)) :
    pos.settings = settings.pos ∧ pos.node_validator_id = some id ∧
      pos.genesis_stakes = some genesis_stakes ∧ pos.validators = genesis_stakes := by
  unfold Consensus.create_consensus at h
  split at h
  · cases h
  split at h
  swap
  · cases h
  obtain ⟨registered, hregistered, h⟩ := bind_eq_ok.mp h
  obtain rfl := Consensus.pos.inj (Except.ok.inj h)
  have hstakes : Consensus.registered_stakes settings (some id) (some genesis_stakes)
      = genesis_stakes := by
    simp [Consensus.registered_stakes, hown]
  rw [hstakes] at hregistered
  obtain ⟨hsettings, hid, hgenesis, hentries⟩ :=
    register_all_eq_ok hregistered genesis_stakes.nodup
  refine ⟨hsettings, hid, hgenesis, ?_⟩
  rcases hv : registered.validators with ⟨entries, hnodup⟩
  rw [hv] at hentries
  subst hentries
  rfl

/-! ## The invariant -/

/-- The running stakes of a chain are the genesis stakes with its rewards. -/
structure StakesKept (settings : PosSettings) (id : Str) (genesis_stakes : StakeMap)
    (blockchain : BlockChain) (pos : ProofOfStake) : Prop where
  consensus : blockchain.consensus = some (.pos pos)
  same_settings : pos.settings = settings
  own_id : pos.node_validator_id = some id
  genesis : pos.genesis_stakes = some genesis_stakes
  validators : pos.validators = rewarded settings genesis_stakes blockchain.chain
  named : ∀ block ∈ blockchain.chain, NamesMember genesis_stakes block

variable {settings : PosSettings} {id : Str} {genesis_stakes : StakeMap} {self : BlockChain}
  {pos : ProofOfStake}

omit [Runtime] in
theorem StakesKept.namesValidators (h : StakesKept settings id genesis_stakes self pos) :
    NamesValidators self.chain := by
  intro block hblock
  obtain ⟨id, hid, -⟩ := h.named block hblock
  exact ⟨id, hid⟩

/-! ## One change of the chain -/

omit [Runtime] in
/-- A proof-of-stake chain whose blocks name validators of the genesis stakes,
which are the ones its node elects proposers with. -/
structure MembersOnly (genesis_stakes : StakeMap) (blockchain : BlockChain) (pos : ProofOfStake) :
    Prop where
  consensus : blockchain.consensus = some (.pos pos)
  genesis : pos.genesis_stakes = some genesis_stakes
  own_id : pos.node_validator_id ≠ some []
  named : ∀ block ∈ blockchain.chain, NamesMember genesis_stakes block

omit [Runtime] in
/-- What one change does to such a chain: nothing, one more block of a validator,
or another chain of validators' blocks, with the stakes recomputed along it. -/
inductive PosChange (genesis_stakes : StakeMap) (before after : BlockChain)
    (pos pos' : ProofOfStake) : Prop
  | stay (chain : after = before) (same : pos' = pos)
  | appended (block : Block) (named : NamesMember genesis_stakes block)
      (chain : after = { before with
        chain := before.chain ++ [block]
        consensus := some (.pos pos') })
      (credited : pos' = { pos with
        validators := ProofOfStake.credit pos.settings pos.validators block })
  | replaced (named : ∀ block ∈ after.chain, NamesMember genesis_stakes block)
      (consensus : after.consensus = some (.pos pos'))
      (synced : pos' = { pos with
        genesis_stakes := some genesis_stakes
        validators := rewarded pos.settings genesis_stakes after.chain })

omit [Runtime] in
theorem MembersOnly.namesValidators (h : MembersOnly genesis_stakes self pos) :
    NamesValidators self.chain := by
  intro block hblock
  obtain ⟨id, hid, -⟩ := h.named block hblock
  exact ⟨id, hid⟩

omit [Runtime] in
theorem MembersOnly.append (h : MembersOnly genesis_stakes self pos) {block : Block}
    (hblock : NamesMember genesis_stakes block) :
    ∃ after pos', self.append block = (.ok (), after) ∧
      PosChange genesis_stakes self after pos pos' := by
  have hmember := hblock
  obtain ⟨validator, hvalidator, -⟩ := hmember
  exact ⟨_, _, pos_append h.consensus hvalidator, .appended block hblock rfl rfl⟩

/-- A local block names the node, which was elected among the validators. -/
theorem MembersOnly.add_new_block (h : MembersOnly genesis_stakes self pos)
    (input : BlockChain.LocalInput) :
    ∃ pos', PosChange genesis_stakes self (self.add_new_block input).2 pos pos' := by
  unfold BlockChain.add_new_block
  rcases hblock : self.draft_block input >>= self.complete_block input with e | block
  · exact ⟨pos, .stay rfl rfl⟩
  · obtain ⟨validators, _, f, hof, hvalidators, hproposer, hown, -⟩ :=
      proposed_block_fields h.consensus hblock
    rw [ProofOfStake.proposal_stakes, h.genesis] at hvalidators
    simp only at hvalidators
    rw [ProofOfStake.compute_validators_eq_replay pos.settings genesis_stakes h.namesValidators,
      Except.ok.injEq] at hvalidators
    have hknown := ProofOfStake.contains_of_select_proposer hproposer
    rw [← hvalidators, ProofOfStake.contains_replay] at hknown
    have hne : f.validator_id ≠ [] := by
      intro hnil
      rw [hnil] at hown
      exact h.own_id hown
    obtain ⟨after, pos', happend, hchange⟩ := h.append ⟨_, hof.block_validator_id, hne, hknown⟩
    simp only [happend]
    exact ⟨pos', hchange⟩

/-- A received block names a validator, which was looked up. -/
theorem MembersOnly.add_block (h : MembersOnly genesis_stakes self pos) (block : Block) :
    ∃ pos', PosChange genesis_stakes self (self.add_block block true (some genesis_stakes)).2 pos
      pos' := by
  unfold BlockChain.add_block
  rw [if_pos rfl]
  rcases hchecks : self.received_checks block (some genesis_stakes) with e | _ | _
  · exact ⟨pos, .stay rfl rfl⟩
  · exact ⟨pos, .stay rfl rfl⟩
  · have hstep := (pos_received_checks h.consensus genesis_stakes h.namesValidators block).mp hchecks
    obtain ⟨after, pos', happend, hchange⟩ := h.append (namesMember_of_step hstep)
    simp only [happend]
    exact ⟨pos', hchange⟩

/-- A replaced chain is verified, and the stakes are recomputed along it. -/
theorem MembersOnly.replace_chain (h : MembersOnly genesis_stakes self pos)
    (new_chain : List Block) :
    ∃ pos', PosChange genesis_stakes self (self.replace_chain new_chain (some genesis_stakes)).2 pos
      pos' := by
  unfold BlockChain.replace_chain
  rw [h.consensus]
  rcases hverify : verify_chain_integrity new_chain (some (.pos pos)) self.genesis_prev_hash
    (some genesis_stakes) with e | verification
  · exact ⟨pos, .stay rfl rfl⟩
  by_cases hvalid : verification.valid = true
  swap
  · simp only [hvalid, Bool.not_false, if_true]
    exact ⟨pos, .stay rfl rfl⟩
  have hgrows := grows_of_verifies ⟨verification, hverify, hvalid⟩
  have hcompute := ProofOfStake.compute_validators_eq_replay pos.settings genesis_stakes
    (Consensus.namesValidators_of_grows hgrows)
  rw [replay_eq_rewarded] at hcompute
  simp only [hvalid, Bool.not_true, Bool.false_eq_true, if_false,
    ProofOfStake.sync_validators_from_chain, hcompute, ok_bind, pure_eq]
  exact ⟨_, .replaced (namesMember_of_grows hgrows) rfl rfl⟩

omit [Runtime] in
/-- A change leaves only validators' blocks in the chain. -/
theorem MembersOnly.change (h : MembersOnly genesis_stakes self pos) {after : BlockChain}
    {pos' : ProofOfStake} (hchange : PosChange genesis_stakes self after pos pos') :
    MembersOnly genesis_stakes after pos' := by
  cases hchange with
  | stay hsame hpos =>
      rw [hsame, hpos]
      exact h
  | appended block hblock hchain hcredited =>
      subst hchain hcredited
      refine ⟨rfl, h.genesis, h.own_id, ?_⟩
      intro b hb
      rcases List.mem_append.mp hb with hb | hb
      · exact h.named b hb
      · rw [List.mem_singleton.mp hb]
        exact hblock
  | replaced hnamed hconsensus hsynced =>
      refine ⟨hconsensus, ?_, ?_, hnamed⟩
      · rw [hsynced]
      · rw [hsynced]
        exact h.own_id

omit [Runtime] in
theorem StakesKept.membersOnly (h : StakesKept settings id genesis_stakes self pos)
    (hid : id ≠ []) : MembersOnly genesis_stakes self pos := by
  refine ⟨h.consensus, h.genesis, ?_, h.named⟩
  rw [h.own_id, ne_eq, Option.some.injEq]
  exact hid

omit [Runtime] in
/-- A change keeps the running stakes those of the chain. -/
theorem StakesKept.change (h : StakesKept settings id genesis_stakes self pos) (hid : id ≠ [])
    {after : BlockChain} {pos' : ProofOfStake}
    (hchange : PosChange genesis_stakes self after pos pos') :
    StakesKept settings id genesis_stakes after pos' := by
  obtain ⟨hconsensus, hgenesis, -, hnamed⟩ := (h.membersOnly hid).change hchange
  cases hchange with
  | stay hsame hpos =>
      rw [hsame, hpos]
      exact h
  | appended block hblock hchain hcredited =>
      subst hchain hcredited
      refine ⟨rfl, h.same_settings, h.own_id, hgenesis, ?_, hnamed⟩
      simp only [h.same_settings, h.validators]
      rw [← replay_eq_rewarded, ← replay_eq_rewarded, ProofOfStake.replay_snoc]
  | replaced hmembers hchain hsynced =>
      refine ⟨hconsensus, ?_, ?_, hgenesis, ?_, hnamed⟩
      · rw [hsynced]
        exact h.same_settings
      · rw [hsynced]
        exact h.own_id
      · rw [hsynced, h.same_settings]

/-! ## Runs -/

/-- What changes the chain of a node; the last is the node's fork resolution. -/
inductive StakeOp
  | add_new_block (input : BlockChain.LocalInput)
  | add_block (block : Block)
  | replace_chain (new_chain : List Block)
  | resolve_fork (remote_chain : List Block)

/-- The node after an operation, whether it returns or raises; received blocks
and chains are judged from the genesis stakes of the node. -/
def Node.stake_step (self : Node) : StakeOp → Node
  | .add_new_block input => { self with blockchain := (self.blockchain.add_new_block input).2 }
  | .add_block block =>
    { self with blockchain := (self.blockchain.add_block block true (some self.genesis_stakes)).2 }
  | .replace_chain new_chain =>
    { self with
      blockchain := (self.blockchain.replace_chain new_chain (some self.genesis_stakes)).2 }
  | .resolve_fork remote_chain => (self.resolve_fork remote_chain).2

/-- A fork resolution leaves the chain or replaces it. -/
theorem resolve_fork_replaces (node : Node) (remote_chain : List Block) :
    (node.resolve_fork remote_chain).2 = node ∨
      ∃ canonical, (node.resolve_fork remote_chain).2 = { node with
        blockchain := (node.blockchain.replace_chain canonical (some node.genesis_stakes)).2 } := by
  unfold Node.resolve_fork
  split
  · exact Or.inl rfl
  rcases node.canonical_chain remote_chain with e | canonical
  · exact Or.inl rfl
  simp only
  split
  · right
    refine ⟨canonical, ?_⟩
    rcases node.blockchain.replace_chain canonical (some node.genesis_stakes) with ⟨e | _, _⟩
    · rfl
    · rfl
  · exact Or.inl rfl

/-- A node whose running stakes are kept. -/
def Node.StakesKept (settings : PosSettings) (id : Str) (genesis_stakes : StakeMap) (node : Node) :
    Prop :=
  node.genesis_stakes = genesis_stakes ∧
    ∃ pos, EasyBlockchain.StakesKept settings id genesis_stakes node.blockchain pos

/-- The running stakes match the chain: they are the recomputed ones, of the
validators of genesis, and add up to the genesis stakes and one reward for each
block. -/
def Node.StakesMatch (settings : PosSettings) (genesis_stakes : StakeMap) (node : Node) : Prop :=
  ∃ pos, node.blockchain.consensus = some (.pos pos) ∧ pos.settings = settings ∧
    ProofOfStake.compute_validators_from_chain node.blockchain.chain genesis_stakes settings
      = .ok pos.validators ∧
    pos.genesis_stakes = some genesis_stakes ∧ pos.validators.keys = genesis_stakes.keys ∧
    pos.validators.total
      = genesis_stakes.total + settings.block_reward * node.blockchain.chain.length

omit [Runtime] in
theorem Node.StakesKept.matches {node : Node} (h : node.StakesKept settings id genesis_stakes) :
    node.StakesMatch settings genesis_stakes := by
  obtain ⟨-, pos, hkept⟩ := h
  have hcompute := ProofOfStake.compute_validators_eq_replay settings genesis_stakes
    hkept.namesValidators
  rw [replay_eq_rewarded, ← hkept.validators] at hcompute
  refine ⟨pos, hkept.consensus, hkept.same_settings, hcompute, hkept.genesis, ?_, ?_⟩
  · rw [hkept.validators, StrDict.keys, StrDict.keys, rewarded, List.map_map]
    rfl
  · rw [hkept.validators]
    exact total_rewarded hkept.named

/-- A change of a node is a change of its chain. -/
theorem Node.pos_change {node : Node} {pos : ProofOfStake}
    (h : MembersOnly node.genesis_stakes node.blockchain pos) (op : StakeOp) :
    (node.stake_step op).genesis_stakes = node.genesis_stakes ∧
      ∃ pos', PosChange node.genesis_stakes node.blockchain (node.stake_step op).blockchain pos
        pos' := by
  cases op with
  | add_new_block input => exact ⟨rfl, h.add_new_block input⟩
  | add_block block => exact ⟨rfl, h.add_block block⟩
  | replace_chain new_chain => exact ⟨rfl, h.replace_chain new_chain⟩
  | resolve_fork remote_chain =>
      rw [Node.stake_step]
      rcases resolve_fork_replaces node remote_chain with hstay | ⟨canonical, hreplace⟩
      · rw [hstay]
        exact ⟨rfl, pos, .stay rfl rfl⟩
      · rw [hreplace]
        exact ⟨rfl, h.replace_chain canonical⟩

/-- One step. -/
theorem Node.StakesKept.step {node : Node} (h : node.StakesKept settings id genesis_stakes)
    (hid : id ≠ []) (op : StakeOp) :
    (node.stake_step op).StakesKept settings id genesis_stakes := by
  obtain ⟨rfl, pos, hpos⟩ := h
  obtain ⟨hstakes, pos', hchange⟩ := node.pos_change (hpos.membersOnly hid) op
  exact ⟨hstakes, pos', hpos.change hid hchange⟩

/-- Every run. -/
theorem Node.StakesKept.run {node : Node} (h : node.StakesKept settings id genesis_stakes)
    (hid : id ≠ []) (ops : List StakeOp) :
    (run Node.stake_step node ops).StakesKept settings id genesis_stakes := by
  induction ops generalizing node with
  | nil => exact h
  | cons op ops ih => exact ih (h.step hid op)

/-- The stakes of a proof-of-stake protocol, created with genesis stakes that
contain its own id, always match the chain, after any operations, whether they
succeed, return `False` or raise. -/
theorem stake_cache_matches {settings : ConsensusSettings} {id : Str} {manager : SignatureManager}
    {genesis_stakes : StakeMap} {pos : ProofOfStake} (hid : id ≠ [])
    (hown : genesis_stakes.contains id = true)
    (hcreate : Consensus.create_consensus settings (some id) manager (some genesis_stakes)
      = .ok (.pos pos)) (node_id : Str) (network : NetworkSettings) (genesis_prev_hash : Str)
    (ops : List StakeOp) :
    (run Node.stake_step
      ⟨node_id, network, genesis_stakes, BlockChain.new (some (.pos pos)) genesis_prev_hash⟩
      ops).StakesMatch settings.pos genesis_stakes := by
  obtain ⟨hsettings, hnode_id, hgenesis, hvalidators⟩ := create_consensus_stakes hown hcreate
  have hstart : Node.StakesKept settings.pos id genesis_stakes
      ⟨node_id, network, genesis_stakes, BlockChain.new (some (.pos pos)) genesis_prev_hash⟩ := by
    refine ⟨rfl, pos, rfl, hsettings, hnode_id, hgenesis, ?_, fun block hb => by cases hb⟩
    rw [hvalidators, ← replay_eq_rewarded]
    rfl
  exact (hstart.run hid ops).matches

end StakeCache

/-! ## A node with a name, and one without -/

namespace OwnStakes

attribute [local instance] cpython letterRsa

def settings : ConsensusSettings :=
  ⟨lit "pos", ⟨1, 10, .fin 2, 1000, 10⟩, ⟨10, 100, 10⟩, DEFAULT_GENESIS_PREV_HASH⟩

/-- The key `A`. -/
def manager : SignatureManager := ⟨some (0 : Fin 26), some (0 : Fin 26)⟩

/-- What `create_consensus` builds from the given stakes. -/
def created (id : Str) (stakes : StakeMap) : ProofOfStake :=
  ⟨settings.pos, some id, manager, stakes, some stakes, .single id (lit "-----A"),
    DEFAULT_GENESIS_PREV_HASH⟩

def node (id : Str) (stakes : StakeMap) : Node :=
  ⟨lit "local", Rewritten.network, stakes,
    BlockChain.new (some (.pos (created id stakes))) DEFAULT_GENESIS_PREV_HASH⟩

def input : BlockChain.LocalInput := FutureBlock.input (FutureBlock.newYear 2024 validFields_2024)

/-- The theorem on a run with a local block, a refused one and a fork. -/
theorem stake_cache_of_run :
    (run Node.stake_step (node (lit "v") TwoBlocks.stakes) [.add_new_block input,
      .add_block (.dict []), .resolve_fork [TwoBlocks.blockA]]).StakesMatch settings.pos
      TwoBlocks.stakes :=
  stake_cache_matches (by decide) (by decide)
    (show Consensus.create_consensus settings (some (lit "v")) manager (some TwoBlocks.stakes)
      = .ok (.pos (created (lit "v") TwoBlocks.stakes)) from rfl)
    (lit "local") Rewritten.network DEFAULT_GENESIS_PREV_HASH _

/-- The number of blocks of a node, and the sum of its running stakes. -/
def totals (node : Node) : Option (ℕ × ℤ) :=
  match node.blockchain.consensus with
  | some (.pos pos) => some (node.blockchain.chain.length, pos.validators.total)
  | _ => none

/-- A validator whose id is the empty string proposes a block and gets no reward
for it: one block, and the sum of the genesis stakes. -/
theorem nameless_without_reward :
    NamelessValidator.stakes.contains [] = true ∧
    Consensus.create_consensus settings (some []) manager (some NamelessValidator.stakes)
      = .ok (.pos (created [] NamelessValidator.stakes)) ∧
    ¬ (run Node.stake_step (node [] NamelessValidator.stakes)
      [.add_new_block input]).StakesMatch settings.pos NamelessValidator.stakes := by
  have htotals : totals (run Node.stake_step (node [] NamelessValidator.stakes)
      [.add_new_block input]) = some (1, 100) := by decide +kernel
  refine ⟨by decide, rfl, ?_⟩
  generalize run Node.stake_step (node [] NamelessValidator.stakes) [.add_new_block input] = after
    at htotals ⊢
  rintro ⟨pos, hpos, -, -, -, -, htotal⟩
  rw [totals, hpos] at htotals
  obtain ⟨hlength, hsum⟩ := Prod.mk.inj (Option.some.inj htotals)
  rw [hsum, hlength] at htotal
  exact absurd htotal (by decide)

end OwnStakes

end EasyBlockchain
