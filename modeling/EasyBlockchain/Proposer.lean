/-
Whether a started proof-of-stake node finds a proposer for the next block.

A constructor registers the node's own id with the minimal stake, but proposers
are elected with the genesis stakes and the rewards of the chain: a node always
holds genesis stakes, empty ones where none were given. So what is registered
never enters the election, and without genesis stakes nobody is elected.
-/
import EasyBlockchain.NodeStarted
import EasyBlockchain.Restart

set_option autoImplicit false

namespace EasyBlockchain

open Py Lib

/-! ## The election of a proposal -/

section Election

variable [Runtime] [Rsa]

/-- The first lines of `prepare_block`: the proposer of the next block. -/
def ProofOfStake.next_proposer (self : ProofOfStake) (chain : List Block) : PyM Str := do
  let validators ← self.proposal_stakes chain
  select_proposer ((chain.length + 1 : ℕ) : ℤ) validators

/-- A block is prepared for the elected proposer only. -/
theorem next_proposer_of_prepare_block {pos : ProofOfStake} {salt : List UInt8} {block : Dict}
    {chain : List Block} {prepared : Block}
    (h : pos.prepare_block salt block chain = .ok prepared) :
    ∃ id, pos.next_proposer chain = .ok id ∧ pos.node_validator_id = some id := by
  simp only [ProofOfStake.prepare_block, bind_eq_ok] at h
  obtain ⟨validators, hvalidators, proposer, hproposer, h⟩ := h
  refine ⟨proposer, bind_eq_ok.mpr ⟨validators, hvalidators, hproposer⟩, ?_⟩
  by_contra hother
  rw [if_pos hother] at h
  cases h

variable {genesis_stakes : StakeMap} {blockchain : BlockChain} {pos : ProofOfStake}

omit [Runtime] in
/-- The stakes of the election: those of genesis, with the rewards of the chain. -/
theorem MembersOnly.proposal_stakes (h : MembersOnly genesis_stakes blockchain pos) :
    pos.proposal_stakes blockchain.chain
      = .ok (rewarded pos.settings genesis_stakes blockchain.chain) := by
  rw [ProofOfStake.proposal_stakes, h.genesis, ← replay_eq_rewarded]
  exact ProofOfStake.compute_validators_eq_replay pos.settings genesis_stakes h.namesValidators

/-- A validator of the genesis stakes is elected exactly if there is one, and the
stakes and rewards do not add up to zero. -/
theorem MembersOnly.next_proposer_iff (h : MembersOnly genesis_stakes blockchain pos) :
    (∃ id, pos.next_proposer blockchain.chain = .ok id ∧ genesis_stakes.contains id = true) ↔
      genesis_stakes.isEmpty = false ∧
      genesis_stakes.total + pos.settings.block_reward * blockchain.chain.length ≠ 0 ∧
      (strOfInt ((blockchain.chain.length + 1 : ℕ) : ℤ)).isSome := by
  have hempty : (rewarded pos.settings genesis_stakes blockchain.chain).isEmpty
      = genesis_stakes.isEmpty := by
    rw [StrDict.isEmpty, StrDict.isEmpty, rewarded, List.isEmpty_map]
  have hnext : pos.next_proposer blockchain.chain
      = ProofOfStake.select_proposer ((blockchain.chain.length + 1 : ℕ) : ℤ)
        (rewarded pos.settings genesis_stakes blockchain.chain) := by
    rw [ProofOfStake.next_proposer, h.proposal_stakes, ok_bind]
  rw [hnext, ← total_rewarded h.named, ← hempty,
    and_comm (b := (strOfInt ((blockchain.chain.length + 1 : ℕ) : ℤ)).isSome = true),
    ← ProofOfStake.select_proposer_isOk]
  constructor
  · rintro ⟨id, hid, -⟩
    exact ⟨id, hid⟩
  · rintro ⟨id, hid⟩
    have hknown := ProofOfStake.contains_of_select_proposer hid
    rw [← replay_eq_rewarded, ProofOfStake.contains_replay] at hknown
    exact ⟨id, hid, hknown⟩

omit [Runtime] in
theorem PosChange.settings {after : BlockChain} {pos' : ProofOfStake}
    (h : PosChange genesis_stakes blockchain after pos pos') : pos'.settings = pos.settings := by
  cases h with
  | stay chain same => rw [same]
  | appended block named chain credited => rw [credited]
  | replaced named consensus synced => rw [synced]

end Election

/-! ## From the constructor on -/

namespace LiveNode

section Runs

variable [Runtime] [Rsa] [PrivateKeys]

omit [Runtime] [PrivateKeys] in
/-- A proof-of-stake node that elects proposers with its genesis stakes. -/
def Elects (args : NodeArgs) (live : LiveNode) : Prop :=
  ∃ pos, MembersOnly live.node.genesis_stakes live.node.blockchain pos ∧
    pos.settings = args.settings.consensus.pos

variable {args : NodeArgs} {generated : Generated} {persisted : Option PersistedState}
  {self : LiveNode}

omit [Runtime] in
/-- A node is constructed with genesis stakes, given or not. -/
theorem elects_of_construct (htype : args.settings.consensus.type = lit "pos")
    (h : construct args generated persisted = .ok self) : Elects args self := by
  obtain ⟨manager, identity, consensus, hmanager, -, hconsensus, rfl⟩ := construct_eq_ok.mp h
  simp only [resolve_signature_manager, if_pos htype, bind_eq_ok, pure_eq, Except.ok.injEq]
    at hmanager
  obtain ⟨key, -, rfl⟩ := hmanager
  rw [if_pos htype] at hconsensus
  have hne := resolve_node_id_ne args generated persisted
  obtain ⟨-, pos, rfl, hcreated, -⟩ := create_pos htype hne hconsensus
  refine ⟨pos, ⟨rfl, ?_, ?_, ?_⟩, hcreated.same_settings⟩
  · exact create_pos_genesis hconsensus
  · rw [hcreated.own_id, ne_eq, Option.some.injEq]
    exact hne
  · intro block hblock
    cases hblock

omit [PrivateKeys] in
theorem Elects.restore_chain (h : Elects args self) {saved : PersistedState} {live : LiveNode}
    (hrestore : self.restore_chain args saved = .ok live) :
    Elects args live ∧ live.node.genesis_stakes = self.node.genesis_stakes := by
  obtain ⟨pos, hmembers, hsettings⟩ := h
  unfold LiveNode.restore_chain at hrestore
  split at hrestore
  · cases hrestore
  split at hrestore
  · obtain rfl := Except.ok.inj hrestore
    exact ⟨⟨pos, hmembers, hsettings⟩, rfl⟩
  obtain ⟨pos', hchange⟩ := hmembers.replace_chain saved.chain
  rcases hreplace : self.node.blockchain.replace_chain saved.chain (some self.node.genesis_stakes)
    with ⟨e | _ | _, after⟩
  · rw [hreplace] at hrestore
    cases hrestore
  · rw [hreplace] at hrestore
    cases hrestore
  · rw [hreplace] at hrestore hchange
    simp only [bind_eq_ok] at hrestore
    obtain ⟨verification, -, hrestore⟩ := hrestore
    split at hrestore
    · cases hrestore
    · obtain rfl := Except.ok.inj hrestore
      exact ⟨⟨pos', hmembers.change hchange, hchange.settings.trans hsettings⟩, rfl⟩

theorem elects_of_init [Stringify] {files files' : Files}
    (htype : args.settings.consensus.type = lit "pos")
    (h : init args generated files = (.ok self, files')) : Elects args self := by
  unfold init at h
  rcases hload : load args.settings.persistence files with e | saved
  · rw [hload] at h
    cases h
  rcases hconstruct : construct args generated saved with e | live
  · simp only [hload, hconstruct] at h
    cases h
  have helects := elects_of_construct htype hconstruct
  simp only [hload, hconstruct] at h
  cases saved with
  | some saved => exact (helects.restore_chain (Prod.mk.inj h).1).1
  | none =>
      simp only [Prod.mk.injEq] at h
      obtain ⟨hsaved, -⟩ := h
      rcases hpersist : (live.persist_state args files).1 with e | _
      · rw [hpersist] at hsaved
        cases hsaved
      · rw [hpersist] at hsaved
        obtain rfl := Except.ok.inj hsaved
        exact helects

omit [PrivateKeys] in
/-- One step leaves the genesis stakes, and the election to them. -/
theorem Elects.step (h : Elects args self) (event : Event) :
    Elects args (self.step event) ∧
      (self.step event).node.genesis_stakes = self.node.genesis_stakes := by
  obtain ⟨pos, hmembers, hsettings⟩ := h
  cases event with
  | chain op =>
      obtain ⟨hstakes, pos', hchange⟩ := self.node.pos_change hmembers op
      refine ⟨⟨pos', ?_, hchange.settings.trans hsettings⟩, hstakes⟩
      rw [LiveNode.step, hstakes]
      exact hmembers.change hchange
  | register_validator id stake pem =>
      simp only [LiveNode.step, hmembers.consensus]
      rcases hregister : pos.register_validator id stake pem with e | pos'
      · exact ⟨⟨pos, hmembers, hsettings⟩, rfl⟩
      · obtain ⟨hsame, hid, hgenesis, -⟩ := register_validator_eq_ok hregister
        refine ⟨⟨pos', ⟨rfl, hgenesis.trans hmembers.genesis, ?_, hmembers.named⟩,
          hsame.trans hsettings⟩, rfl⟩
        rw [hid]
        exact hmembers.own_id

omit [PrivateKeys] in
/-- Every run. -/
theorem Elects.run (h : Elects args self) (events : List Event) :
    Elects args (run LiveNode.step self events) ∧
      (run LiveNode.step self events).node.genesis_stakes = self.node.genesis_stakes := by
  induction events generalizing self with
  | nil => exact ⟨h, rfl⟩
  | cons event events ih =>
      obtain ⟨hstep, hstakes⟩ := h.step event
      obtain ⟨hrun, hrest⟩ := ih hstep
      exact ⟨hrun, hrest.trans hstakes⟩

/-- In every state that a constructed proof-of-stake node reaches, the election
in `prepare_block` returns a validator of the genesis stakes exactly if there are
genesis stakes, and these and the rewards of the chain do not add up to zero
(and the height can be written). -/
theorem next_proposer_elected [Stringify] {files files' : Files}
    (htype : args.settings.consensus.type = lit "pos")
    (hinit : init args generated files = (.ok self, files')) (events : List Event) :
    ∃ pos, (run step self events).node.blockchain.consensus = some (.pos pos) ∧
      ((∃ id, pos.next_proposer (run step self events).node.blockchain.chain = .ok id ∧
          self.node.genesis_stakes.contains id = true) ↔
        self.node.genesis_stakes.isEmpty = false ∧
        self.node.genesis_stakes.total + args.settings.consensus.pos.block_reward *
          (run step self events).node.blockchain.chain.length ≠ 0 ∧
        (strOfInt (((run step self events).node.blockchain.chain.length + 1 : ℕ) : ℤ)).isSome) := by
  obtain ⟨⟨pos, hmembers, hsettings⟩, hstakes⟩ := (elects_of_init htype hinit).run events
  rw [hstakes] at hmembers
  refine ⟨pos, hmembers.consensus, ?_⟩
  rw [hmembers.next_proposer_iff, hsettings]

end Runs

end LiveNode

/-! ## With genesis stakes, and without -/

namespace Stakeless

open LiveNode Restarted

attribute [local instance] cpython letterRsa letterKeys

local instance : Stringify := ⟨fun _ => []⟩

/-- The theorem on a node with genesis stakes that received a block. -/
theorem next_proposer_of_started :
    ∃ pos, (run step pos_node pos_events).node.blockchain.consensus = some (.pos pos) ∧
      ((∃ id, pos.next_proposer (run step pos_node pos_events).node.blockchain.chain = .ok id ∧
          pos_node.node.genesis_stakes.contains id = true) ↔
        pos_node.node.genesis_stakes.isEmpty = false ∧
        pos_node.node.genesis_stakes.total +
          (Restarted.args "pos").settings.consensus.pos.block_reward *
            (run step pos_node pos_events).node.blockchain.chain.length ≠ 0 ∧
        (strOfInt
          (((run step pos_node pos_events).node.blockchain.chain.length + 1 : ℕ) : ℤ)).isSome) :=
  next_proposer_elected rfl init_pos pos_events

/-- A proof-of-stake node called `w`, with the given genesis stakes and minimum. -/
def args (stakes : Option StakeMap) (min_stake : ℤ) : NodeArgs where
  settings :=
    ⟨{ OwnStakes.settings with pos := ⟨10, min_stake, 10⟩ }, Rewritten.network,
      StoppedSave.settings, lit "w", false⟩
  genesis_stakes := stakes
  validator_private_key_pem := none
  p2p_identity_key_pem := none

/-- What its constructor makes: the node itself is registered, and no one else. -/
def node (stakes : Option StakeMap) (min_stake : ℤ) : LiveNode :=
  ⟨⟨lit "w", Rewritten.network, stakes.getD .empty,
    { BlockChain.new (some (.pos ⟨⟨10, min_stake, 10⟩, some (lit "w"), .of_key (22 : Fin 26),
        .single (lit "w") min_stake, some (stakes.getD .empty),
        .single (lit "w") (lit "-----W"), DEFAULT_GENESIS_PREV_HASH⟩))
        DEFAULT_GENESIS_PREV_HASH with
      enable_signature := true, signature_manager := some ⟨none, none⟩ }⟩,
    .of_key (22 : Fin 26), .of_key (23 : Fin 26)⟩

/-- The proposer a node elects for its next block. -/
def next_proposer (live : LiveNode) : Option (PyM Str) :=
  match live.node.blockchain.consensus with
  | some (.pos pos) => some (pos.next_proposer live.node.blockchain.chain)
  | _ => none

/-- Without genesis stakes there is no validator to elect, although the node has
registered itself; with stakes of zero the election divides by zero. -/
theorem nobody_elected :
    init (args none 100) generated (fun _ => none)
      = (.ok (node none 100), ((node none 100).persist_state (args none 100) fun _ => none).2) ∧
    next_proposer (node none 100) = some (.error .valueError) ∧
    init (args (some ⟨[(lit "w", 0)], by simp⟩) 0) generated (fun _ => none)
      = (.ok (node (some ⟨[(lit "w", 0)], by simp⟩) 0),
        ((node (some ⟨[(lit "w", 0)], by simp⟩) 0).persist_state
          (args (some ⟨[(lit "w", 0)], by simp⟩) 0) fun _ => none).2) ∧
    next_proposer (node (some ⟨[(lit "w", 0)], by simp⟩) 0) = some (.error .zeroDivisionError) :=
  ⟨init_of_empty rfl rfl (by decide +kernel), by decide +kernel,
    init_of_empty rfl rfl (by decide +kernel), by decide +kernel⟩

end Stakeless

end EasyBlockchain
