/-
`blockchain.py` with its dictionaries of stakes as the shared objects they are.

`self.validators` is written in place by the reward of an appended block. Every
recomputation writes too, but into a copy of its own. So of the dictionaries that exist
before an operation, one that a caller passes in among them, at most the one that is
`self.validators` is another afterwards, and only after a success.

The functions that only read a dictionary are those of the model over values.
-/
import EasyBlockchain.AllOrNothing
import EasyBlockchain.Lib.Objects

set_option autoImplicit false

namespace EasyBlockchain

open Py Lib Lib.Objects

instance : Inhabited StakeMap := ⟨.empty⟩

/-- The identity of a dictionary of stakes. -/
abbrev Ref : Type := ℕ

/-- A computation on the dictionaries of stakes. -/
abbrev OnStakes (α : Type) : Type := Action PyErr (List StakeMap) α

/-- `ProofOfStake` with references to its dictionaries. -/
structure SharedPos [Rsa] where
  settings : PosSettings
  node_validator_id : Option Str
  signature_manager : SignatureManager
  validators : Ref
  genesis_stakes : Option Ref
  validator_public_keys : StrDict Str
  genesis_prev_hash : Str

inductive SharedConsensus [Rsa]
  | pow (self : ProofOfWork)
  | pos (self : SharedPos)

structure SharedChain [Rsa] where
  chain : List Block
  enable_signature : Bool
  consensus : Option SharedConsensus
  genesis_prev_hash : Str
  signature_manager : Option SignatureManager

/-- A chain, and the dictionaries of stakes that exist. -/
structure Memory [Rsa] where
  node : SharedChain
  stakes : List StakeMap

section Views

variable [Rsa] (stakes : List StakeMap)

/-- What the references read. -/
def SharedPos.view (self : SharedPos) : ProofOfStake where
  settings := self.settings
  node_validator_id := self.node_validator_id
  signature_manager := self.signature_manager
  validators := load stakes self.validators
  genesis_stakes := self.genesis_stakes.map (load stakes)
  validator_public_keys := self.validator_public_keys
  genesis_prev_hash := self.genesis_prev_hash

def SharedConsensus.view : SharedConsensus → Consensus
  | pow self => .pow self
  | pos self => .pos (self.view stakes)

def SharedChain.view (self : SharedChain) : BlockChain where
  chain := self.chain
  enable_signature := self.enable_signature
  consensus := self.consensus.map (·.view stakes)
  genesis_prev_hash := self.genesis_prev_hash
  signature_manager := self.signature_manager

def Memory.view (memory : Memory) : BlockChain := memory.node.view memory.stakes

end Views

/-! ## The code -/

section Code

variable [Runtime] [Rsa]

namespace SharedPos

omit [Runtime] in
/-- `compute_validators_from_chain`: `dict(genesis_stakes)`, and the rewards into it. -/
def compute_validators_from_chain (chain : List Block) (genesis_stakes : Ref)
    (settings : PosSettings) : OnStakes Ref := do
  let validators ← copy genesis_stakes
  let _ ← enumerateAt (ρ := Unit) validators (fun stakes _ block =>
    (ProofOfStake.apply_block_reward settings stakes block).map Pass.next) [] chain
  return validators

omit [Runtime] in
/-- The stakes `prepare_block` elects the proposer with. -/
def proposal_stakes (self : SharedPos) (chain : List Block) : OnStakes Ref :=
  match self.genesis_stakes with
  | some genesis_stakes => compute_validators_from_chain chain genesis_stakes self.settings
  | none => return self.validators

/-- After the election `prepare_block` reads the stakes it elected with. -/
def prepare_block (self : SharedPos) (salt : List UInt8) (block : Dict) (chain : List Block) :
    OnStakes Block := do
  let validators ← self.proposal_stakes chain
  Action.reads fun stakes =>
    { self.view stakes with genesis_stakes := none, validators := load stakes validators }.prepare_block
      salt block chain

omit [Runtime] in
def on_block_added (self : SharedPos) (block : Block) : OnStakes Unit :=
  update self.validators (ProofOfStake.apply_block_reward self.settings · block)

end SharedPos

namespace SharedChain

def complete_block (self : SharedChain) (input : BlockChain.LocalInput) (block : Dict) :
    OnStakes Block :=
  match self.consensus with
  | some (.pos pos) => pos.prepare_block input.salt block self.chain
  | _ => Action.reads fun stakes => (self.view stakes).complete_block input block

def consensus_check (self : SharedChain) (consensus : SharedConsensus) (block : Block)
    (genesis_stakes : Option Ref) : OnStakes ValidationResult :=
  match consensus, genesis_stakes with
  | .pos pos, some genesis_stakes => do
    let validators ←
      SharedPos.compute_validators_from_chain self.chain genesis_stakes pos.settings
    Action.reads fun stakes =>
      (pos.view stakes).validate_block block self.chain (some (load stakes validators)) none
  | consensus, _ =>
    Action.reads fun stakes => (consensus.view stakes).validate_block block self.chain

def received_checks (self : SharedChain) (block : Block) (genesis_stakes : Option Ref) :
    OnStakes Bool := do
  let previous := self.chain.getLast?
  let first ← Action.reads fun stakes => (self.view stakes).first_index_ok block
  if !first then return false
  match self.consensus with
  | some consensus =>
    let link ← Action.reads fun stakes => validate_chain_link
      (consensus.view stakes).genesis_prev_hash block previous (some self.genesis_prev_hash)
    if !link.valid then return false
    let result ← self.consensus_check consensus block genesis_stakes
    return result.valid
  | none => Action.reads fun stakes => (self.view stakes).legacy_checks block previous

/-- `verify_chain_integrity`, whose loop over PoS stakes works on a copy. -/
def verify_chain_integrity (chain : List Block) (consensus : Option SharedConsensus)
    (genesis_prev_hash : Str) (genesis_stakes : Option Ref) : OnStakes ChainVerificationResult :=
  match consensus, genesis_stakes with
  | some (.pos self), some genesis_stakes => do
    let pos ← Action.reads fun stakes => .ok (self.view stakes)
    let validators ← copy genesis_stakes
    let out ← enumerateAt validators (pos_verify_step pos chain genesis_prev_hash) [] chain
    return verdict out
  | consensus, _ =>
    Action.reads fun stakes => EasyBlockchain.verify_chain_integrity chain
      (consensus.map (·.view stakes)) genesis_prev_hash none

end SharedChain

namespace Memory

omit [Runtime] in
def onStakes {α : Type} (x : SharedChain → OnStakes α) : Action PyErr Memory α := fun memory =>
  let out := x memory.node memory.stakes
  (out.1, { memory with stakes := out.2 })

omit [Runtime] in
/-- `self.chain.append(block)` and the hook after it. -/
def append (block : Block) : Action PyErr Memory Unit := do
  Action.modify fun memory =>
    { memory with node := { memory.node with chain := memory.node.chain ++ [block] } }
  onStakes fun self =>
    match self.consensus with
    | some (.pos pos) => pos.on_block_added block
    | _ => pure ()

def add_new_block (input : BlockChain.LocalInput) : Action PyErr Memory Block := do
  let draft ← onStakes fun self => Action.reads fun stakes => (self.view stakes).draft_block input
  let block ← onStakes (·.complete_block input draft)
  append block
  return block

def add_block (block : Block) (validate : Bool) (genesis_stakes : Option Ref) :
    Action PyErr Memory Bool := do
  let ok ← if validate then onStakes (·.received_checks block genesis_stakes) else pure true
  if !ok then return false
  append block
  return true

omit [Runtime] in
/-- `sync_validators_from_chain`: two new dictionaries, assigned one after the other. -/
def sync_validators_from_chain (pos : SharedPos) (chain : List Block) (genesis_stakes : Ref) :
    Action PyErr Memory Unit := do
  let genesis ← onStakes fun _ => copy genesis_stakes
  Action.modify fun memory => { memory with node := { memory.node with
    consensus := some (.pos { pos with genesis_stakes := some genesis }) } }
  let validators ← onStakes fun _ =>
    SharedPos.compute_validators_from_chain chain genesis pos.settings
  Action.modify fun memory => { memory with node := { memory.node with
    consensus := some (.pos { pos with genesis_stakes := some genesis, validators := validators }) } }

def replace_chain (new_chain : List Block) (genesis_stakes : Option Ref) :
    Action PyErr Memory Bool := do
  let verification ← onStakes fun self => SharedChain.verify_chain_integrity new_chain
    self.consensus self.genesis_prev_hash genesis_stakes
  if !verification.valid then return false
  Action.modify fun memory => { memory with node := { memory.node with chain := new_chain } }
  let consensus ← Action.reads fun memory => .ok memory.node.consensus
  match consensus, genesis_stakes with
  | some (.pos pos), some genesis_stakes =>
    sync_validators_from_chain pos new_chain genesis_stakes
    return true
  | _, _ => return true

end Memory

end Code

/-! ## What the code does to the dictionaries -/

section Effects

variable [Runtime] [Rsa]

/-! ### References of a node -/

omit [Runtime] in
/-- The dictionaries of the protocol exist, and are two. -/
structure SharedPos.Live (holder : SharedPos) (stakes : List StakeMap) : Prop where
  current : holder.validators < stakes.length
  genesis : ∀ g, holder.genesis_stakes = some g → g < stakes.length ∧ g ≠ holder.validators

omit [Runtime] in
def Memory.Live (memory : Memory) : Prop :=
  ∀ pos, memory.node.consensus = some (.pos pos) → pos.Live memory.stakes

variable {stakes : List StakeMap} {pos : SharedPos} {self : SharedChain} {memory : Memory}

omit [Runtime] in
/-- New dictionaries change nothing for the old references. -/
theorem SharedPos.Live.view (hlive : pos.Live stakes) (more : List StakeMap) :
    pos.view (stakes ++ more) = pos.view stakes := by
  have hgenesis : pos.genesis_stakes.map (load (stakes ++ more))
      = pos.genesis_stakes.map (load stakes) := by
    cases hg : pos.genesis_stakes with
    | none => rfl
    | some g =>
        rw [Option.map_some, Option.map_some, load_append more (hlive.genesis g hg).1]
  rw [SharedPos.view, SharedPos.view, load_append more hlive.current, hgenesis]

omit [Runtime] in
theorem view_consensus (hlive : ∀ pos, self.consensus = some (.pos pos) → pos.Live stakes)
    (more : List StakeMap) {consensus : SharedConsensus} (hmode : self.consensus = some consensus) :
    consensus.view (stakes ++ more) = consensus.view stakes := by
  cases consensus with
  | pow pow => rfl
  | pos pos =>
      rw [SharedConsensus.view, SharedConsensus.view, (hlive pos hmode).view more]

omit [Runtime] in
theorem view_chain (hlive : ∀ pos, self.consensus = some (.pos pos) → pos.Live stakes)
    (more : List StakeMap) : self.view (stakes ++ more) = self.view stakes := by
  have hconsensus : self.consensus.map (·.view (stakes ++ more))
      = self.consensus.map (·.view stakes) := by
    cases hmode : self.consensus with
    | none => rfl
    | some consensus =>
        rw [Option.map_some, Option.map_some, view_consensus hlive more hmode]
  rw [SharedChain.view, SharedChain.view, hconsensus]

/-! ### Recomputations -/

omit [Runtime] [Rsa] in
/-- The recomputed stakes are a new dictionary. -/
theorem compute_validators_run (chain : List Block) (genesis_stakes : Ref) (settings : PosSettings)
    (stakes : List StakeMap) :
    ∃ m, SharedPos.compute_validators_from_chain chain genesis_stakes settings stakes
        = ((ProofOfStake.compute_validators_from_chain chain (load stakes genesis_stakes)
            settings).map fun _ => stakes.length, stakes ++ [m]) ∧
      ∀ m', ProofOfStake.compute_validators_from_chain chain (load stakes genesis_stakes) settings
        = .ok m' → m = m' := by
  obtain ⟨m, hrun, hm⟩ := enumerateAt_snoc (ρ := Unit) (fun stakes _ block =>
    (ProofOfStake.apply_block_reward settings stakes block).map Pass.next) chain stakes
      (load stakes genesis_stakes)
  rw [enumerate_next] at hrun hm
  refine ⟨m, ?_, ?_⟩
  · have hcopy : (copy genesis_stakes : OnStakes Ref) stakes
        = (.ok stakes.length, stakes ++ [load stakes genesis_stakes]) := rfl
    rw [SharedPos.compute_validators_from_chain, Action.bind_ok hcopy]
    rw [ProofOfStake.compute_validators_from_chain]
    rcases hvalue : chain.foldlM (ProofOfStake.apply_block_reward settings)
      (load stakes genesis_stakes) with e | m'
    · rw [hvalue] at hrun
      exact Action.bind_error hrun
    · rw [hvalue] at hrun
      exact Action.bind_ok hrun
  · intro m' hm'
    refine hm m' ?_
    rw [ProofOfStake.compute_validators_from_chain] at hm'
    rw [hm']
    rfl

/-- After the election `prepare_block` does not look at the stakes. -/
theorem prepare_block_of_stakes {pos : ProofOfStake} {chain : List Block} {m : StakeMap}
    (h : pos.proposal_stakes chain = .ok m) (salt : List UInt8) (block : Dict) :
    { pos with genesis_stakes := none, validators := m }.prepare_block salt block chain
      = pos.prepare_block salt block chain := by
  rw [ProofOfStake.prepare_block, ProofOfStake.prepare_block, h]
  rfl

/-- What is elected with them is what the values elect. -/
theorem prepare_block_makes (hlive : pos.Live stakes) (salt : List UInt8) (block : Dict)
    (chain : List Block) :
    Makes (pos.prepare_block salt block chain) stakes
      ((pos.view stakes).prepare_block salt block chain) := by
  unfold SharedPos.prepare_block SharedPos.proposal_stakes
  cases hgenesis : pos.genesis_stakes with
  | none =>
      refine ⟨[], ?_⟩
      rw [List.append_nil]
      refine Prod.ext ?_ rfl
      change ProofOfStake.prepare_block _ salt block chain = _
      congr 1
      rw [SharedPos.view, hgenesis]
      rfl
  | some g =>
      obtain ⟨m, hrun, hm⟩ := compute_validators_run chain g pos.settings stakes
      refine ⟨[m], ?_⟩
      have hproposal : (pos.view stakes).proposal_stakes chain
          = ProofOfStake.compute_validators_from_chain chain (load stakes g) pos.settings := by
        rw [ProofOfStake.proposal_stakes, SharedPos.view, hgenesis]
        rfl
      rcases hvalue : ProofOfStake.compute_validators_from_chain chain (load stakes g) pos.settings
        with e | m'
      · rw [hvalue] at hrun hproposal
        rw [Action.bind_error hrun, ProofOfStake.prepare_block, hproposal]
        rfl
      · rw [hvalue] at hrun hproposal
        obtain rfl := hm m' hvalue
        rw [Action.bind_ok hrun, Action.reads_run, load_snoc, hlive.view]
        exact Prod.ext (prepare_block_of_stakes hproposal salt block) rfl

theorem complete_block_makes (hlive : ∀ pos, self.consensus = some (.pos pos) → pos.Live stakes)
    (input : BlockChain.LocalInput) (block : Dict) :
    Makes (self.complete_block input block) stakes
      ((self.view stakes).complete_block input block) := by
  unfold SharedChain.complete_block
  split
  · rename_i pos hmode
    have hvalue : (self.view stakes).complete_block input block
        = (pos.view stakes).prepare_block input.salt block self.chain := by
      rw [BlockChain.complete_block, SharedChain.view, hmode]
      rfl
    rw [hvalue]
    exact prepare_block_makes (hlive pos hmode) input.salt block self.chain
  · exact makes_reads (fun stakes => (self.view stakes).complete_block input block) stakes

/-! ### Checks -/

theorem consensus_check_makes (hlive : ∀ pos, self.consensus = some (.pos pos) → pos.Live stakes)
    {consensus : SharedConsensus} (hmode : self.consensus = some consensus) (block : Block)
    (genesis_stakes : Option Ref) :
    Makes (self.consensus_check consensus block genesis_stakes) stakes
      ((self.view stakes).consensus_check (consensus.view stakes) block
        (genesis_stakes.map (load stakes))) := by
  unfold SharedChain.consensus_check
  cases consensus with
  | pow pow => exact makes_reads _ stakes
  | pos pos =>
      cases genesis_stakes with
      | none => exact makes_reads _ stakes
      | some g =>
          obtain ⟨m, hrun, hm⟩ := compute_validators_run self.chain g pos.settings stakes
          refine ⟨[m], ?_⟩
          have hvalue : (self.view stakes).consensus_check (SharedConsensus.view stakes (.pos pos))
              block ((some g).map (load stakes))
                = ProofOfStake.compute_validators_from_chain self.chain (load stakes g) pos.settings
                  >>= fun validators =>
                    (pos.view stakes).validate_block block self.chain (some validators) none := rfl
          rw [hvalue]
          rcases hcompute : ProofOfStake.compute_validators_from_chain self.chain (load stakes g)
            pos.settings with e | m'
          · rw [hcompute] at hrun
            exact Action.bind_error hrun
          · rw [hcompute] at hrun
            obtain rfl := hm m' hcompute
            refine (Action.bind_ok hrun).trans ?_
            rw [Action.reads_run, load_snoc, (hlive pos hmode).view]
            rfl

theorem received_checks_makes (hlive : ∀ pos, self.consensus = some (.pos pos) → pos.Live stakes)
    (block : Block) (genesis_stakes : Option Ref) :
    Makes (self.received_checks block genesis_stakes) stakes
      ((self.view stakes).received_checks block (genesis_stakes.map (load stakes))) := by
  unfold SharedChain.received_checks BlockChain.received_checks
  refine makes_reads_bind ?_
  intro first hfirst
  cases first with
  | false => exact makes_pure false stakes
  | true =>
      simp only [Bool.not_true, Bool.false_eq_true, if_false]
      cases hmode : self.consensus with
      | none =>
          have hview : (self.view stakes).consensus = none := by
            rw [SharedChain.view, hmode]
            rfl
          rw [hview]
          exact makes_reads _ stakes
      | some consensus =>
          have hview : (self.view stakes).consensus = some (consensus.view stakes) := by
            rw [SharedChain.view, hmode]
            rfl
          rw [hview]
          refine makes_reads_bind ?_
          intro link hlink
          cases hvalid : link.valid with
          | false => exact makes_pure false stakes
          | true =>
              simp only [Bool.not_true, Bool.false_eq_true, if_false]
              refine (consensus_check_makes hlive hmode block genesis_stakes).bind ?_
              intro result more hresult
              exact makes_pure result.valid _

/-- The loop over PoS stakes works on a copy of the genesis stakes. -/
theorem verify_chain_integrity_makes (chain : List Block) (consensus : Option SharedConsensus)
    (g : Str) (genesis_stakes : Option Ref) (stakes : List StakeMap) :
    Makes (SharedChain.verify_chain_integrity chain consensus g genesis_stakes) stakes
      (verify_chain_integrity chain (consensus.map (·.view stakes)) g
        (genesis_stakes.map (load stakes))) := by
  unfold SharedChain.verify_chain_integrity
  split
  · rename_i pos r
    obtain ⟨m, hrun, -⟩ := enumerateAt_snoc (pos_verify_step (pos.view stakes) chain g) chain stakes
      (load stakes r)
    refine ⟨[m], ?_⟩
    have hcopy : (copy r : OnStakes Ref) stakes
        = (.ok stakes.length, stakes ++ [load stakes r]) := rfl
    have hvalue : verify_chain_integrity chain ((some (SharedConsensus.pos pos)).map (·.view stakes)) g
        ((some r).map (load stakes))
          = (enumerate (pos_verify_step (pos.view stakes) chain g) (load stakes r) [] chain
            >>= fun out => pure (verdict out)) := rfl
    rw [hvalue]
    have hpos : (Action.reads fun stakes => .ok (pos.view stakes) : OnStakes ProofOfStake) stakes
        = (.ok (pos.view stakes), stakes) := rfl
    refine ((Action.bind_ok hpos).trans (Action.bind_ok hcopy)).trans ?_
    rcases hout : enumerate (pos_verify_step (pos.view stakes) chain g) (load stakes r) [] chain
      with e | out
    · rw [hout] at hrun
      exact Action.bind_error hrun
    · rw [hout] at hrun
      refine (Action.bind_ok hrun).trans ?_
      cases out with
      | next m => rfl
      | ret result => rfl
  · rename_i hmode
    have hvalue : verify_chain_integrity chain (consensus.map (·.view stakes)) g
        (genesis_stakes.map (load stakes))
          = verify_chain_integrity chain (consensus.map (·.view stakes)) g none := by
      rcases consensus with _ | pow | pos
      · rfl
      · rfl
      · cases genesis_stakes with
        | none => rfl
        | some r => exact absurd rfl (hmode pos r rfl)
    rw [hvalue]
    exact makes_reads (fun stakes => verify_chain_integrity chain (consensus.map (·.view stakes)) g
      none) stakes

/-! ### The chain and its dictionaries -/

omit [Runtime] in
/-- New dictionaries after those there are. -/
def Memory.grown (memory : Memory) (more : List StakeMap) : Memory :=
  { memory with stakes := memory.stakes ++ more }

omit [Runtime] in
theorem SharedPos.Live.append (hlive : pos.Live stakes) (more : List StakeMap) :
    pos.Live (stakes ++ more) := by
  have hle : stakes.length ≤ (stakes ++ more).length := by
    rw [List.length_append]
    exact Nat.le_add_right _ _
  refine ⟨hlive.current.trans_le hle, ?_⟩
  intro g hg
  obtain ⟨hlt, hne⟩ := hlive.genesis g hg
  exact ⟨hlt.trans_le hle, hne⟩

omit [Runtime] in
theorem Memory.Live.grown (hlive : memory.Live) (more : List StakeMap) : (memory.grown more).Live :=
  fun pos hmode => (hlive pos hmode).append more

omit [Runtime] in
theorem Memory.Live.view_grown (hlive : memory.Live) (more : List StakeMap) :
    (memory.grown more).view = memory.view :=
  view_chain hlive more

omit [Runtime] in
theorem onStakes_run {α : Type} {x : SharedChain → OnStakes α} {v : PyM α}
    (h : Makes (x memory.node) memory.stakes v) :
    ∃ more, Memory.onStakes x memory = (v, memory.grown more) := by
  obtain ⟨more, hrun⟩ := h
  refine ⟨more, ?_⟩
  rw [Memory.onStakes, hrun]
  rfl

omit [Runtime] in
/-- After a block was appended: the reward is written into `self.validators`. -/
def Memory.rewarded (memory : Memory) (block : Block) : Memory where
  node := { memory.node with chain := memory.node.chain ++ [block] }
  stakes :=
    match memory.node.consensus with
    | some (.pos pos) => memory.stakes.set pos.validators
        (ProofOfStake.credit pos.settings (load memory.stakes pos.validators) block)
    | _ => memory.stakes

omit [Runtime] in
theorem view_pos (hmode : memory.node.consensus = some (.pos pos)) :
    memory.view.consensus = some (.pos (pos.view memory.stakes)) := by
  rw [Memory.view, SharedChain.view, hmode]
  rfl

omit [Runtime] in
variable (memory) in
/-- The append and its hook, for a block that can be rewarded. -/
theorem append_run (block : Block) (h : Rewardable memory.view.consensus block) :
    Memory.append block memory = (.ok (), memory.rewarded block) := by
  obtain ⟨node, stakes⟩ := memory
  obtain ⟨chain, enable_signature, consensus, genesis_prev_hash, signature_manager⟩ := node
  rcases consensus with _ | pow | pos
  · rfl
  · rfl
  · obtain ⟨id, hid⟩ := h (pos.view stakes) rfl
    have hreward := ProofOfStake.apply_block_reward_of_id pos.settings
      (load stakes pos.validators) hid
    have hhook : pos.on_block_added block stakes = (.ok (), stakes.set pos.validators
        (ProofOfStake.credit pos.settings (load stakes pos.validators) block)) := by
      rw [SharedPos.on_block_added, update, hreward]
    refine (Action.bind_ok rfl).trans ?_
    rw [Memory.onStakes]
    exact congrArg (fun out : PyM Unit × List StakeMap => (out.1,
      (⟨⟨chain ++ [block], enable_signature, some (.pos pos), genesis_prev_hash, signature_manager⟩,
        out.2⟩ : Memory))) hhook

omit [Runtime] in
/-- The reward is the one of the model over values. -/
theorem Memory.Live.view_rewarded (hlive : memory.Live) (block : Block) :
    (memory.rewarded block).view = memory.view.appended block := by
  obtain ⟨node, stakes⟩ := memory
  obtain ⟨chain, enable_signature, consensus, genesis_prev_hash, signature_manager⟩ := node
  rcases consensus with _ | pow | pos
  · rfl
  · rfl
  · have hpos := hlive pos rfl
    have hgenesis : pos.genesis_stakes.map (load (stakes.set pos.validators
        (ProofOfStake.credit pos.settings (load stakes pos.validators) block)))
          = pos.genesis_stakes.map (load stakes) := by
      cases hg : pos.genesis_stakes with
      | none => rfl
      | some g =>
          rw [Option.map_some, Option.map_some, load_set_of_ne (hpos.genesis g hg).2]
    simp only [Memory.view, SharedChain.view, Memory.rewarded, BlockChain.appended, Option.map_some,
      SharedConsensus.view, Consensus.credited, SharedPos.view, hgenesis,
      load_set_self hpos.current]

omit [Runtime] in
theorem Memory.Live.rewarded (hlive : memory.Live) (block : Block) :
    (memory.rewarded block).Live := by
  intro pos hmode
  have hpos := hlive pos hmode
  have hlength : (memory.rewarded block).stakes.length = memory.stakes.length := by
    unfold Memory.rewarded
    dsimp only
    split
    · exact List.length_set
    · rfl
  refine ⟨hlength ▸ hpos.current, ?_⟩
  intro g hg
  exact ⟨hlength ▸ (hpos.genesis g hg).1, (hpos.genesis g hg).2⟩

/-! ## The operations against the model over values -/

/-- What is left where an operation fails: the chain as it was and every dictionary as
it was; the copies that were made are reached from nowhere. -/
structure Untouched (before after : Memory) : Prop where
  node : after.node = before.node
  stakes : before.stakes <+: after.stakes

/-- What is left where a block is appended. -/
structure Appends (before : Memory) (block : Block) (after : Memory) : Prop where
  node : after.node = { before.node with chain := before.node.chain ++ [block] }
  validators : ∀ pos, before.node.consensus = some (.pos pos) →
    load after.stakes pos.validators
      = ProofOfStake.credit pos.settings (load before.stakes pos.validators) block
  others : ∀ r < before.stakes.length,
    (∀ pos, before.node.consensus = some (.pos pos) → r ≠ pos.validators) →
      load after.stakes r = load before.stakes r

/-- What is left where the chain is replaced. -/
structure Replaces (before : Memory) (new_chain : List Block) (after : Memory) : Prop where
  chain : after.node.chain = new_chain
  stakes : before.stakes <+: after.stakes

omit [Runtime] in
theorem untouched_grown (memory : Memory) (more : List StakeMap) :
    Untouched memory (memory.grown more) :=
  ⟨rfl, more, rfl⟩

omit [Runtime] in
theorem Memory.Live.appends (hlive : memory.Live) (more : List StakeMap) (block : Block) :
    Appends memory block ((memory.grown more).rewarded block) := by
  refine ⟨rfl, ?_, ?_⟩
  · intro pos hmode
    have hlt := (hlive pos hmode).current
    have hstakes : ((memory.grown more).rewarded block).stakes
        = (memory.stakes ++ more).set pos.validators (ProofOfStake.credit pos.settings
          (load (memory.stakes ++ more) pos.validators) block) := by
      simp only [Memory.rewarded, Memory.grown, hmode]
    rw [hstakes, load_append more hlt, load_set_self]
    rw [List.length_append]
    exact hlt.trans_le (Nat.le_add_right _ _)
  · intro r hr hne
    rw [← load_append more hr]
    simp only [Memory.rewarded, Memory.grown]
    split
    · rename_i pos hmode
      exact load_set_of_ne (hne pos hmode)
    · rfl

section Operations

variable (hlive : memory.Live)

include hlive

theorem add_new_block_run (input : BlockChain.LocalInput) :
    (∃ block more, Memory.add_new_block input memory
        = (.ok block, (memory.grown more).rewarded block) ∧
      memory.view.add_new_block input = (.ok block, memory.view.appended block) ∧
      block.item (lit "block_index") = .ok (.int (memory.node.chain.length + 1))) ∨
    ∃ e more, Memory.add_new_block input memory = (.error e, memory.grown more) ∧
      memory.view.add_new_block input = (.error e, memory.view) := by
  have hdraft : (Memory.onStakes fun self => Action.reads fun stakes =>
      (self.view stakes).draft_block input) memory = (memory.view.draft_block input, memory) := rfl
  unfold Memory.add_new_block
  rcases hvalue : memory.view.draft_block input with e | draft
  · rw [hvalue] at hdraft
    refine Or.inr ⟨e, [], ?_, add_new_block_raises (by rw [hvalue]; rfl)⟩
    rw [Action.bind_error hdraft, Memory.grown, List.append_nil]
  · rw [hvalue] at hdraft
    obtain ⟨more, hcomplete⟩ := onStakes_run (x := (·.complete_block input draft))
      (complete_block_makes hlive input draft)
    rcases hblock : memory.view.complete_block input draft with e | block
    · rw [← Memory.view, hblock] at hcomplete
      refine Or.inr ⟨e, more, ?_, add_new_block_raises (by rw [hvalue, ok_bind, hblock])⟩
      rw [Action.bind_ok hdraft, Action.bind_error hcomplete]
    · rw [← Memory.view, hblock] at hcomplete
      have hbuilt : (memory.view.draft_block input >>= memory.view.complete_block input) = .ok block := by
        rw [hvalue, ok_bind, hblock]
      have happend := append_run (memory.grown more) block
        (by rw [hlive.view_grown]; exact rewardable_of_built hbuilt)
      refine Or.inl ⟨block, more, ?_, add_new_block_ok hbuilt, index_of_built hbuilt⟩
      rw [Action.bind_ok hdraft, Action.bind_ok hcomplete, Action.bind_ok happend]
      rfl

theorem add_block_run (block : Block) (genesis_stakes : Option Ref) :
    (∃ more, Memory.add_block block true genesis_stakes memory
        = (.ok true, (memory.grown more).rewarded block) ∧
      memory.view.add_block block true (genesis_stakes.map (load memory.stakes))
        = (.ok true, memory.view.appended block)) ∨
    (∃ more, Memory.add_block block true genesis_stakes memory = (.ok false, memory.grown more) ∧
      memory.view.add_block block true (genesis_stakes.map (load memory.stakes))
        = (.ok false, memory.view)) ∨
    ∃ e more, Memory.add_block block true genesis_stakes memory = (.error e, memory.grown more) ∧
      memory.view.add_block block true (genesis_stakes.map (load memory.stakes))
        = (.error e, memory.view) := by
  obtain ⟨more, hchecks⟩ := onStakes_run (x := (·.received_checks block genesis_stakes))
    (received_checks_makes hlive block genesis_stakes)
  unfold Memory.add_block
  rw [if_pos rfl]
  rcases hvalue : memory.view.received_checks block (genesis_stakes.map (load memory.stakes))
    with e | _ | _
  · rw [← Memory.view, hvalue] at hchecks
    exact Or.inr (Or.inr ⟨e, more, Action.bind_error hchecks, add_block_error hvalue⟩)
  · rw [← Memory.view, hvalue] at hchecks
    exact Or.inr (Or.inl ⟨more, Action.bind_ok hchecks, add_block_false hvalue⟩)
  · rw [← Memory.view, hvalue] at hchecks
    have happend := append_run (memory.grown more) block
      (by rw [hlive.view_grown]; exact rewardable_of_received hvalue)
    refine Or.inl ⟨more, ?_, add_block_true hvalue⟩
    refine (Action.bind_ok hchecks).trans ?_
    exact Action.bind_ok happend

omit [Runtime] hlive in
variable (pos memory) in
/-- The two dictionaries that `sync_validators_from_chain` makes: the genesis stakes and
the stakes after the chain. -/
theorem sync_validators_run {chain : List Block} (hnames : NamesValidators chain) (r : Ref) :
    Memory.sync_validators_from_chain pos chain r memory
      = (.ok (), { node := { memory.node with
          consensus := some (.pos { pos with
            genesis_stakes := some memory.stakes.length
            validators := memory.stakes.length + 1 }) }
                   stakes := memory.stakes ++ [load memory.stakes r,
          ProofOfStake.replay pos.settings (load memory.stakes r) chain] }) := by
  obtain ⟨m, hrun, hm⟩ := compute_validators_run chain memory.stakes.length pos.settings
    (memory.stakes ++ [load memory.stakes r])
  have hcompute := ProofOfStake.compute_validators_eq_replay pos.settings (load memory.stakes r)
    hnames
  rw [load_snoc, hcompute] at hrun hm
  obtain rfl := hm _ rfl
  have hcompute_run : Memory.onStakes (fun _ => SharedPos.compute_validators_from_chain chain
      memory.stakes.length pos.settings)
        { node := { memory.node with
            consensus := some (.pos { pos with genesis_stakes := some memory.stakes.length }) }
          stakes := memory.stakes ++ [load memory.stakes r] }
      = (.ok (memory.stakes.length + 1), { node := { memory.node with
            consensus := some (.pos { pos with genesis_stakes := some memory.stakes.length }) }
                                           stakes := memory.stakes ++ [load memory.stakes r,
            ProofOfStake.replay pos.settings (load memory.stakes r) chain] }) := by
    rw [Memory.onStakes, hrun, List.length_append, List.append_assoc]
    rfl
  refine (Action.bind_ok rfl).trans ((Action.bind_ok rfl).trans ?_)
  exact (Action.bind_ok hcompute_run).trans rfl

/-- What `replace_chain` does after the verification. -/
theorem replaced_run {new_chain : List Block} {genesis_stakes : Option Ref}
    (hverifies : Verifies (verify_chain_integrity new_chain memory.view.consensus
      memory.view.genesis_prev_hash (genesis_stakes.map (load memory.stakes))))
    (hpassed : ∀ r, genesis_stakes = some r → r < memory.stakes.length) (more : List StakeMap) :
    ∃ after, (do
        Action.modify fun memory => { memory with node := { memory.node with chain := new_chain } }
        let consensus ← Action.reads fun memory => .ok memory.node.consensus
        match consensus, genesis_stakes with
        | some (.pos pos), some genesis_stakes =>
          Memory.sync_validators_from_chain pos new_chain genesis_stakes
          return true
        | _, _ => return true : Action PyErr Memory Bool) (memory.grown more) = (.ok true, after) ∧
      Replaces memory new_chain after ∧
      (.ok true, memory.view.replaced new_chain (genesis_stakes.map (load memory.stakes)))
        = ((.ok true, after.view) : PyM Bool × BlockChain) ∧ after.Live := by
  have hview := hlive.view_grown more
  have hlive' := hlive.grown more
  obtain ⟨⟨chain, enable_signature, consensus, g, manager⟩, stakes⟩ := memory
  -- the state after the new chain was assigned
  set replaced : Memory := ⟨⟨new_chain, enable_signature, consensus, g, manager⟩, stakes ++ more⟩
    with hreplaced
  have hsame : replaced.view = { (⟨⟨chain, enable_signature, consensus, g, manager⟩, stakes⟩ : Memory).view
      with chain := new_chain } := by
    rw [← hview]
    rfl
  have hstays : ∀ resynced, resynced = replaced.view →
      ((.ok true, resynced) : PyM Bool × BlockChain) = (.ok true, replaced.view) := by
    intro resynced h
    rw [h]
  rcases consensus with _ | pow | pos
  · exact ⟨replaced, rfl, ⟨rfl, more, rfl⟩, hstays _ (by rw [hsame]; rfl), hlive'⟩
  · exact ⟨replaced, rfl, ⟨rfl, more, rfl⟩, hstays _ (by rw [hsame]; rfl), hlive'⟩
  · cases genesis_stakes with
    | none => exact ⟨replaced, rfl, ⟨rfl, more, rfl⟩, hstays _ (by rw [hsame]; rfl), hlive'⟩
    | some r =>
        have hsync := sync_validators_run pos replaced (names_of_verifies hverifies) r
        have hload : load replaced.stakes r = load stakes r := load_append more (hpassed r rfl)
        rw [hload] at hsync
        refine ⟨_, (Action.bind_ok rfl).trans
          ((Action.bind_ok rfl).trans ((Action.bind_ok hsync).trans rfl)), ⟨rfl, ?_⟩, ?_, ?_⟩
        · exact ⟨more ++ [load stakes r,
            ProofOfStake.replay pos.settings (load stakes r) new_chain], (List.append_assoc _ _ _).symm⟩
        · have hgenesis := load_append_right replaced.stakes [load stakes r,
            ProofOfStake.replay pos.settings (load stakes r) new_chain] 0
          have hvalidators := load_append_right replaced.stakes [load stakes r,
            ProofOfStake.replay pos.settings (load stakes r) new_chain] 1
          simp only [Memory.view, SharedChain.view, BlockChain.replaced, Option.map_some,
            SharedConsensus.view, Consensus.resynced, SharedPos.view, hvalidators]
          rw [Nat.add_zero] at hgenesis
          rw [hgenesis]
          rfl
        · intro pos' hmode
          obtain rfl := SharedConsensus.pos.inj (Option.some.inj hmode)
          have hlength : (replaced.stakes ++ [load stakes r,
              ProofOfStake.replay pos.settings (load stakes r) new_chain]).length
                = replaced.stakes.length + 2 := List.length_append
          refine ⟨?_, ?_⟩
          · exact (Nat.lt_succ_self _).trans_eq hlength.symm
          · intro genesis hg
            obtain rfl := Option.some.inj hg
            exact ⟨(Nat.lt_add_of_pos_right Nat.two_pos).trans_eq hlength.symm,
              Nat.ne_of_lt (Nat.lt_succ_self _)⟩

theorem replace_chain_run (new_chain : List Block) {genesis_stakes : Option Ref}
    (hpassed : ∀ r, genesis_stakes = some r → r < memory.stakes.length) :
    (∃ after, Memory.replace_chain new_chain genesis_stakes memory = (.ok true, after) ∧
      Replaces memory new_chain after ∧
      memory.view.replace_chain new_chain (genesis_stakes.map (load memory.stakes))
        = (.ok true, after.view) ∧ after.Live) ∨
    (∃ more, Memory.replace_chain new_chain genesis_stakes memory
        = (.ok false, memory.grown more) ∧
      memory.view.replace_chain new_chain (genesis_stakes.map (load memory.stakes))
        = (.ok false, memory.view)) ∨
    ∃ e more, Memory.replace_chain new_chain genesis_stakes memory = (.error e, memory.grown more) ∧
      memory.view.replace_chain new_chain (genesis_stakes.map (load memory.stakes))
        = (.error e, memory.view) := by
  obtain ⟨more, hrun⟩ := @onStakes_run _ memory _
    (fun self => SharedChain.verify_chain_integrity new_chain self.consensus
      self.genesis_prev_hash genesis_stakes) _
    (verify_chain_integrity_makes new_chain memory.node.consensus memory.node.genesis_prev_hash
      genesis_stakes memory.stakes)
  rcases hvalue : verify_chain_integrity new_chain memory.view.consensus
    memory.view.genesis_prev_hash (genesis_stakes.map (load memory.stakes)) with e | verification
  · have hraises := hrun.trans (congrArg (·, memory.grown more) hvalue)
    exact Or.inr (Or.inr ⟨e, more, Action.bind_error hraises, replace_chain_error hvalue⟩)
  · have hverified := hrun.trans (congrArg (·, memory.grown more) hvalue)
    unfold Memory.replace_chain
    rw [Action.bind_ok hverified]
    cases hvalid : verification.valid with
    | false => exact Or.inr (Or.inl ⟨more, rfl, replace_chain_false hvalue hvalid⟩)
    | true =>
        refine Or.inl ?_
        have hverifies : Verifies (verify_chain_integrity new_chain memory.view.consensus
          memory.view.genesis_prev_hash (genesis_stakes.map (load memory.stakes))) :=
            ⟨verification, hvalue, hvalid⟩
        rw [replace_chain_true hverifies]
        exact replaced_run hlive hverifies hpassed more

end Operations

/-! ### Runs -/

/-- One of the three operations, with references to what is passed in. -/
inductive MemoryOp
  | add_new_block (input : BlockChain.LocalInput)
  | add_block (block : Block) (genesis_stakes : Option Ref)
  | replace_chain (new_chain : List Block) (genesis_stakes : Option Ref)

namespace MemoryOp

omit [Runtime] [Rsa]

/-- The dictionary that is passed in exists. -/
def Passes (stakes : List StakeMap) : MemoryOp → Prop
  | add_new_block _ => True
  | add_block _ genesis_stakes | replace_chain _ genesis_stakes =>
    ∀ r, genesis_stakes = some r → r < stakes.length

/-- The operation of the model over values. -/
def value (stakes : List StakeMap) : MemoryOp → ChainOp
  | add_new_block input => .add_new_block input
  | add_block block genesis_stakes => .add_block block (genesis_stakes.map (load stakes))
  | replace_chain new_chain genesis_stakes =>
    .replace_chain new_chain (genesis_stakes.map (load stakes))

end MemoryOp

/-- The memory after an operation, whether it returned or raised. -/
def MemoryOp.step (memory : Memory) : MemoryOp → Memory
  | add_new_block input => (Memory.add_new_block input memory).2
  | add_block block genesis_stakes => (Memory.add_block block true genesis_stakes memory).2
  | replace_chain new_chain genesis_stakes => (Memory.replace_chain new_chain genesis_stakes memory).2

/-- Each operation does to what the references read what it does to values, and leaves
a node whose references are its own. -/
theorem MemoryOp.step_refines (hlive : memory.Live) {op : MemoryOp} (hop : op.Passes memory.stakes) :
    (op.step memory).view = (op.value memory.stakes).step memory.view ∧ (op.step memory).Live := by
  have hrewarded : ∀ more block,
      ((memory.grown more).rewarded block).view = memory.view.appended block ∧
        ((memory.grown more).rewarded block).Live := by
    intro more block
    rw [(hlive.grown more).view_rewarded, hlive.view_grown]
    exact ⟨rfl, (hlive.grown more).rewarded block⟩
  cases op with
  | add_new_block input =>
      rw [step, value, ChainOp.step]
      rcases add_new_block_run hlive input with ⟨block, more, hrun, hvalue, -⟩ | ⟨e, more, hrun, hvalue⟩
      · rw [hrun, hvalue]
        exact hrewarded more block
      · rw [hrun, hvalue]
        exact ⟨hlive.view_grown more, hlive.grown more⟩
  | add_block block genesis_stakes =>
      rw [step, value, ChainOp.step]
      rcases add_block_run hlive block genesis_stakes with
        ⟨more, hrun, hvalue⟩ | ⟨more, hrun, hvalue⟩ | ⟨e, more, hrun, hvalue⟩
      · rw [hrun, hvalue]
        exact hrewarded more block
      · rw [hrun, hvalue]
        exact ⟨hlive.view_grown more, hlive.grown more⟩
      · rw [hrun, hvalue]
        exact ⟨hlive.view_grown more, hlive.grown more⟩
  | replace_chain new_chain genesis_stakes =>
      rw [step, value, ChainOp.step]
      rcases replace_chain_run hlive new_chain hop with
        ⟨after, hrun, -, hvalue, hafter⟩ | ⟨more, hrun, hvalue⟩ | ⟨e, more, hrun, hvalue⟩
      · rw [hrun, hvalue]
        exact ⟨rfl, hafter⟩
      · rw [hrun, hvalue]
        exact ⟨hlive.view_grown more, hlive.grown more⟩
      · rw [hrun, hvalue]
        exact ⟨hlive.view_grown more, hlive.grown more⟩

/-- The references of a node stay its own in every run. -/
theorem live_run {start : Memory} (hlive : start.Live) {ops : List MemoryOp}
    (hpasses : AlwaysMeets (fun memory op => op.Passes memory.stakes) MemoryOp.step start ops) :
    (run MemoryOp.step start ops).Live :=
  run_invariant (I := Memory.Live) (fun _ _ hlive hop => (MemoryOp.step_refines hlive hop).2)
    hlive hpasses

/-! ## All or nothing -/

/-- Each operation on a node whose references are its own, with any dictionary that
exists passed in as genesis stakes. Either it succeeds, and the chain has the one block
more or is the given one; or it answers `False` or raises, and the node and all
dictionaries are as before. A dictionary that is not `self.validators` is never written,
passed in or not; `self.validators` is, with the reward of an appended block. -/
theorem all_or_nothing (hlive : memory.Live) :
    (∀ input,
      (∃ block after, Memory.add_new_block input memory = (.ok block, after) ∧
        Appends memory block after ∧
        block.item (lit "block_index") = .ok (.int (memory.node.chain.length + 1))) ∨
      ∃ e after, Memory.add_new_block input memory = (.error e, after) ∧ Untouched memory after) ∧
    (∀ block (passed : Option (Fin memory.stakes.length)),
      (∃ after, Memory.add_block block true (passed.map (·.val)) memory = (.ok true, after) ∧
        Appends memory block after) ∨
      (∃ after, Memory.add_block block true (passed.map (·.val)) memory = (.ok false, after) ∧
        Untouched memory after) ∨
      ∃ e after, Memory.add_block block true (passed.map (·.val)) memory = (.error e, after) ∧
        Untouched memory after) ∧
    (∀ new_chain (passed : Option (Fin memory.stakes.length)),
      (∃ after, Memory.replace_chain new_chain (passed.map (·.val)) memory = (.ok true, after) ∧
        Replaces memory new_chain after) ∨
      (∃ after, Memory.replace_chain new_chain (passed.map (·.val)) memory = (.ok false, after) ∧
        Untouched memory after) ∨
      ∃ e after, Memory.replace_chain new_chain (passed.map (·.val)) memory = (.error e, after) ∧
        Untouched memory after) := by
  refine ⟨?_, ?_, ?_⟩
  · intro input
    rcases add_new_block_run hlive input with ⟨block, more, hrun, -, hindex⟩ | ⟨e, more, hrun, -⟩
    · exact Or.inl ⟨block, _, hrun, hlive.appends more block, hindex⟩
    · exact Or.inr ⟨e, _, hrun, untouched_grown memory more⟩
  · intro block passed
    rcases add_block_run hlive block (passed.map (·.val)) with
      ⟨more, hrun, -⟩ | ⟨more, hrun, -⟩ | ⟨e, more, hrun, -⟩
    · exact Or.inl ⟨_, hrun, hlive.appends more block⟩
    · exact Or.inr (Or.inl ⟨_, hrun, untouched_grown memory more⟩)
    · exact Or.inr (Or.inr ⟨e, _, hrun, untouched_grown memory more⟩)
  · intro new_chain passed
    have hpassed : ∀ r, passed.map (·.val) = some r → r < memory.stakes.length := by
      intro r hr
      obtain ⟨i, -, rfl⟩ := Option.map_eq_some_iff.mp hr
      exact i.isLt
    rcases replace_chain_run hlive new_chain hpassed with
      ⟨after, hrun, hreplaces, -⟩ | ⟨more, hrun, -⟩ | ⟨e, more, hrun, -⟩
    · exact Or.inl ⟨after, hrun, hreplaces⟩
    · exact Or.inr (Or.inl ⟨_, hrun, untouched_grown memory more⟩)
    · exact Or.inr (Or.inr ⟨e, _, hrun, untouched_grown memory more⟩)

end Effects

/-! ## Passing `self.validators` itself -/

namespace SharedBlock

attribute [local instance] cpython letterRsa

/-- A node whose validators are the first dictionary, before any block. -/
def memory : Memory where
  node := {
    chain := []
    enable_signature := false
    consensus := some (.pos {
      settings := TwoBlocks.pos.settings
      node_validator_id := none
      signature_manager := ⟨none, none⟩
      validators := 0
      genesis_stakes := none
      validator_public_keys := TwoBlocks.pos.validator_public_keys
      genesis_prev_hash := DEFAULT_GENESIS_PREV_HASH })
    genesis_prev_hash := DEFAULT_GENESIS_PREV_HASH
    signature_manager := none }
  stakes := [TwoBlocks.stakes]

theorem live : memory.Live := by
  intro pos hmode
  obtain rfl := SharedConsensus.pos.inj (Option.some.inj hmode)
  refine ⟨Nat.zero_lt_one, ?_⟩
  intro g hg
  cases hg

/-- The theorem on this node. -/
theorem first_block_all_or_nothing :
    (∀ input,
      (∃ block after, Memory.add_new_block input memory = (.ok block, after) ∧
        Appends memory block after ∧
        block.item (lit "block_index") = .ok (.int (memory.node.chain.length + 1))) ∨
      ∃ e after, Memory.add_new_block input memory = (.error e, after) ∧ Untouched memory after) ∧
    (∀ block (passed : Option (Fin memory.stakes.length)),
      (∃ after, Memory.add_block block true (passed.map (·.val)) memory = (.ok true, after) ∧
        Appends memory block after) ∨
      (∃ after, Memory.add_block block true (passed.map (·.val)) memory = (.ok false, after) ∧
        Untouched memory after) ∨
      ∃ e after, Memory.add_block block true (passed.map (·.val)) memory = (.error e, after) ∧
        Untouched memory after) ∧
    (∀ new_chain (passed : Option (Fin memory.stakes.length)),
      (∃ after, Memory.replace_chain new_chain (passed.map (·.val)) memory = (.ok true, after) ∧
        Replaces memory new_chain after) ∨
      (∃ after, Memory.replace_chain new_chain (passed.map (·.val)) memory = (.ok false, after) ∧
        Untouched memory after) ∨
      ∃ e after, Memory.replace_chain new_chain (passed.map (·.val)) memory = (.error e, after) ∧
        Untouched memory after) :=
  all_or_nothing live

/-- `add_block(block, genesis_stakes=consensus.validators)` accepts the block and writes
its reward into the dictionary that was passed. -/
theorem passed_validators_written :
    (Memory.add_block TwoBlocks.blockA true (some 0) memory).1 = .ok true ∧
      (load memory.stakes 0).find (lit "v") = some 100 ∧
      (load (Memory.add_block TwoBlocks.blockA true (some 0) memory).2.stakes 0).find (lit "v")
        = some 110 := by
  decide +kernel

end SharedBlock

end EasyBlockchain
