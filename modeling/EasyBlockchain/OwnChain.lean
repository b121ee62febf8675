/-
The chain of a proof-of-work node over a run of local mining, received blocks
and replaced chains.

Received blocks and chains pass the validator before they are stored; a mined
block does not, and it takes its time from the wall clock whatever time its
predecessor claims. `mined_step_iff` says when the validator would accept it,
and `own_chain_stays_valid` that runs whose local blocks are mined under that
condition never leave the valid chains.
-/
import EasyBlockchain.PowAcceptance
import EasyBlockchain.PosAcceptance
import EasyBlockchain.Lib.Run

set_option autoImplicit false

namespace EasyBlockchain

open Py Lib

section OwnChain

variable [Runtime] [Rsa]

/-! ## The mined block -/

omit [Runtime] [Rsa] in
/-- A header entry of a block that is a dictionary. -/
theorem headerIs_dict {d h : Dict} {key : Str} {v : PyVal}
    (hheader : Dict.find d (lit "block_header") = some (.dict h)) :
    HeaderIs (.dict d) key v ↔ Dict.find h key = some v := by
  simp only [HeaderIs, PyVal.item_dict, hheader, orRaise_some, Except.ok.injEq, exists_eq_left',
    orRaise_eq_ok]

omit [Rsa] in
/-- What `mine_block` adds to a draft. -/
theorem mine_block_eq_ok {settings : PowSettings} {d h : Dict} {chain : List Block} {block : Block}
    (hheader : Dict.find d (lit "block_header") = some (.dict h))
    (hmine : ProofOfWork.mine_block settings (.dict d) chain = .ok block) :
    ∃ prev_hash tran_body body_hash difficulty tran_hash, ∃ nonce : ℕ,
      Dict.find h (lit "prev_hash") = some (.str prev_hash) ∧
      Dict.find d (lit "tran_body") = some tran_body ∧
      calc_body_hash tran_body = .ok body_hash ∧
      ProofOfWork.get_difficulty settings chain = .ok difficulty ∧
      calc_pow_tran_hash (.str prev_hash) body_hash nonce = .ok tran_hash ∧
      meets_difficulty tran_hash difficulty = true ∧
      block = .dict (Dict.set d (lit "block_header") (.dict
        (Dict.set (Dict.set (Dict.set (Dict.set h (lit "nonce") (.int nonce))
          (lit "difficulty") (.int difficulty)) (lit "tran_hash") (.str tran_hash))
          (lit "consensus_type") (.str (lit "pow"))))) := by
  simp only [ProofOfWork.mine_block, PyVal.item_dict, hheader, orRaise_some, ok_bind,
    bind_eq_ok, orRaise_eq_ok] at hmine
  obtain ⟨prev, hprev, body, hbody, body_hash, hbody_hash, difficulty, hdiff, found, hfound,
    hmine⟩ := hmine
  rcases found with _ | ⟨nonce, tran_hash⟩
  · simp at hmine
  simp only [PyVal.setItem_dict, ok_bind, Except.ok.injEq] at hmine
  obtain ⟨hhash, hwork⟩ := ProofOfWork.find_nonce_spec hfound
  -- the hash of a value that is not a string would have raised
  obtain ⟨prev, rfl⟩ : ∃ s, prev = .str s := by
    simp only [calc_pow_tran_hash, bind_eq_ok, concat_eq_ok] at hhash
    obtain ⟨_, ⟨s, hs, -⟩, -⟩ := hhash
    exact ⟨s, hs⟩
  exact ⟨prev, body, body_hash, difficulty, tran_hash, nonce, hprev, hbody, hbody_hash, hdiff,
    hhash, hwork, hmine.symm⟩

/-- The transaction of a local block. -/
def BlockChain.LocalInput.transaction (input : BlockChain.LocalInput) : PyVal := .dict
  [(.str (lit "input_data"), input.input_data), (.str (lit "output_data"), input.output_data)]

/-- The entries of a local block around its header and its transaction. -/
def local_entries (height counter : ℕ) (time : Str) (header : Dict) (body : PyVal) : Dict :=
  [(.str (lit "block_index"), .int height),
    (.str (lit "block_item"), .str time),
    (.str (lit "block_header"), .dict header),
    (.str (lit "tran_counter"), .int counter),
    (.str (lit "tran_body"), body)]

/-- The local block of a proof-of-work chain holds the values it is judged by;
all rules about its content are met. -/
theorem local_block_fields {self : BlockChain} {pow : ProofOfWork}
    (hpow : self.consensus = some (.pow pow)) {input : BlockChain.LocalInput} {block : Block}
    (h : (self.draft_block input >>= self.complete_block input) = .ok block) :
    ∃ f : ProofOfWork.PowFields, f.Of block ∧ f.time = input.clock ∧
      self.previous_hash = .ok (.str f.prev_hash) ∧
      block.item (lit "block_index") = .ok (.int (self.chain.length + 1)) ∧
      ProofOfWork.get_difficulty pow.settings self.chain = .ok f.difficulty ∧
      (∃ body_hash, calc_body_hash f.tran_body = .ok body_hash ∧
        calc_pow_tran_hash (.str f.prev_hash) body_hash f.nonce = .ok f.tran_hash) ∧
      meets_difficulty f.tran_hash f.difficulty = true := by
  obtain ⟨draft, hdraft, hmine⟩ := bind_eq_ok.mp h
  simp only [BlockChain.draft_block, BlockChain.draft_header, hpow, bind_eq_ok, pure_eq,
    Except.ok.injEq, exists_eq_left'] at hdraft
  obtain ⟨prev, hprev, _, -, _, -, _, -, rfl⟩ := hdraft
  simp only [BlockChain.complete_block, hpow, Consensus.prepare_block] at hmine
  obtain ⟨prev_hash, tran_body, body_hash, difficulty, tran_hash, nonce, hfprev, hbody, hbody_hash,
    hdiff, hhash, hwork, rfl⟩ := mine_block_eq_ok (by rfl) hmine
  obtain rfl : prev = .str prev_hash := Option.some.inj hfprev
  refine ⟨⟨prev_hash, tran_body, nonce, difficulty, tran_hash, input.clock⟩, ?_, rfl, hprev, by rfl,
    hdiff, ⟨body_hash, hbody_hash, hhash⟩, hwork⟩
  refine ⟨?_, ?_, ?_, ⟨.int nonce, ?_, rfl⟩, ⟨.int difficulty, ?_, rfl⟩, ?_, ?_⟩
  · exact (headerIs_dict (Dict.find_set_self _ _ _)).mpr (by rfl)
  · exact (headerIs_dict (Dict.find_set_self _ _ _)).mpr (by rfl)
  · rw [PyVal.item_dict, Dict.find_set_of_ne (by decide), hbody]
    rfl
  · exact (headerIs_dict (Dict.find_set_self _ _ _)).mpr (by rfl)
  · exact (headerIs_dict (Dict.find_set_self _ _ _)).mpr (by rfl)
  · exact (headerIs_dict (Dict.find_set_self _ _ _)).mpr (by rfl)
  · exact ⟨strftime input.clock, by rfl, strptime_strftime input.clock⟩

/-! ## When the validator accepts it -/

/-- The index of the tip is the length of the chain, as far as `+ 1` goes. -/
def TipIndexed (self : BlockChain) : Prop :=
  ∀ tip, self.chain.getLast? = some tip → ∃ last next,
    tip.item (lit "block_index") = .ok last ∧ last.addOne = .ok next ∧
      PyVal.eq (.int (self.chain.length + 1)) next = true

/-- The link of a local block, which goes on the last hash with the next number. -/
theorem local_link_iff {self : BlockChain} {block : Block} {prev_hash : Str} (own_genesis : Str)
    (hprevious : self.previous_hash = .ok (.str prev_hash)) (hprev : PrevHashIs block prev_hash)
    (hindex : block.item (lit "block_index") = .ok (.int (self.chain.length + 1))) :
    Accepts (validate_chain_link own_genesis block self.chain.getLast?
        (some self.genesis_prev_hash)) ↔
      TipIndexed self ∧ (self.chain = [] →
        orDefault (some self.genesis_prev_hash) own_genesis = self.genesis_prev_hash) := by
  unfold BlockChain.previous_hash at hprevious
  unfold TipIndexed
  rcases hlast : self.chain.getLast? with _ | tip
  · rw [hlast] at hprevious
    obtain hgenesis : self.genesis_prev_hash = prev_hash :=
      PyVal.str.inj (Except.ok.inj hprevious)
    have hnil := List.getLast?_eq_none_iff.mp hlast
    rw [accepts_first_link]
    constructor
    · rintro ⟨-, hexpected⟩
      refine ⟨by simp, fun _ => ?_⟩
      exact (PyVal.str.inj (hexpected.unique hprev)).trans hgenesis.symm
    · rintro ⟨-, hexpected⟩
      refine ⟨⟨_, hindex, ?_⟩, ?_⟩
      · rw [hnil]
        decide
      · rw [hexpected hnil, hgenesis]
        exact hprev
  · rw [hlast] at hprevious
    have htran : HeaderIs tip (lit "tran_hash") (.str prev_hash) := by
      obtain ⟨header, hheader, hitem⟩ := bind_eq_ok.mp hprevious
      exact ⟨header, hheader, hitem⟩
    have hne : self.chain ≠ [] := by
      rintro hnil
      simp [hnil] at hlast
    rw [accepts_next_link]
    constructor
    · rintro ⟨-, index, last, next, hindex', hlastidx, hnext, heq⟩
      rw [hindex] at hindex'
      obtain rfl := Except.ok.inj hindex'
      refine ⟨fun tip' htip' => ?_, fun hnil => absurd hnil hne⟩
      obtain rfl := Option.some.inj htip'
      exact ⟨last, next, hlastidx, hnext, heq⟩
    · rintro ⟨hidx, -⟩
      obtain ⟨last, next, hlastidx, hnext, heq⟩ := hidx tip rfl
      exact ⟨⟨_, _, htran, hprev, PyVal.eq_str_iff.mpr rfl⟩, _, last, next, hindex, hlastidx, hnext,
        heq⟩

/-- What local mining relies on and does not check: the clock is not before the
time of the tip, the index of the tip is the length of the chain, and a first
block goes on the genesis hash the validator expects. -/
structure MinesInOrder (blockchain : BlockChain) (pow : ProofOfWork) (clock : DateTime) : Prop where
  clock : ProofOfWork.TimeFollows clock blockchain.chain.getLast?
  index : ∀ tip, blockchain.chain.getLast? = some tip → ∃ last next,
    tip.item (lit "block_index") = .ok last ∧ last.addOne = .ok next ∧
      PyVal.eq (.int (blockchain.chain.length + 1)) next = true
  genesis : blockchain.chain = [] →
    orDefault (some blockchain.genesis_prev_hash) pow.genesis_prev_hash
      = blockchain.genesis_prev_hash

/-- The validator accepts a mined block exactly under the condition. -/
theorem mined_step_iff {self : BlockChain} {pow : ProofOfWork}
    (hpow : self.consensus = some (.pow pow)) {input : BlockChain.LocalInput} {block : Block}
    (h : (self.draft_block input >>= self.complete_block input) = .ok block) :
    PowStep pow self.genesis_prev_hash self.chain block ↔ MinesInOrder self pow input.clock := by
  obtain ⟨f, hof, htime, hprev, hindex, hdiff, hhash, hwork⟩ := local_block_fields hpow h
  have hvalid : Accepts (ProofOfWork.validate_block pow.settings block self.chain) ↔
      ProofOfWork.TimeFollows input.clock self.chain.getLast? := by
    rw [ProofOfWork.accepts_validate_block]
    constructor
    · rintro ⟨f', hof', hvalid⟩
      obtain rfl := hof.unique hof'
      rw [← htime]
      exact hvalid.time
    · intro hfollows
      exact ⟨f, hof, hdiff, by rwa [htime], hhash, hwork⟩
  unfold PowStep
  rw [hvalid, local_link_iff _ hprev hof.prev_hash hindex]
  constructor
  · rintro ⟨⟨htip, hgenesis⟩, hclock⟩
    exact ⟨hclock, htip, hgenesis⟩
  · rintro ⟨hclock, htip, hgenesis⟩
    exact ⟨⟨htip, hgenesis⟩, hclock⟩

/-! ## Runs -/

/-- An operation on the chain of a node. -/
inductive ChainOp
  | add_new_block (input : BlockChain.LocalInput)
  | add_block (block : Block) (genesis_stakes : Option StakeMap)
  | replace_chain (new_chain : List Block) (genesis_stakes : Option StakeMap)

/-- The chain after an operation, whether it succeeds or fails. -/
def ChainOp.step (self : BlockChain) : ChainOp → BlockChain
  | add_new_block input => (self.add_new_block input).2
  | add_block block genesis_stakes => (self.add_block block true genesis_stakes).2
  | replace_chain new_chain genesis_stakes => (self.replace_chain new_chain genesis_stakes).2

/-- The condition on a step: local blocks are mined in order, and a first block
is received on the genesis hash that `verify_chain` will look for. -/
def ChainOp.InOrder (pow : ProofOfWork) (self : BlockChain) : ChainOp → Prop
  | add_new_block input => MinesInOrder self pow input.clock
  | add_block _ _ => self.chain = [] →
      orDefault (some self.genesis_prev_hash) pow.genesis_prev_hash = self.genesis_prev_hash
  | replace_chain _ _ => True

/-- A proof-of-work chain that verifies. -/
structure Sound (pow : ProofOfWork) (blockchain : BlockChain) : Prop where
  consensus : blockchain.consensus = some (.pow pow)
  valid : Verifies (blockchain.verify_chain none)

/-- One step: an operation in order keeps the chain sound. -/
theorem ChainOp.step_sound {pow : ProofOfWork} {self : BlockChain} {op : ChainOp}
    (h : Sound pow self) (hop : op.InOrder pow self) : Sound pow (op.step self) := by
  obtain ⟨hpow, hvalid⟩ := h
  have hvalid' := hvalid
  rw [BlockChain.verify_chain, hpow, pow_verifies_iff] at hvalid'
  obtain ⟨hgenesis, hgrows⟩ := hvalid'
  -- one more block that the validator accepts keeps the chain valid
  have happend : ∀ block, PowStep pow self.genesis_prev_hash self.chain block →
      (self.chain = [] →
        orDefault (some self.genesis_prev_hash) pow.genesis_prev_hash = self.genesis_prev_hash) →
      Sound pow { self with chain := self.chain ++ [block] } := by
    intro block hstep hfirst
    refine ⟨hpow, ?_⟩
    rw [BlockChain.verify_chain, hpow, pow_verifies_iff]
    refine ⟨fun _ => ?_, grows_snoc.mpr ⟨hgrows, hstep⟩⟩
    by_cases hnil : self.chain = []
    · exact hfirst hnil
    · exact hgenesis hnil
  cases op with
  | add_new_block input =>
      change Sound pow (self.add_new_block input).2
      obtain ⟨r, self', hadd⟩ : ∃ r self', self.add_new_block input = (r, self') := ⟨_, _, rfl⟩
      rw [hadd]
      rcases pow_add_new_block_ok hpow hadd with ⟨block, hblock, rfl⟩ | rfl
      · exact happend block ((mined_step_iff hpow hblock).mpr hop) hop.genesis
      · exact ⟨hpow, hvalid⟩
  | add_block block genesis_stakes =>
      change Sound pow (self.add_block block true genesis_stakes).2
      obtain ⟨r, self', hadd⟩ : ∃ r self', self.add_block block true genesis_stakes = (r, self') :=
        ⟨_, _, rfl⟩
      rw [hadd]
      rcases pow_add_block_ok hpow hadd with ⟨rfl, rfl⟩ | ⟨-, rfl⟩
      · exact happend block ((pow_add_block hpow block genesis_stakes).mp hadd) hop
      · exact ⟨hpow, hvalid⟩
  | replace_chain new_chain genesis_stakes =>
      change Sound pow (self.replace_chain new_chain genesis_stakes).2
      obtain ⟨r, self', hreplace⟩ : ∃ r self',
          self.replace_chain new_chain genesis_stakes = (r, self') := ⟨_, _, rfl⟩
      rw [hreplace]
      rcases pow_replace_chain_ok hpow hreplace with ⟨hnew, rfl⟩ | rfl
      · refine ⟨hpow, ?_⟩
        rw [BlockChain.verify_chain, hpow, pow_verifies_iff]
        exact pow_verifies_iff.mp hnew
      · exact ⟨hpow, hvalid⟩

/-- A proof-of-work chain that starts empty verifies after every step of a run
whose local blocks are mined in order. -/
theorem own_chain_stays_valid {pow : ProofOfWork} (g : Str) (ops : List ChainOp)
    (h : AlwaysMeets (fun self op => op.InOrder pow self) ChainOp.step
      (BlockChain.new (some (.pow pow)) g) ops) (k : ℕ) :
    Verifies ((run ChainOp.step (BlockChain.new (some (.pow pow)) g) (ops.take k)).verify_chain
      none) := by
  have hempty : Sound pow (BlockChain.new (some (.pow pow)) g) :=
    ⟨rfl, pow_verifies_iff.mpr ⟨fun hne => absurd rfl hne, grows_nil⟩⟩
  exact (run_invariant_take (fun self op => ChainOp.step_sound) hempty h k).valid

end OwnChain

/-! ## A node that breaks its own chain

A received block may carry any later time, the year 2999 for one. The next
local block then carries an earlier one, and the chain no longer verifies. -/

namespace FutureBlock

attribute [local instance] cpython letterRsa

def pow : ProofOfWork := ⟨⟨1, 10, .fin 2, 1000, 10⟩, DEFAULT_GENESIS_PREV_HASH⟩

/-- A block received in 2024 with a time in 2999. -/
def received : Block := .dict
  [(.str (lit "block_index"), .int 1),
    (.str (lit "block_item"), .str (lit "2999-01-01 00:00:00")),
    (.str (lit "block_header"), .dict
      [(.str (lit "prev_hash"), .str DEFAULT_GENESIS_PREV_HASH),
        (.str (lit "consensus_type"), .str (lit "pow")),
        (.str (lit "tran_hash"),
          .str (lit "0047b0c18dd14038eae51744cd0740fb9501a73dfabaa0c2ec40b34b2ecb12cd")),
        (.str (lit "nonce"), .int 0),
        (.str (lit "difficulty"), .int 1)]),
    (.str (lit "tran_counter"), .int 2),
    (.str (lit "tran_body"), .dict
      [(.str (lit "input_data"), .str (lit "w")), (.str (lit "output_data"), .str (lit "b"))])]

/-- The clock of the node, on the first of January. -/
def newYear (year : ℕ) (h : validFields year 1 1 0 0 0) : DateTime := ⟨year, 1, 1, 0, 0, 0, h⟩

/-- A local transaction at the given time. -/
def input (clock : DateTime) : BlockChain.LocalInput :=
  ⟨.str (lit "p"), .str (lit "b"), clock, []⟩

/-- The chain after the received block. -/
def afterReceived : BlockChain :=
  { BlockChain.new (some (.pow pow)) DEFAULT_GENESIS_PREV_HASH with chain := [received] }

theorem received_step : PowStep pow DEFAULT_GENESIS_PREV_HASH [] received :=
  ⟨⟨.ok, by decide +kernel, rfl⟩, ⟨.ok, by decide +kernel, rfl⟩⟩

theorem add_received :
    (BlockChain.new (some (.pow pow)) DEFAULT_GENESIS_PREV_HASH).add_block received true none
      = (.ok true, afterReceived) :=
  (pow_add_block rfl received none).mpr received_step

theorem time_received : ProofOfWork.HasTime received (newYear 2999 (by decide)) :=
  ⟨_, rfl, by decide⟩

/-- The run of the theorem, with the local block mined a thousand years late
enough. -/
theorem own_chain_in_order :
    Verifies ((run ChainOp.step (BlockChain.new (some (.pow pow)) DEFAULT_GENESIS_PREV_HASH)
      ([.add_block received none, .add_new_block (input (newYear 3000 (by decide)))].take 2)).verify_chain
      none) := by
  apply own_chain_stays_valid
  refine ⟨fun _ => rfl, ?_, trivial⟩
  change MinesInOrder
    ((BlockChain.new (some (.pow pow)) DEFAULT_GENESIS_PREV_HASH).add_block received true none).2 _ _
  rw [add_received]
  refine ⟨?_, ?_, fun h => by cases h⟩
  · rintro _ ⟨⟩
    exact ⟨_, time_received, by decide⟩
  · rintro _ ⟨⟩
    exact ⟨_, _, rfl, rfl, by decide⟩

/-- With the clock of 2024 the node stores a block that its validator refuses. -/
theorem own_chain_invalidated :
    ¬ Verifies ((run ChainOp.step (BlockChain.new (some (.pow pow)) DEFAULT_GENESIS_PREV_HASH)
      [.add_block received none, .add_new_block (input (newYear 2024 (by decide)))]).verify_chain
      none) := by
  have hmined : (afterReceived.draft_block (input (newYear 2024 (by decide))) >>=
      afterReceived.complete_block (input (newYear 2024 (by decide)))).isOk = true := by
    decide +kernel
  rcases hblock : afterReceived.draft_block (input (newYear 2024 (by decide))) >>=
      afterReceived.complete_block (input (newYear 2024 (by decide))) with e | block
  · rw [hblock] at hmined
    cases hmined
  have hrun : run ChainOp.step (BlockChain.new (some (.pow pow)) DEFAULT_GENESIS_PREV_HASH)
      [.add_block received none, .add_new_block (input (newYear 2024 (by decide)))]
      = { afterReceived with chain := [received] ++ [block] } := by
    simp only [run, List.foldl_cons, List.foldl_nil, ChainOp.step, add_received]
    rw [BlockChain.add_new_block, hblock]
    rfl
  rw [hrun]
  intro hverifies
  obtain ⟨-, hgrows⟩ := pow_verifies_iff.mp hverifies
  have hstep : MinesInOrder afterReceived pow (newYear 2024 (by decide)) :=
    (mined_step_iff rfl hblock).mp (grows_snoc.mp hgrows).2
  obtain ⟨time, htime, hle⟩ := hstep.clock received rfl
  obtain rfl := htime.unique time_received
  exact absurd hle (by decide)

end FutureBlock

end EasyBlockchain
