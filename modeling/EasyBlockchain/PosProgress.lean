/-
When a network of proof-of-stake nodes grows.

Every height belongs to one validator. The network passes a height when the node
of that validator proposes there, and otherwise waits for it, for ever if need
be. What is proposed is accepted by every node that has the blocks below, however
late the announcement is: a node that gets the announcements in the order of
their heights keeps up with the network.
-/
import EasyBlockchain.PosNetwork

set_option autoImplicit false

namespace EasyBlockchain

open Py Lib

section Progress

variable [Rsa] [Runtime] {ι : Type} [DecidableEq ι] {genesis : PosGenesis} {own : ι → Option Str}
  {net : PosNetwork ι} {events : List (NetworkEvent ι)}

/-! ## Proposals -/

/-- With event `k`, node `i` puts its own block on a chain of `n` blocks. -/
structure ProposesAt (net : PosNetwork ι) (events : List (NetworkEvent ι)) (k n : ℕ) (i : ι)
    (input : BlockChain.LocalInput) (block : Block) : Prop where
  event : events[k]? = some (.proposes i input)
  height : (net.node_at events k i).blockchain.chain.length = n
  added : ((net.node_at events k i).blockchain.add_new_block input).1 = .ok block

/-- Only a proposal signs a block. -/
theorem PosNetwork.mem_signed_step {event : NetworkEvent ι} {p : ℕ × Block}
    (h : p ∈ (net.step event).signed) :
    p ∈ net.signed ∨ ∃ i input, event = .proposes i input ∧
      (net.nodes i).blockchain.chain.length = p.1 ∧
      ((net.nodes i).blockchain.add_new_block input).1 = .ok p.2 := by
  cases event with
  | receives i payload => exact Or.inl h
  | resolves i fork => exact Or.inl h
  | proposes i input =>
      rcases hadd : (net.nodes i).blockchain.add_new_block input with ⟨e | block, after⟩
      · simp only [PosNetwork.step, hadd] at h
        exact Or.inl h
      · simp only [PosNetwork.step, hadd] at h
        rcases List.mem_append.mp h with h | h
        · exact Or.inl h
        · obtain rfl := List.mem_singleton.mp h
          exact Or.inr ⟨i, input, rfl, rfl, by rw [hadd]⟩

/-- What was signed was proposed at its height before. -/
theorem PosNetwork.proposal_of_signed (hunsigned : net.signed = []) {k : ℕ} {p : ℕ × Block}
    (h : p ∈ (run PosNetwork.step net (events.take k)).signed) :
    ∃ m < k, ∃ i input, ProposesAt net events m p.1 i input p.2 := by
  induction k with
  | zero =>
      rw [List.take_zero, run, List.foldl_nil, hunsigned] at h
      cases h
  | succ k ih =>
      rcases hevent : events[k]? with _ | event
      · -- the run is over
        have hlength : events.length ≤ k := List.getElem?_eq_none_iff.mp hevent
        rw [List.take_of_length_le (by omega), ← List.take_of_length_le hlength] at h
        obtain ⟨m, hm, hproposal⟩ := ih h
        exact ⟨m, by omega, hproposal⟩
      · rw [run_take_succ PosNetwork.step net hevent] at h
        rcases PosNetwork.mem_signed_step h with h | ⟨i, input, rfl, hheight, hadded⟩
        · obtain ⟨m, hm, hproposal⟩ := ih h
          exact ⟨m, by omega, hproposal⟩
        · exact ⟨k, by omega, i, input, hevent, hheight, hadded⟩

variable {k n : ℕ} {i : ι} {input : BlockChain.LocalInput} {block : Block}

/-- After its proposal the node has the block. -/
theorem ProposesAt.after (h : ProposesAt net events k n i input block)
    (hsound : (run PosNetwork.step net (events.take k)).Sound genesis own) :
    (net.node_at events (k + 1) i).blockchain.chain
      = (net.node_at events k i).blockchain.chain ++ [block] := by
  have hadd : (net.node_at events k i).blockchain.add_new_block input
      = (.ok block, ((net.node_at events k i).blockchain.add_new_block input).2) := by
    rw [← h.added]
  obtain ⟨-, -, -, -, -, hafter, -⟩ := hsound.proposal hadd
  refine Eq.trans ?_ hafter
  simp only [PosNetwork.node_at] at hadd ⊢
  rw [run_take_succ PosNetwork.step net h.event]
  simp only [PosNetwork.step]
  rw [hadd]
  simp [PosNetwork.set]

/-- The chain of a node does not get shorter. -/
theorem PosNetwork.Starts.length_le (hstart : net.Starts genesis own)
    (hallowed : AlwaysMeets PosNetwork.Allows PosNetwork.step net events) (i : ι) {s t : ℕ}
    (hst : s ≤ t) : (net.node_at events s i).blockchain.chain.length
      ≤ (net.node_at events t i).blockchain.chain.length := by
  have hlog := length_le_of_steps (hstart.sound.log_steps hallowed) i hst
  simpa [PosNetwork.logs, PosNetwork.node_at] using hlog

/-- The network has passed a height, at some node, exactly if the node of the
validator that is scheduled for it has proposed there. While that node does not
propose, or when no node has the validator's key, no chain is longer. -/
theorem network_passes_iff (hstart : net.Starts genesis own)
    (hallowed : AlwaysMeets PosNetwork.Allows PosNetwork.step net events) (t n : ℕ) :
    (∃ j, n < (net.node_at events t j).blockchain.chain.length) ↔
      ∃ k < t, ∃ i input block id, ProposesAt net events k n i input block ∧ own i = some id ∧
        scheduled_proposer genesis.settings genesis.stakes n = .ok id := by
  have hsound := hstart.sound.run_take hallowed
  constructor
  · rintro ⟨j, hn⟩
    obtain ⟨p, hp, heq⟩ := List.mem_map.mp ((hsound t).written hn)
    obtain ⟨k, hk, i, input, hproposes⟩ := PosNetwork.proposal_of_signed hstart.unsigned hp
    rw [(Prod.mk.inj heq).1] at hproposes
    have hadd : (net.node_at events k i).blockchain.add_new_block input
        = (.ok p.2, ((net.node_at events k i).blockchain.add_new_block input).2) := by
      rw [← hproposes.added]
    obtain ⟨-, id, -, hown, hscheduled, -⟩ := (hsound k).proposal hadd
    refine ⟨k, hk, i, input, p.2, id, hproposes, hown, ?_⟩
    rw [← hproposes.height]
    exact hscheduled
  · rintro ⟨k, hk, i, input, block, -, hproposes, -, -⟩
    refine ⟨i, lt_of_lt_of_le ?_ (hstart.length_le hallowed i (show k + 1 ≤ t by omega))⟩
    rw [hproposes.after (hsound k), List.length_append, List.length_singleton, hproposes.height]
    omega

/-! ## A block on two chains that were signed alike -/

omit [Rsa] in
/-- Accepted blocks that were signed as the same bytes have one hash. -/
theorem tran_hash_of_content {x y : Block} {f f' : ProofOfStake.PosFields} (hx : Legible x)
    (hy : Legible y) (hsame : signed_content x = signed_content y) (hof : f.Of x) (hof' : f'.Of y)
    (hhash : Scalars f.tran_hash) (hhash' : Scalars f'.tran_hash) : f.tran_hash = f'.tran_hash := by
  have hsome : (signed_content x).isSome := by
    rw [signed_content_of hof]
    rfl
  have hread : transmitted (.str f.tran_hash) = transmitted (.str f'.tran_hash) :=
    header_of_content hx hy hsame hsome (plain_of_all (by decide)) hof.tran_hash hof'.tran_hash
  rw [transmitted_str hhash, transmitted_str hhash'] at hread
  exact PyVal.str.inj hread

omit [Rsa] [Runtime] in
theorem getLast?_of_length {chain : List Block} {n : ℕ} (hn : n < chain.length)
    (hlength : chain.length = n + 1) : chain.getLast? = some chain[n] := by
  rw [List.getLast?_eq_getElem?, hlength, Nat.add_sub_cancel, List.getElem?_eq_getElem hn]

omit [DecidableEq ι] in
/-- A block that may follow the chain of one node may follow a chain that was
signed alike, at a node that knows the same key of its validator. -/
theorem PosNetwork.Sound.follows {net' : PosNetwork ι} (h : net.Sound genesis own)
    (h' : net'.Sound genesis own) {j : ι} {pos pos' : ProofOfStake}
    (hmember : Member genesis (own i) (net.nodes i) pos)
    (hmember' : Member genesis (own j) (net'.nodes j) pos')
    (hsame : net.logs.log i = net'.logs.log j)
    (hkey : ∀ f : ProofOfStake.PosFields, f.Of block →
      pos'.validator_public_keys.find f.validator_id
        = pos.validator_public_keys.find f.validator_id)
    (hstep : PosStep pos genesis.prev_hash genesis.stakes (net.nodes i).blockchain.chain block) :
    PosStep pos' genesis.prev_hash genesis.stakes (net'.nodes j).blockchain.chain block := by
  obtain ⟨p, hp, hgrows⟩ := h.member i
  obtain rfl := hp.unique hmember
  obtain ⟨p', hp', hgrows'⟩ := h'.member j
  obtain rfl := hp'.unique hmember'
  have hlength : (net.nodes i).blockchain.chain.length = (net'.nodes j).blockchain.chain.length := by
    simpa [PosNetwork.logs] using congrArg List.length hsame
  obtain ⟨hlink, f, hof, hvalid⟩ := hstep
  refine ⟨?_, f, hof, ?_⟩
  · rw [hmember'.expected]
    rw [hmember.expected] at hlink
    rcases hn : (net.nodes i).blockchain.chain.length with _ | n
    · have hempty : (net'.nodes j).blockchain.chain = [] := List.length_eq_zero_iff.mp (by omega)
      rw [List.length_eq_zero_iff.mp hn] at hlink
      rw [hempty]
      exact hlink
    -- the tips were signed as the same bytes, so they have one hash and one index
    have hi : n < (net.nodes i).blockchain.chain.length := by omega
    have hj : n < (net'.nodes j).blockchain.chain.length := by omega
    have hcontent : signed_content (net.nodes i).blockchain.chain[n]
        = signed_content (net'.nodes j).blockchain.chain[n] := by
      have hget := congrArg (fun log => log[n]?) hsame
      simpa [PosNetwork.logs, hi, hj] using hget
    obtain ⟨-, ftip, hoftip, hvalidtip⟩ := hgrows.getElem hi
    obtain ⟨-, ftip', hoftip', hvalidtip'⟩ := hgrows'.getElem hj
    obtain ⟨_, -, hash⟩ := hvalidtip.hash
    obtain ⟨_, -, hash'⟩ := hvalidtip'.hash
    have hhash := tran_hash_of_content (h.legible i _ (List.getElem_mem hi))
      (h'.legible j _ (List.getElem_mem hj)) hcontent hoftip hoftip'
      (scalars_of_pos_hash hash).2.2 (scalars_of_pos_hash hash').2.2
    rw [getLast?_of_length hi hn, accepts_next_link] at hlink
    rw [getLast?_of_length hj (by omega), accepts_next_link]
    obtain ⟨⟨tran, prev, htran, hprev, heq⟩, index, last, next, hindex, hlast, hnext, hone⟩ := hlink
    obtain rfl := hoftip.tran_hash.unique htran
    rw [h.index_eq hi] at hlast
    refine ⟨⟨_, prev, hoftip'.tran_hash, hprev, ?_⟩, index, last, next, hindex, ?_, hnext, hone⟩
    · rw [← hhash]
      exact heq
    · rw [h'.index_eq hj]
      exact hlast
  · refine ⟨hvalid.named, ?_, ?_, ?_, hvalid.hash, ?_, hvalid.signed⟩
    · rw [hvalid.slot, hlength]
    · rw [rewarded_eq_scheduled hgrows', hmember'.settings, ← hlength, ← hmember.settings,
        ← rewarded_eq_scheduled hgrows]
      exact hvalid.known
    · rw [rewarded_eq_scheduled hgrows', hmember'.settings, ← hlength, ← hmember.settings,
        ← rewarded_eq_scheduled hgrows]
      exact hvalid.proposer
    · rw [hkey f hof]
      exact hvalid.registered

/-! ## The keys that the nodes know -/

omit [Runtime] [DecidableEq ι] in
/-- Every node knows, of the validator of every node, the key that this node
knows as its own. -/
def PosNetwork.KeysKnown (own : ι → Option Str) (net : PosNetwork ι) : Prop :=
  ∀ i j id pos pos', own i = some id → (net.nodes i).blockchain.consensus = some (.pos pos) →
    (net.nodes j).blockchain.consensus = some (.pos pos') →
    pos'.validator_public_keys.find id = pos.validator_public_keys.find id

/-- A step changes the chain of one node, as its operations do. -/
theorem PosNetwork.step_node (net : PosNetwork ι) (event : NetworkEvent ι) (j : ι) :
    (net.step event).nodes j = net.nodes j ∨
      ∃ op, (net.step event).nodes j = (net.nodes j).stake_step op := by
  have hset : ∀ (i : ι) (node : Node), (node = net.nodes i ∨
      ∃ op, node = (net.nodes i).stake_step op) → (net.set i node).nodes j = net.nodes j ∨
        ∃ op, (net.set i node).nodes j = (net.nodes j).stake_step op := by
    intro i node hnode
    by_cases hj : j = i
    · subst hj
      simpa [PosNetwork.set] using hnode
    · simp [PosNetwork.set, Function.update_of_ne hj]
  cases event with
  | proposes i input =>
      have hnode := hset i _ (Or.inr ⟨.add_new_block input, rfl⟩)
      rcases hadd : (net.nodes i).blockchain.add_new_block input with ⟨e | block, after⟩
      · simpa only [PosNetwork.step, hadd, Node.stake_step] using hnode
      · simpa only [PosNetwork.step, hadd, Node.stake_step] using hnode
  | resolves i fork => exact hset i _ (Or.inr ⟨.resolve_fork fork, rfl⟩)
  | receives i payload =>
      apply hset i
      unfold Node.new_block
      split
      · exact Or.inr ⟨.add_block _, rfl⟩
      · exact Or.inl rfl

/-- No step changes the keys that a node knows. -/
theorem PosNetwork.Sound.keys_step (h : net.Sound genesis own) (event : NetworkEvent ι) {j : ι}
    {pos' : ProofOfStake}
    (hconsensus : ((net.step event).nodes j).blockchain.consensus = some (.pos pos')) :
    ∃ pos, (net.nodes j).blockchain.consensus = some (.pos pos) ∧
      pos'.validator_public_keys = pos.validator_public_keys := by
  obtain ⟨pos, hmember, hgrows⟩ := h.member j
  refine ⟨pos, hmember.consensus, ?_⟩
  rcases net.step_node event j with hsame | ⟨op, hop⟩
  · rw [hsame, hmember.consensus] at hconsensus
    rw [Consensus.pos.inj (Option.some.inj hconsensus)]
  · obtain ⟨next, hnext, hrules⟩ := hmember.stake_step hgrows op
    rw [hop, hnext.consensus] at hconsensus
    rw [← Consensus.pos.inj (Option.some.inj hconsensus)]
    exact hrules.keys

/-- The run lemma: a node knows the keys it started with. -/
theorem PosNetwork.Starts.keys_kept (hstart : net.Starts genesis own)
    (hallowed : AlwaysMeets PosNetwork.Allows PosNetwork.step net events) (t : ℕ) (j : ι)
    {pos' : ProofOfStake}
    (hconsensus : (net.node_at events t j).blockchain.consensus = some (.pos pos')) :
    ∃ pos, (net.nodes j).blockchain.consensus = some (.pos pos) ∧
      pos'.validator_public_keys = pos.validator_public_keys := by
  have hinvariant : (run PosNetwork.step net (events.take t)).Sound genesis own ∧
      ∀ pos', (net.node_at events t j).blockchain.consensus = some (.pos pos') →
        ∃ pos, (net.nodes j).blockchain.consensus = some (.pos pos) ∧
          pos'.validator_public_keys = pos.validator_public_keys := by
    refine run_invariant_take (I := fun now => now.Sound genesis own ∧
      ∀ pos', (now.nodes j).blockchain.consensus = some (.pos pos') →
        ∃ pos, (net.nodes j).blockchain.consensus = some (.pos pos) ∧
          pos'.validator_public_keys = pos.validator_public_keys) ?_ ?_ hallowed t
    · rintro now event ⟨hsound, hkept⟩ hallows
      refine ⟨(hsound.step event hallows).2, ?_⟩
      intro pos' hpos'
      obtain ⟨pos, hpos, hkeys⟩ := hsound.keys_step event hpos'
      obtain ⟨first, hfirst, hsame⟩ := hkept pos hpos
      exact ⟨first, hfirst, hkeys.trans hsame⟩
    · exact ⟨hstart.sound, fun pos' hpos' => ⟨pos', hpos', rfl⟩⟩
  exact hinvariant.2 pos' hconsensus

/-- So nodes that know each other's keys at the start know them at all times. -/
theorem PosNetwork.Starts.keysKnown (hstart : net.Starts genesis own)
    (hkeys : net.KeysKnown own)
    (hallowed : AlwaysMeets PosNetwork.Allows PosNetwork.step net events) {s t : ℕ} {i j : ι}
    {id : Str} {pos pos' : ProofOfStake} (hown : own i = some id)
    (hi : (net.node_at events s i).blockchain.consensus = some (.pos pos))
    (hj : (net.node_at events t j).blockchain.consensus = some (.pos pos')) :
    pos'.validator_public_keys.find id = pos.validator_public_keys.find id := by
  obtain ⟨p, hp, hpkeys⟩ := hstart.keys_kept hallowed s i hi
  obtain ⟨p', hp', hpkeys'⟩ := hstart.keys_kept hallowed t j hj
  rw [hpkeys, hpkeys']
  exact hkeys i j id p p' hown hp hp'

/-! ## Announcements -/

/-- Node `j` gets the block of a height with event `m`: it proposes it, or a
`NEW_BLOCK` brings what JSON makes of the block that another node proposed. The
keys of the transaction are in the order of their texts. -/
inductive GetsBlock (net : PosNetwork ι) (events : List (NetworkEvent ι)) (j : ι) (n m : ℕ) : Prop
  | own (input : BlockChain.LocalInput) (block : Block)
      (proposed : ProposesAt net events m n j input block)
  | announced (k : ℕ) (i : ι) (input : BlockChain.LocalInput) (block : Block) (payload : Dict)
      (proposed : ProposesAt net events k n i input block)
      (stable : KeysStable true input.transaction)
      (received : events[m]? = some (.receives j payload))
      (carried : Dict.find payload (lit "block") = some (transmitted block))

omit [DecidableEq ι] in
theorem add_block_of_checks {self : BlockChain} {genesis_stakes : StakeMap}
    (h : self.received_checks block (some genesis_stakes) = .ok true) :
    (self.add_block block true (some genesis_stakes)).2 = (self.append block).2 := by
  unfold BlockChain.add_block
  rw [if_pos rfl, h]
  simp only
  rcases self.append block with ⟨_ | _, _⟩
  · rfl
  · rfl

/-- An announced block is accepted by a node with the blocks below it, or the
node has a block at its height. -/
theorem announcement_accepted (hstart : net.Starts genesis own) (hkeys : net.KeysKnown own)
    (hallowed : AlwaysMeets PosNetwork.Allows PosNetwork.step net events) {m : ℕ} {j : ι}
    {payload : Dict} (hproposed : ProposesAt net events k n i input block)
    (hstable : KeysStable true input.transaction)
    (hreceived : events[m]? = some (.receives j payload))
    (hcarried : Dict.find payload (lit "block") = some (transmitted block))
    (hbelow : n ≤ (net.node_at events m j).blockchain.chain.length) :
    n < (net.node_at events (m + 1) j).blockchain.chain.length := by
  rcases Nat.lt_or_ge n (net.node_at events m j).blockchain.chain.length with hlt | hge
  · exact lt_of_lt_of_le hlt (hstart.length_le hallowed j (Nat.le_succ m))
  have hlength : (net.node_at events m j).blockchain.chain.length = n := by omega
  have hsound := hstart.sound.run_take hallowed
  have hadd : (net.node_at events k i).blockchain.add_new_block input
      = (.ok block, ((net.node_at events k i).blockchain.add_new_block input).2) := by
    rw [← hproposed.added]
  obtain ⟨pos, id, hmember, hown, hscheduled, -, hblock, hstep⟩ := (hsound k).proposal hadd
  obtain ⟨pos', hmember', hgrows'⟩ := (hsound m).member j
  -- the two chains have one length, so they were signed alike
  have hsame : net.log_at events k i = net.log_at events m j := by
    have hlengths : (net.log_at events k i).length = (net.log_at events m j).length := by
      simp only [PosNetwork.log_at, List.length_map]
      rw [hproposed.height, hlength]
    rcases (hsound 0).logs.agree (hstart.sound.log_steps hallowed) i j k m with hpre | hpre
    · exact hpre.eq_of_length hlengths
    · exact (hpre.eq_of_length hlengths.symm).symm
  have hnext : PosStep pos' genesis.prev_hash genesis.stakes
      (net.node_at events m j).blockchain.chain block := by
    refine (hsound k).follows (hsound m) hmember hmember' hsame ?_ hstep
    intro f hof
    obtain ⟨-, -, f', hof', -, -, hid, -⟩ := proposed_block_fields hmember.consensus hblock
    obtain rfl := hof.unique hof'
    exact hstart.keysKnown hkeys hallowed (hmember.own_id.symm.trans hid) hmember.consensus
      hmember'.consensus
  obtain ⟨d, header, counter, rfl, hform⟩ := proposed_form hmember.consensus hblock
  have htransmitted := pos_step_transmitted hform hnext hstable
  obtain ⟨entry, entries, hentries⟩ : ∃ entry entries,
      transmitted (.dict d) = .dict (entry :: entries) := by
    have hitem := hform.built.item hform.built.has_header
    rw [transmitted, hform.built.record.reread_eq rfl] at hitem ⊢
    rcases hentries : rereadRecord sortedAscii d with _ | ⟨entry, entries⟩
    · rw [hentries] at hitem
      cases hitem
    · exact ⟨entry, entries, rfl⟩
  rw [hentries] at htransmitted hcarried
  have hreceives : net.node_at events (m + 1) j = ((net.node_at events m j).new_block payload).2 := by
    simp only [PosNetwork.node_at]
    rw [run_take_succ PosNetwork.step net hreceived]
    simp [PosNetwork.step, PosNetwork.set]
  have hchecks : (net.node_at events m j).blockchain.received_checks (.dict (entry :: entries))
      (some (net.node_at events m j).genesis_stakes) = .ok true := by
    refine (pos_received_checks hmember'.consensus _
      (Consensus.namesValidators_of_grows hgrows') _).mpr ?_
    have hstakes := hmember'.node_stakes
    have hprev := hmember'.prev_hash
    simp only [PosNetwork.node_at] at htransmitted ⊢
    rw [hstakes, hprev]
    exact htransmitted
  rw [hreceives]
  simp only [Node.new_block, hcarried]
  rw [add_block_of_checks hchecks, (core_append _ _).2, List.length_append, List.length_singleton]
  omega

/-- A node that gets a block at its height has one there afterwards. -/
theorem GetsBlock.grows {j : ι} {m : ℕ} (h : GetsBlock net events j n m)
    (hstart : net.Starts genesis own) (hkeys : net.KeysKnown own)
    (hallowed : AlwaysMeets PosNetwork.Allows PosNetwork.step net events)
    (hbelow : n ≤ (net.node_at events m j).blockchain.chain.length) :
    n < (net.node_at events (m + 1) j).blockchain.chain.length := by
  cases h with
  | own input block proposed =>
      rw [proposed.after (hstart.sound.run_take hallowed m), List.length_append,
        List.length_singleton]
      omega
  | announced k i input block payload proposed stable received carried =>
      exact announcement_accepted hstart hkeys hallowed proposed stable received carried hbelow

/-- At a height that a node reached it holds what was proposed there. -/
theorem ProposesAt.log_at (h : ProposesAt net events k n i input block)
    (hstart : net.Starts genesis own)
    (hallowed : AlwaysMeets PosNetwork.Allows PosNetwork.step net events) {t : ℕ} {j : ι}
    (hn : n < (net.node_at events t j).blockchain.chain.length) :
    (net.log_at events t j)[n]? = some (signed_content block) := by
  have hsound := hstart.sound.run_take hallowed
  have hown : (net.log_at events (k + 1) i)[n]? = some (signed_content block) := by
    rw [PosNetwork.log_at, h.after (hsound k), List.getElem?_map, ← h.height,
      List.getElem?_concat_length, Option.map_some]
  have hlog : n < (net.log_at events t j).length := by
    rw [PosNetwork.log_at, List.length_map]
    exact hn
  obtain ⟨hown_length, -⟩ := List.getElem?_eq_some_iff.mp hown
  rcases (hsound 0).logs.agree (hstart.sound.log_steps hallowed) i j (k + 1) t with
    ⟨rest, hrest⟩ | ⟨rest, hrest⟩
  · change net.log_at events (k + 1) i ++ rest = net.log_at events t j at hrest
    rw [← hrest, List.getElem?_append_left hown_length, hown]
  · change net.log_at events t j ++ rest = net.log_at events (k + 1) i at hrest
    rw [← hown, ← hrest, List.getElem?_append_left hlog]

omit [Rsa] in
/-- What is announced is readable, if its transaction is once read. -/
theorem BuiltBlock.readable {d header : Dict} {body : PyVal} (h : BuiltBlock d header body)
    (hbody : Readable (transmitted body)) : Readable (transmitted (.dict d)) := by
  have hatom : ∀ v, Atom v → Readable (transmitted v) := by
    rintro v (⟨s, rfl⟩ | ⟨i, rfl⟩)
    · trivial
    · trivial
  apply h.record.readable rfl
  intro p hp
  rcases h.entries p hp with hv | hv | hv
  · rw [hv]
    exact h.header_record.readable rfl fun q hq => hatom q.2 (h.header_entries q hq)
  · rw [hv]
    exact hbody
  · exact hatom p.2 hv

/-- An announcement may be delivered at any later time. -/
theorem announcement_allowed (hstart : net.Starts genesis own)
    (hallowed : AlwaysMeets PosNetwork.Allows PosNetwork.step net events) {m : ℕ} {j : ι}
    {payload : Dict} (hearlier : k < m) (hproposed : ProposesAt net events k n i input block)
    (hstable : KeysStable true input.transaction)
    (hreadable : Readable (transmitted input.transaction))
    (hcarried : Dict.find payload (lit "block") = some (transmitted block)) :
    (run PosNetwork.step net (events.take m)).Allows (.receives j payload) := by
  have hsound := hstart.sound.run_take hallowed
  have hadd : (net.node_at events k i).blockchain.add_new_block input
      = (.ok block, ((net.node_at events k i).blockchain.add_new_block input).2) := by
    rw [← hproposed.added]
  obtain ⟨pos, -, hmember, -, -, -, hblock, -⟩ := (hsound k).proposal hadd
  obtain ⟨d, header, counter, rfl, hform⟩ := proposed_form hmember.consensus hblock
  intro delivered hdelivered
  rw [hcarried] at hdelivered
  obtain rfl := Option.some.inj hdelivered
  refine ⟨hform.built.readable hreadable, ?_⟩
  intro pos' f' _ hof' _ _
  -- the bytes that are signed are those of the proposed block
  obtain ⟨-, -, f, hof, -⟩ := proposed_block_fields hmember.consensus hblock
  obtain ⟨e, he, hcontent⟩ := hof.content
  obtain rfl := PyVal.dict.inj he
  obtain ⟨e', he', hcontent'⟩ := hof'.content
  rw [transmitted, hform.built.record.reread_eq rfl] at he'
  obtain rfl := PyVal.dict.inj he'
  rw [signed_bytes_transmitted hform.built hstable hcontent] at hcontent'
  have hwritten : (n, signed_content (.dict d))
      ∈ (run PosNetwork.step net (events.take (k + 1))).logs.written := by
    have hn : n < (net.node_at events (k + 1) i).blockchain.chain.length := by
      rw [hproposed.after (hsound k), List.length_append, List.length_singleton, hproposed.height]
      omega
    exact (hsound (k + 1)).logs.covered i n _ (hproposed.log_at hstart hallowed hn)
  have hmonotone := written_subset_of_steps (hstart.sound.log_steps hallowed)
    (show k + 1 ≤ m by omega) hwritten
  obtain ⟨p, hp, heq⟩ := List.mem_map.mp hmonotone
  refine ⟨p, hp, ?_⟩
  rw [(Prod.mk.inj heq).2, signed_content_of hof, Except.ok.inj hcontent']

end Progress

/-! ## The validator and the observer -/

namespace TwoNodes

attribute [local instance] cpython letterRsa

def proposal : NetworkEvent Bool := .proposes true Proposals.input

/-- The observer gets what JSON makes of the proposed block. -/
def announcement : NetworkEvent Bool :=
  .receives false [(.str (lit "block"), transmitted announced)]

theorem proposesAt (later : List (NetworkEvent Bool)) :
    ProposesAt net (proposal :: later) 0 0 true Proposals.input announced where
  event := rfl
  height := rfl
  added := congrArg Prod.fst adds

theorem announcement_allows : AlwaysMeets PosNetwork.Allows PosNetwork.step net
    [proposal, announcement] := by
  have hproposal : AlwaysMeets PosNetwork.Allows PosNetwork.step net [proposal] :=
    ⟨⟨trivial, trivial, trivial⟩, trivial⟩
  have hrecord : Record [(.str (lit "input_data"), Proposals.input.input_data),
      (.str (lit "output_data"), Proposals.input.output_data)] :=
    record_of_keys [lit "input_data", lit "output_data"] rfl (by decide) (by decide)
  have hreadable : Readable (transmitted Proposals.input.transaction) := by
    apply hrecord.readable rfl
    intro p hp
    simp only [List.mem_cons, List.not_mem_nil, or_false] at hp
    rcases hp with rfl | rfl
    · trivial
    · trivial
  have hcarried : Dict.find [(.str (lit "block"), transmitted announced)] (lit "block")
      = some (transmitted announced) := rfl
  have hallows : (run PosNetwork.step net ([proposal].take 1)).Allows announcement :=
    announcement_allowed starts hproposal Nat.zero_lt_one (proposesAt [])
      (transaction_keysStable.mpr ⟨trivial, trivial⟩) hreadable hcarried
  have hnow : run PosNetwork.step net ([proposal].take 1) = PosNetwork.step net proposal := by
    rw [List.take_of_length_le (le_refl 1), run, List.foldl_cons, List.foldl_nil]
  rw [hnow] at hallows
  exact ⟨hproposal.1, hallows, trivial⟩

theorem keysKnown : net.KeysKnown own := by
  have hkeys : ∀ i pos, (net.nodes i).blockchain.consensus = some (.pos pos) →
      pos.validator_public_keys = .single (lit "v") (lit "-----A") := by
    intro i pos hpos
    cases i with
    | true =>
        obtain rfl := Consensus.pos.inj (Option.some.inj hpos)
        rfl
    | false =>
        obtain rfl := Consensus.pos.inj (Option.some.inj hpos)
        rfl
  intro i j id pos pos' _ hi hj
  rw [hkeys i pos hi, hkeys j pos' hj]

theorem first_height_passed : ∃ k < 2, ∃ i input block id,
    ProposesAt net [proposal, announcement] k 0 i input block ∧ own i = some id ∧
      scheduled_proposer genesis.settings genesis.stakes 0 = .ok id :=
  (network_passes_iff starts announcement_allows 2 0).mp ⟨true, by decide +kernel⟩

end TwoNodes

end EasyBlockchain
