/-
A network of proof-of-stake nodes that started from one genesis.

Nodes propose blocks, receive announced ones and resolve forks, in any order and
with whatever the network delivers. The proposers are fixed by the genesis, and
a node never proposes twice at one height, because its chain never gets shorter.
So as long as signatures cannot be forged, the network keeps one log: what two
nodes accepted at one height, at whatever times, was signed as the same bytes.

The log itself, with one writer for each position, is `Lib.SlotLog`; this module
shows that the network is one.
-/
import EasyBlockchain.Announcement
import EasyBlockchain.Lib.SlotLog
import EasyBlockchain.NodeChanges
import EasyBlockchain.ProposerSchedule
import EasyBlockchain.Py.JsonFields

set_option autoImplicit false

namespace EasyBlockchain

open Py Lib

section Content

variable [Runtime]

/-! ## What a signature covers -/

/-- The bytes that the signature of a block covers. -/
def signed_content : Block → Option (List UInt8)
  | .dict d => (signed_bytes (unsigned d)).toOption
  | _ => none

theorem signed_content_of {f : ProofOfStake.PosFields} {block : Block} (h : f.Of block) :
    signed_content block = some f.content := by
  obtain ⟨d, rfl, hcontent⟩ := h.content
  simp [signed_content, hcontent, Except.toOption]

/-- A block with different string keys, and so its header, whose floats are read
as they are written. -/
def Legible (block : Block) : Prop :=
  ∃ d header, block = .dict d ∧ Object d ∧
    Dict.find d (lit "block_header") = some (.dict header) ∧ Object header ∧ FloatsRead block

/-- What JSON text can hold is legible, where the header is an object. -/
theorem legible_of_readable {block : Block} (h : Readable block) {key : Str} {v : PyVal}
    (hheader : HeaderIs block key v) : Legible block := by
  obtain ⟨header, hitem, hv⟩ := hheader
  obtain ⟨d, rfl, hfind⟩ := PyVal.item_eq_ok.mp hitem
  obtain ⟨header, rfl, -⟩ := PyVal.item_eq_ok.mp hv
  have hinner : Readable (.dict header) := readable_of_mem h _ (mem_of_find hfind)
  exact ⟨d, header, rfl, object_of_readable h, hfind, object_of_readable hinner,
    floatsRead_of_readable _ h⟩

theorem floatsRead_unsigned {d : Dict} (h : FloatsRead (.dict d)) :
    FloatsRead (.dict (unsigned d)) := by
  rw [FloatsRead, floatsReadDict_iff] at h ⊢
  intro p hp
  exact h p (List.mem_of_mem_filter (List.mem_of_mem_filter hp))

/-- Legible blocks with one signed text hold values that are read alike, under the
keys that are signed. -/
theorem item_of_content {x y : Block} (hx : Legible x) (hy : Legible y)
    (h : signed_content x = signed_content y) (hsome : (signed_content x).isSome) {key : Str}
    (hplain : Plain key) (hsignature : key ≠ lit "signature") (hpublic : key ≠ lit "public_key")
    {v w : PyVal} (hv : x.item key = .ok v) (hw : y.item key = .ok w) :
    reread sortedAscii v = reread sortedAscii w := by
  obtain ⟨d, -, rfl, hd, -, -, hfloats⟩ := hx
  obtain ⟨e, -, rfl, he, -, -, hfloats'⟩ := hy
  obtain ⟨bytes, hbytes⟩ := Option.isSome_iff_exists.mp hsome
  have htext : ∀ {b : Dict}, signed_content (.dict b) = some bytes →
      ∃ text, dumps sortedAscii (.dict (unsigned b)) = .ok text ∧ utf8 text = some bytes := by
    intro b hb
    simp only [signed_content] at hb
    rcases hs : signed_bytes (unsigned b) with e | bs
    · rw [hs] at hb
      cases hb
    · rw [hs] at hb
      obtain rfl := Option.some.inj hb
      simp only [signed_bytes, bind_eq_ok, encode, orRaise_eq_ok] at hs
      exact hs
  obtain ⟨text, hdumps, hutf⟩ := htext hbytes
  obtain ⟨text', hdumps', hutf'⟩ := htext (h ▸ hbytes)
  obtain rfl := utf8_inj hutf hutf'
  have hread := reread_eq_of_dumps (floatsRead_unsigned hfloats) (floatsRead_unsigned hfloats')
    hdumps hdumps'
  have hod : Object (unsigned d) := (hd.without _).without _
  have hoe : Object (unsigned e) := (he.without _).without _
  have hfind : ∀ b : Dict, Dict.find (unsigned b) key = Dict.find b key := by
    intro b
    rw [unsigned, Dict.find_without, if_neg hpublic, Dict.find_without, if_neg hsignature]
  rw [PyVal.item_dict, orRaise_eq_ok] at hv hw
  exact hod.field_of_reread hoe hread hplain ((hfind d).trans hv) ((hfind e).trans hw)

/-- The same of the values in their headers. -/
theorem header_of_content {x y : Block} (hx : Legible x) (hy : Legible y)
    (h : signed_content x = signed_content y) (hsome : (signed_content x).isSome) {key : Str}
    (hplain : Plain key) {v w : PyVal} (hv : HeaderIs x key v) (hw : HeaderIs y key w) :
    reread sortedAscii v = reread sortedAscii w := by
  obtain ⟨header, hheader, hv⟩ := hv
  obtain ⟨header', hheader', hw⟩ := hw
  have hread := item_of_content hx hy h hsome (plain_of_all (by decide)) (by decide) (by decide)
    hheader hheader'
  obtain ⟨d, own_header, rfl, -, hfind, hobject, -⟩ := hx
  obtain ⟨e, own_header', rfl, -, hfind', hobject', -⟩ := hy
  rw [PyVal.item_dict, hfind] at hheader
  rw [PyVal.item_dict, hfind'] at hheader'
  obtain rfl := Except.ok.inj hheader
  obtain rfl := Except.ok.inj hheader'
  rw [PyVal.item_dict, orRaise_eq_ok] at hv hw
  exact hobject.field_of_reread hobject' hread hplain hv hw

/-- Legible blocks with one signed text agree on their slots and their indices. -/
theorem fields_of_content {x y : Block} (hx : Legible x) (hy : Legible y)
    (h : signed_content x = signed_content y) (hsome : (signed_content x).isSome) {i j : ℤ}
    (hi : HeaderIs x (lit "slot") (.int i)) (hj : HeaderIs y (lit "slot") (.int j)) :
    i = j ∧ ∀ v (n : ℤ), x.item (lit "block_index") = .ok v →
      y.item (lit "block_index") = .ok (.int n) → v = .int n := by
  constructor
  · exact PyVal.int.inj (header_of_content hx hy h hsome (plain_of_all (by decide)) hi hj)
  · intro v n hv hn
    exact eq_int_of_reread (item_of_content hx hy h hsome (plain_of_all (by decide)) (by decide)
      (by decide) hv hn)

end Content

section Network

variable [Rsa] {ι : Type} [DecidableEq ι]

/-! ## The network -/

/-- The nodes, and the blocks they proposed so far, each with the length of the
chain it was proposed on. -/
structure PosNetwork (ι : Type) [Rsa] where
  nodes : ι → Node
  signed : List (ℕ × Block)

/-- What happens at one node. -/
inductive NetworkEvent (ι : Type)
  /-- it proposes a block -/
  | proposes (i : ι) (input : BlockChain.LocalInput)
  /-- a `NEW_BLOCK` arrives -/
  | receives (i : ι) (payload : Dict)
  /-- a synchronisation ends with these blocks -/
  | resolves (i : ι) (fork : List Block)

/-- The network with another state of one node. -/
def PosNetwork.set (net : PosNetwork ι) (i : ι) (node : Node) : PosNetwork ι :=
  { net with nodes := Function.update net.nodes i node }

variable [Runtime]

def PosNetwork.step (net : PosNetwork ι) : NetworkEvent ι → PosNetwork ι
  | .proposes i input =>
    let node := net.nodes i
    let (added, blockchain) := node.blockchain.add_new_block input
    let after := net.set i { node with blockchain := blockchain }
    match added with
    | .ok block => { after with signed := net.signed ++ [(node.blockchain.chain.length, block)] }
    | .error _ => after
  | .receives i payload => net.set i ((net.nodes i).new_block payload).2
  | .resolves i fork => net.set i ((net.nodes i).resolve_fork fork).2

/-! ## What is assumed -/

/-- What the nodes of a network start from. -/
structure PosGenesis where
  settings : PosSettings
  stakes : StakeMap
  prev_hash : Str

/-- A node of the network. If it is a validator, it signs with the key that it
knows as its own. The keys it knows of others, and its running stakes, can be any. -/
structure Member (genesis : PosGenesis) (own : Option Str) (node : Node) (pos : ProofOfStake) :
    Prop where
  consensus : node.blockchain.consensus = some (.pos pos)
  prev_hash : node.blockchain.genesis_prev_hash = genesis.prev_hash
  expected : pos.genesis_prev_hash = genesis.prev_hash
  settings : pos.settings = genesis.settings
  stakes : pos.genesis_stakes = some genesis.stakes
  node_stakes : node.genesis_stakes = genesis.stakes
  own_id : pos.node_validator_id = own
  named : own ≠ some []
  signs : ∀ id, own = some id → ∃ pem, Signs pos.signature_manager pem ∧
    pos.validator_public_keys.find id = some pem

/-- The network before anything is proposed; no two nodes are one validator. -/
structure PosNetwork.Starts (genesis : PosGenesis) (own : ι → Option Str) (net : PosNetwork ι) :
    Prop where
  member : ∀ i, ∃ pos, Member genesis (own i) (net.nodes i) pos
  empty : ∀ i, (net.nodes i).blockchain.chain = []
  unsigned : net.signed = []
  distinct : ∀ i j id, own i = some id → own j = some id → i = j

omit [DecidableEq ι] in
/-- The signature of a delivered block is not forged: if it verifies under the
key that the node knows of the validator it names, its content was signed by a
node. -/
def PosNetwork.Unforged (net : PosNetwork ι) (i : ι) (block : Block) : Prop :=
  ∀ (pos : ProofOfStake) (f : ProofOfStake.PosFields),
    (net.nodes i).blockchain.consensus = some (.pos pos) → f.Of block →
    pos.validator_public_keys.find f.validator_id = some f.public_key →
    SignedBy f.public_key f.signature f.content →
    ∃ p ∈ net.signed, signed_content p.2 = some f.content

omit [DecidableEq ι] in
/-- What can happen: any block that JSON text can hold may be delivered, unless
its signature would be forged; and the floats of a local transaction are read as
they are written. -/
def PosNetwork.Allows (net : PosNetwork ι) : NetworkEvent ι → Prop
  | .proposes _ input => FloatsRead input.transaction
  | .receives i payload => ∀ block, Dict.find payload (lit "block") = some block →
    Readable block ∧ net.Unforged i block
  | .resolves i fork => ∀ block ∈ fork, Readable block ∧ net.Unforged i block

/-! ## A member after a step -/

variable {genesis : PosGenesis} {node : Node} {pos : ProofOfStake}

omit [Runtime] in
/-- A change of the chain changes the running stakes only. -/
theorem PosChange.pos_eq {genesis_stakes : StakeMap} {before after : BlockChain}
    {pos' : ProofOfStake} (h : PosChange genesis_stakes before after pos pos')
    (hstakes : pos.genesis_stakes = some genesis_stakes) :
    ∃ validators, pos' = { pos with validators := validators } := by
  cases h with
  | stay chain same => exact ⟨pos.validators, same⟩
  | appended block named chain credited => exact ⟨_, credited⟩
  | replaced named consensus synced =>
      refine ⟨rewarded pos.settings genesis_stakes after.chain, ?_⟩
      rw [synced, hstakes]

omit [Runtime] in
/-- A member runs one protocol. -/
theorem Member.unique {own : Option Str} {pos' : ProofOfStake} (h : Member genesis own node pos)
    (h' : Member genesis own node pos') : pos = pos' :=
  Consensus.pos.inj (Option.some.inj (h.consensus.symm.trans h'.consensus))

/-- A member stays one, under the same rules. -/
theorem Member.stake_step {own : Option Str} (h : Member genesis own node pos)
    (hgrows : Grows (PosStep pos genesis.prev_hash genesis.stakes) node.blockchain.chain)
    (op : StakeOp) :
    ∃ pos', Member genesis own (node.stake_step op) pos' ∧ SameRules pos pos' := by
  have hmembers : MembersOnly node.genesis_stakes node.blockchain pos := by
    rw [h.node_stakes]
    refine ⟨h.consensus, h.stakes, ?_, namesMember_of_grows hgrows⟩
    rw [h.own_id]
    exact h.named
  obtain ⟨hstakes, pos', hchange⟩ := node.pos_change hmembers op
  have hconsensus := (hmembers.change hchange).consensus
  obtain ⟨validators, rfl⟩ := hchange.pos_eq hmembers.genesis
  have hcore := congrArg Prod.snd (stake_step_cases node op).1.core_eq
  refine ⟨_, ⟨hconsensus, ?_, h.expected, h.settings, h.stakes, ?_, h.own_id, h.named, h.signs⟩,
    ⟨rfl, rfl, rfl⟩⟩
  · exact hcore.trans h.prev_hash
  · rw [hstakes, h.node_stakes]

/-- A valid chain that scores higher is at least as long. -/
theorem length_le_of_outscores {g g' : Str} {genesis_stakes : StakeMap} {R L : List Block}
    (hR : Grows (PosStep pos g genesis_stakes) R) (hL : Grows (PosStep pos g' genesis_stakes) L)
    (h : (Consensus.pos pos).Outscores genesis_stakes R L) : L.length ≤ R.length := by
  obtain ⟨s, t, hs, ht, hst⟩ := h
  obtain ⟨w, tip, -, hscore⟩ := Consensus.canonical_score_of_grows hL
  obtain ⟨w', tip', -, hscore'⟩ := Consensus.canonical_score_of_grows hR
  simp only [Consensus.fork_score, hscore, hscore', Except.map, Except.ok.injEq] at hs ht
  subst hs ht
  by_contra hlt
  apply lt_asymm hst
  apply posScore_strictMono
  rw [Prod.Lex.toLex_lt_toLex]
  left
  simp only
  omega

/-! ## The network as one log -/

open Classical in
omit [DecidableEq ι] in
/-- The node that proposes the block after a number of blocks. -/
noncomputable def turn_of (genesis : PosGenesis) (own : ι → Option Str) (n : ℕ) : Option ι :=
  if h : ∃ i id, own i = some id ∧ scheduled_proposer genesis.settings genesis.stakes n = .ok id
    then some h.choose
  else none

omit [Rsa] [DecidableEq ι] in
theorem turn_of_eq {own : ι → Option Str}
    (hdistinct : ∀ i j id, own i = some id → own j = some id → i = j) {n : ℕ} {i : ι} {id : Str}
    (hi : own i = some id) (h : scheduled_proposer genesis.settings genesis.stakes n = .ok id) :
    turn_of genesis own n = some i := by
  have hex : ∃ i id, own i = some id ∧
      scheduled_proposer genesis.settings genesis.stakes n = .ok id := ⟨i, id, hi, h⟩
  obtain ⟨id', hown, hid'⟩ := hex.choose_spec
  rw [h] at hid'
  obtain rfl := Except.ok.inj hid'
  rw [turn_of, dif_pos hex, hdistinct hex.choose i id hown hi]

omit [DecidableEq ι] in
/-- What the nodes accepted, and what they signed, as bytes. -/
def PosNetwork.logs (net : PosNetwork ι) : Logs ι (Option (List UInt8)) where
  log i := (net.nodes i).blockchain.chain.map signed_content
  written := net.signed.map fun p => (p.1, signed_content p.2)

theorem logs_update (net : PosNetwork ι) (i : ι) (node : Node) (signed : List (ℕ × Block)) :
    (⟨Function.update net.nodes i node, signed⟩ : PosNetwork ι).logs
      = ⟨Function.update net.logs.log i (node.blockchain.chain.map signed_content),
        signed.map fun p => (p.1, signed_content p.2)⟩ := by
  simp only [PosNetwork.logs, Logs.mk.injEq, and_true]
  funext j
  by_cases hj : j = i
  · subst hj
    simp
  · simp [Function.update_of_ne hj]

/-- The invariant. Each node is a member with a valid chain; what is in the
chains and what was signed can be read; and the logs have one writer for each
position. -/
structure PosNetwork.Sound (genesis : PosGenesis) (own : ι → Option Str) (net : PosNetwork ι) :
    Prop where
  member : ∀ i, ∃ pos, Member genesis (own i) (net.nodes i) pos ∧
    Grows (PosStep pos genesis.prev_hash genesis.stakes) (net.nodes i).blockchain.chain
  legible : ∀ i, ∀ block ∈ (net.nodes i).blockchain.chain, Legible block
  signed : ∀ p ∈ net.signed, Legible p.2 ∧ HeaderIs p.2 (lit "slot") (.int (p.1 + 1 : ℕ)) ∧
    p.2.item (lit "block_index") = .ok (.int (p.1 + 1 : ℕ))
  distinct : ∀ i j id, own i = some id → own j = some id → i = j
  logs : SingleWriter (turn_of genesis own) net.logs

variable {own : ι → Option Str} {net : PosNetwork ι}

omit [DecidableEq ι] in
/-- The start. -/
theorem PosNetwork.Starts.sound (h : net.Starts genesis own) : net.Sound genesis own where
  member i := by
    obtain ⟨pos, hmember⟩ := h.member i
    refine ⟨pos, hmember, ?_⟩
    rw [h.empty i]
    exact grows_nil
  legible i block hblock := by
    rw [h.empty i] at hblock
    cases hblock
  signed p hp := by
    rw [h.unsigned] at hp
    cases hp
  distinct := h.distinct
  logs := by
    have hempty : net.logs = ⟨fun _ => [], []⟩ := by
      simp [PosNetwork.logs, h.empty, h.unsigned]
    rw [hempty]
    exact singleWriter_empty _

namespace PosNetwork.Sound

omit [DecidableEq ι] in
/-- What a node holds was signed for the height it stands at. -/
theorem written (h : net.Sound genesis own) {i : ι} {k : ℕ}
    (hk : k < (net.nodes i).blockchain.chain.length) :
    (k, signed_content (net.nodes i).blockchain.chain[k]) ∈ net.logs.written :=
  h.logs.covered i k _ (by simp [PosNetwork.logs, hk])

omit [DecidableEq ι] in
/-- A block that was signed stands in the slot it was signed for. -/
theorem covers (h : net.Sound genesis own) {block : Block} {f : ProofOfStake.PosFields}
    (hof : f.Of block) (hlegible : Legible block) {k : ℕ} (hslot : f.slot = (k + 1 : ℕ))
    (hsigned : ∃ p ∈ net.signed, signed_content p.2 = some f.content) :
    (k, signed_content block) ∈ net.logs.written := by
  obtain ⟨p, hp, hcontent⟩ := hsigned
  obtain ⟨hlegible', hslot', -⟩ := h.signed p hp
  have hsame : signed_content block = signed_content p.2 := by
    rw [signed_content_of hof, hcontent]
  have hsome : (signed_content block).isSome := by
    rw [signed_content_of hof]
    rfl
  obtain ⟨hslots, -⟩ := fields_of_content hlegible hlegible' hsame hsome hof.slot hslot'
  rw [hslot] at hslots
  have hk : k = p.1 := by omega
  rw [hk, hsame]
  exact List.mem_map_of_mem hp

omit [DecidableEq ι] in
/-- A delivered block that may follow a chain was signed for its height. -/
theorem of_delivered (h : net.Sound genesis own) {i : ι}
    (hconsensus : (net.nodes i).blockchain.consensus = some (.pos pos)) {seen : List Block}
    {block : Block} (hread : Readable block) (hunforged : net.Unforged i block)
    (hstep : PosStep pos genesis.prev_hash genesis.stakes seen block) :
    (seen.length, signed_content block) ∈ net.logs.written ∧ Legible block := by
  obtain ⟨-, f, hof, hvalid⟩ := hstep
  have hlegible := legible_of_readable hread hof.slot
  exact ⟨h.covers hof hlegible hvalid.slot
    (hunforged pos f hconsensus hof hvalid.registered hvalid.signed), hlegible⟩

omit [DecidableEq ι] in
/-- The blocks of a node carry their heights as indices. -/
theorem index_eq (h : net.Sound genesis own) {i : ι} {k : ℕ}
    (hk : k < (net.nodes i).blockchain.chain.length) :
    (net.nodes i).blockchain.chain[k].item (lit "block_index") = .ok (.int (k + 1 : ℕ)) := by
  obtain ⟨pos, hmember, hgrows⟩ := h.member i
  have hlegible := h.legible i _ (List.getElem_mem hk)
  obtain ⟨p, hp, heq⟩ := List.mem_map.mp (h.written hk)
  obtain ⟨rfl, hcontent⟩ := Prod.mk.inj heq
  obtain ⟨hlegible', hslot, hindex⟩ := h.signed p hp
  obtain ⟨-, f, hof, hvalid⟩ := hgrows.getElem hk
  have hsome : (signed_content (net.nodes i).blockchain.chain[p.1]).isSome := by
    rw [signed_content_of hof]
    rfl
  obtain ⟨-, hsame⟩ := fields_of_content hlegible hlegible' hcontent.symm hsome hof.slot hslot
  -- a block of a valid chain has an index
  obtain ⟨-, ⟨v, hv, -⟩, -⟩ := (posStep_iff (by rw [hmember.expected, orDefault_self])).mp
    (hgrows.getElem hk)
  rw [hv, hsame v _ hv hindex]

omit [DecidableEq ι] in
/-- So a node can go on from its tip. -/
theorem tipIndexed (h : net.Sound genesis own) (i : ι) : TipIndexed (net.nodes i).blockchain := by
  intro tip htip
  obtain ⟨init, hinit⟩ := List.getLast?_eq_some_iff.mp htip
  have hlength : (net.nodes i).blockchain.chain.length = init.length + 1 := by
    rw [hinit, List.length_append, List.length_singleton]
  have hindex := h.index_eq (i := i) (k := init.length) (by omega)
  simp only [hinit, List.getElem_concat_length] at hindex
  refine ⟨_, _, hindex, rfl, ?_⟩
  rw [hlength]
  simp [PyVal.eq, PyVal.numEq, PyVal.num, PyFloat.eq, PyFloat.value]

/-- A step of one node keeps the invariant if it is a step of the log. -/
theorem update (h : net.Sound genesis own) {i : ι} {node : Node} {signed : List (ℕ × Block)}
    (hmember : ∃ pos, Member genesis (own i) node pos ∧
      Grows (PosStep pos genesis.prev_hash genesis.stakes) node.blockchain.chain)
    (hlegible : ∀ block ∈ node.blockchain.chain, Legible block)
    (hsigned : ∀ p ∈ signed, Legible p.2 ∧ HeaderIs p.2 (lit "slot") (.int (p.1 + 1 : ℕ)) ∧
      p.2.item (lit "block_index") = .ok (.int (p.1 + 1 : ℕ)))
    (hlog : LogStep (turn_of genesis own) net.logs
      (⟨Function.update net.nodes i node, signed⟩ : PosNetwork ι).logs) :
    (⟨Function.update net.nodes i node, signed⟩ : PosNetwork ι).Sound genesis own where
  member j := by
    by_cases hj : j = i
    · subst hj
      simpa using hmember
    · simpa [Function.update_of_ne hj] using h.member j
  legible j := by
    by_cases hj : j = i
    · subst hj
      simpa using hlegible
    · simpa [Function.update_of_ne hj] using h.legible j
  signed := hsigned
  distinct := h.distinct
  logs := h.logs.step hlog

/-- A node takes over a valid chain, at least as long, of blocks that were signed
for their heights. -/
theorem adopts (h : net.Sound genesis own) (i : ι) (op : StakeOp)
    (hlonger : (net.nodes i).blockchain.chain.length
      ≤ ((net.nodes i).stake_step op).blockchain.chain.length)
    (hgrows : ∀ pos, Member genesis (own i) (net.nodes i) pos →
      Grows (PosStep pos genesis.prev_hash genesis.stakes)
        ((net.nodes i).stake_step op).blockchain.chain)
    (hblocks : ∀ (k : ℕ) (hk : k < ((net.nodes i).stake_step op).blockchain.chain.length),
      (k, signed_content ((net.nodes i).stake_step op).blockchain.chain[k]) ∈ net.logs.written ∧
        Legible ((net.nodes i).stake_step op).blockchain.chain[k]) :
    LogStep (turn_of genesis own) net.logs (net.set i ((net.nodes i).stake_step op)).logs ∧
      (net.set i ((net.nodes i).stake_step op)).Sound genesis own := by
  have hlog : LogStep (turn_of genesis own) net.logs
      (net.set i ((net.nodes i).stake_step op)).logs := by
    refine .adopt i (((net.nodes i).stake_step op).blockchain.chain.map signed_content) ?_ ?_
      (logs_update net i _ _)
    · simpa [PosNetwork.logs] using hlonger
    · intro k c hc
      obtain ⟨hk, rfl⟩ := List.getElem?_eq_some_iff.mp hc
      rw [List.length_map] at hk
      simpa using (hblocks k hk).1
  refine ⟨hlog, h.update ?_ ?_ h.signed hlog⟩
  · obtain ⟨pos, hmember, hchain⟩ := h.member i
    obtain ⟨pos', hmember', hrules⟩ := hmember.stake_step hchain op
    refine ⟨pos', hmember', ?_⟩
    rw [hrules.posStep]
    exact hgrows pos hmember
  · intro block hblock
    obtain ⟨k, hk, rfl⟩ := List.mem_iff_getElem.mp hblock
    exact (hblocks k hk).2

/-- A chain grown by a block that was signed for its height is taken over. -/
theorem appends (h : net.Sound genesis own) (i : ι) (op : StakeOp) {block : Block}
    (hchain : ((net.nodes i).stake_step op).blockchain.chain
      = (net.nodes i).blockchain.chain ++ [block])
    (hstep : ∀ pos, Member genesis (own i) (net.nodes i) pos →
      PosStep pos genesis.prev_hash genesis.stakes (net.nodes i).blockchain.chain block)
    (hblock : ((net.nodes i).blockchain.chain.length, signed_content block) ∈ net.logs.written ∧
      Legible block) :
    LogStep (turn_of genesis own) net.logs (net.set i ((net.nodes i).stake_step op)).logs ∧
      (net.set i ((net.nodes i).stake_step op)).Sound genesis own := by
  obtain ⟨pos, hmember, hgrows⟩ := h.member i
  apply h.adopts i op
  · rw [hchain, List.length_append]
    omega
  · intro pos' hmember'
    obtain rfl := hmember'.unique hmember
    rw [hchain]
    exact grows_snoc.mpr ⟨hgrows, hstep pos' hmember⟩
  · rw [hchain]
    intro k hk
    rw [List.length_append, List.length_singleton] at hk
    rcases Nat.lt_or_ge k (net.nodes i).blockchain.chain.length with hlt | hge
    · rw [List.getElem_append_left hlt]
      exact ⟨h.written hlt, h.legible i _ (List.getElem_mem hlt)⟩
    · obtain rfl : k = (net.nodes i).blockchain.chain.length := by omega
      rw [List.getElem_concat_length rfl]
      exact hblock

/-- A node adopts nothing. -/
theorem stays (h : net.Sound genesis own) (i : ι) :
    LogStep (turn_of genesis own) net.logs (net.set i (net.nodes i)).logs ∧
      (net.set i (net.nodes i)).Sound genesis own := by
  have hsame : net.set i (net.nodes i) = net := by
    rw [PosNetwork.set, Function.update_eq_self]
  rw [hsame]
  exact ⟨.stay rfl, h⟩

omit [DecidableEq ι] in
/-- A node that proposes is the scheduled validator's, and would accept the block
itself. -/
theorem proposal (h : net.Sound genesis own) {i : ι} {input : BlockChain.LocalInput}
    {block : Block} {after : BlockChain}
    (hadd : (net.nodes i).blockchain.add_new_block input = (.ok block, after)) :
    ∃ pos id, Member genesis (own i) (net.nodes i) pos ∧ own i = some id ∧
      scheduled_proposer genesis.settings genesis.stakes (net.nodes i).blockchain.chain.length
        = .ok id ∧
      after.chain = (net.nodes i).blockchain.chain ++ [block] ∧
      ((net.nodes i).blockchain.draft_block input >>=
        (net.nodes i).blockchain.complete_block input) = .ok block ∧
      PosStep pos genesis.prev_hash genesis.stakes (net.nodes i).blockchain.chain block := by
  obtain ⟨pos, hmember, hgrows⟩ := h.member i
  have hproducer : ProposesOn genesis.settings genesis.stakes genesis.prev_hash
      (net.nodes i).blockchain.chain (net.nodes i).blockchain pos :=
    ⟨hmember.consensus, rfl, hmember.prev_hash, hmember.settings, hmember.stakes⟩
  have hnames := Consensus.namesValidators_of_grows hgrows
  rcases add_new_block_elected hproducer hnames input with
    ⟨e, hraise⟩ | ⟨block', after', hadd', hafter, ⟨id, hid, helected⟩, hblock⟩
  · rw [hraise] at hadd
    cases hadd
  rw [hadd, Prod.mk.injEq, Except.ok.injEq] at hadd'
  obtain ⟨rfl, rfl⟩ := hadd'
  have hown : own i = some id := hmember.own_id.symm.trans hid
  have hscheduled : scheduled_proposer genesis.settings genesis.stakes
      (net.nodes i).blockchain.chain.length = .ok id := by
    have hstakes := rewarded_eq_scheduled hgrows
    rw [hmember.settings] at hstakes
    rw [scheduled_proposer, ← hstakes]
    exact helected
  refine ⟨pos, id, hmember, hown, hscheduled, hafter, hblock, ?_⟩
  obtain ⟨pem, hsigns, hkey⟩ := hmember.signs id hown
  have hverifier : ValidatesOn genesis.settings genesis.prev_hash (net.nodes i).blockchain.chain
      (net.nodes i).blockchain pos :=
    ⟨hmember.consensus, rfl, hmember.prev_hash, hmember.expected, hmember.settings⟩
  have hregistered : ∀ id', pos.node_validator_id = some id' →
      pos.validator_public_keys.find id' = some pem := by
    intro id' hid'
    rw [hid, Option.some.injEq] at hid'
    rw [← hid']
    exact hkey
  refine (proposed_step_iff hproducer hverifier hnames hsigns hregistered hblock).mpr
    ⟨?_, h.tipIndexed i⟩
  rw [hmember.own_id]
  exact hmember.named

/-- A node proposes: it is its turn, and it has not proposed at this height. -/
theorem proposes (h : net.Sound genesis own) {i : ι} {input : BlockChain.LocalInput}
    (hallowed : net.Allows (.proposes i input)) :
    LogStep (turn_of genesis own) net.logs (net.step (.proposes i input)).logs ∧
      (net.step (.proposes i input)).Sound genesis own := by
  rcases hadd : (net.nodes i).blockchain.add_new_block input with ⟨e | block, after⟩
  · have hkept : after = (net.nodes i).blockchain := by
      obtain ⟨pos, hmember, hgrows⟩ := h.member i
      rcases add_new_block_elected ⟨hmember.consensus, rfl, hmember.prev_hash, hmember.settings,
        hmember.stakes⟩ (Consensus.namesValidators_of_grows hgrows) input with
        ⟨e', hraise⟩ | ⟨block, after', hadd', -⟩
      · exact (Prod.mk.inj (hadd.symm.trans hraise)).2
      · rw [hadd] at hadd'
        cases (Prod.mk.inj hadd').1
    simp only [PosNetwork.step, hadd, hkept]
    exact h.stays i
  obtain ⟨pos, id, hmember, hown, hscheduled, hafter, hblock, hstep⟩ := h.proposal hadd
  have hgrows : Grows (PosStep pos genesis.prev_hash genesis.stakes)
      (net.nodes i).blockchain.chain := by
    obtain ⟨pos', hmember', hgrows⟩ := h.member i
    rwa [hmember.unique hmember']
  have hlegible : Legible block := by
    obtain ⟨d, header, counter, rfl, hform⟩ := proposed_form hmember.consensus hblock
    exact ⟨d, header, rfl, hform.built.record.object, hform.built.has_header,
      hform.built.header_record.object, hform.built.floatsRead hallowed⟩
  obtain ⟨-, -, f, hof, -, -, -, hslot, -, hindex, -⟩ := proposed_block_fields hmember.consensus hblock
  have hnode : { net.nodes i with blockchain := after }
      = (net.nodes i).stake_step (.add_new_block input) := by
    rw [Node.stake_step, hadd]
  have hlog : LogStep (turn_of genesis own) net.logs (net.step (.proposes i input)).logs := by
    refine .write i (signed_content block) ?_ ?_
    · simpa [PosNetwork.logs] using turn_of_eq h.distinct hown hscheduled
    · simp only [PosNetwork.step, hadd, PosNetwork.set]
      rw [logs_update]
      simp [PosNetwork.logs, hafter]
  refine ⟨hlog, ?_⟩
  simp only [PosNetwork.step, hadd, PosNetwork.set] at hlog ⊢
  refine h.update ?_ ?_ ?_ hlog
  · obtain ⟨pos', hmember', hrules⟩ := hmember.stake_step hgrows (.add_new_block input)
    rw [hnode]
    refine ⟨pos', hmember', ?_⟩
    rw [hrules.posStep, ← hnode]
    simp only [hafter]
    exact grows_snoc.mpr ⟨hgrows, hstep⟩
  · simp only [hafter]
    intro b hb
    rcases List.mem_append.mp hb with hb | hb
    · exact h.legible i b hb
    · rw [List.mem_singleton.mp hb]
      exact hlegible
  · intro p hp
    rcases List.mem_append.mp hp with hp | hp
    · exact h.signed p hp
    · rw [List.mem_singleton.mp hp]
      refine ⟨hlegible, ?_, ?_⟩
      · rw [← hslot]
        exact hof.slot
      · exact hindex

/-- A block arrives. -/
theorem receives (h : net.Sound genesis own) {i : ι} {payload : Dict}
    (hallowed : net.Allows (.receives i payload)) :
    LogStep (turn_of genesis own) net.logs (net.step (.receives i payload)).logs ∧
      (net.step (.receives i payload)).Sound genesis own := by
  simp only [PosNetwork.step]
  unfold Node.new_block
  split
  swap
  · exact h.stays i
  rename_i entry entries hpayload
  obtain ⟨hread, hunforged⟩ := hallowed _ hpayload
  obtain ⟨pos, hmember, hgrows⟩ := h.member i
  have hop : { net.nodes i with blockchain := ((net.nodes i).blockchain.add_block
      (.dict (entry :: entries)) true (some (net.nodes i).genesis_stakes)).2 }
      = (net.nodes i).stake_step (.add_block (.dict (entry :: entries))) := rfl
  simp only
  rw [hop]
  rcases add_block_cases (net.nodes i).blockchain (.dict (entry :: entries))
    (net.nodes i).genesis_stakes with hstay | ⟨hchecks, happend⟩
  · rw [← hop, hstay]
    exact h.stays i
  · rw [hmember.node_stakes] at hchecks
    have hstep := (pos_received_checks hmember.consensus genesis.stakes
      (Consensus.namesValidators_of_grows hgrows) _).mp hchecks
    rw [hmember.prev_hash] at hstep
    apply h.appends i (.add_block (.dict (entry :: entries)))
    · exact (congrArg BlockChain.chain happend).trans (core_append _ _).2
    · intro pos' hmember'
      obtain rfl := hmember'.unique hmember
      exact hstep
    · exact h.of_delivered hmember.consensus hread hunforged hstep

/-- A synchronisation ends. -/
theorem resolves (h : net.Sound genesis own) {i : ι} {fork : List Block}
    (hallowed : net.Allows (.resolves i fork)) :
    LogStep (turn_of genesis own) net.logs (net.step (.resolves i fork)).logs ∧
      (net.step (.resolves i fork)).Sound genesis own := by
  simp only [PosNetwork.step]
  obtain ⟨pos, hmember, hgrows⟩ := h.member i
  have hruns : (net.nodes i).Runs (.pos pos) :=
    ⟨hmember.consensus, hmember.prev_hash.trans hmember.expected.symm⟩
  have hsteps : (Consensus.pos pos).ChainStep (net.nodes i).genesis_stakes
      = PosStep pos genesis.prev_hash genesis.stakes := by
    rw [Consensus.ChainStep, hmember.expected, hmember.node_stakes]
  have hvalid : Grows ((Consensus.pos pos).ChainStep (net.nodes i).genesis_stakes)
      (net.nodes i).blockchain.chain := by
    rw [hsteps]
    exact hgrows
  rcases hruns.resolve_fork_cases hvalid fork with hstay | ⟨chain, hform, hchain, hscore, hresolve⟩
  · rw [hstay]
    exact h.stays i
  have hop : ((net.nodes i).resolve_fork fork).2 = (net.nodes i).stake_step (.resolve_fork fork) :=
    rfl
  have hafter : ((net.nodes i).stake_step (.resolve_fork fork)).blockchain.chain = chain := by
    rw [← hop, hresolve]
    rfl
  rw [hsteps] at hchain
  rw [hmember.node_stakes] at hscore
  rw [hop]
  apply h.adopts i (.resolve_fork fork)
  · rw [hafter]
    exact length_le_of_outscores hchain hgrows hscore
  · intro pos' hmember'
    obtain rfl := hmember'.unique hmember
    rw [hafter]
    exact hchain
  · rw [hafter]
    -- a block of the new chain was delivered, or stands where it stood
    have hdelivered : ∀ (k : ℕ) (hk : k < chain.length), chain[k] ∈ fork →
        (k, signed_content chain[k]) ∈ net.logs.written ∧ Legible chain[k] := by
      intro k hk hmem
      obtain ⟨hread, hunforged⟩ := hallowed _ hmem
      have hdel := h.of_delivered hmember.consensus hread hunforged (hchain.getElem hk)
      rwa [List.length_take_of_le hk.le] at hdel
    intro k hk
    rcases hform.forms with rfl | rfl
    · exact hdelivered k hk (List.getElem_mem hk)
    · rcases Nat.lt_or_ge k (net.nodes i).blockchain.chain.length with hlt | hge
      · rw [List.getElem_append_left hlt]
        exact ⟨h.written hlt, h.legible i _ (List.getElem_mem hlt)⟩
      · refine hdelivered k hk ?_
        rw [List.getElem_append_right hge]
        exact List.getElem_mem _

/-- One step. -/
theorem step (h : net.Sound genesis own) (event : NetworkEvent ι) (hallowed : net.Allows event) :
    LogStep (turn_of genesis own) net.logs (net.step event).logs ∧
      (net.step event).Sound genesis own := by
  cases event with
  | proposes i input => exact h.proposes hallowed
  | receives i payload => exact h.receives hallowed
  | resolves i fork => exact h.resolves hallowed

omit [DecidableEq ι] in
/-- The chain of a node verifies. -/
theorem verifies (h : net.Sound genesis own) (i : ι) :
    Verifies ((net.nodes i).blockchain.verify_chain (some genesis.stakes)) := by
  obtain ⟨pos, hmember, hgrows⟩ := h.member i
  have hruns : (net.nodes i).Runs (.pos pos) :=
    ⟨hmember.consensus, hmember.prev_hash.trans hmember.expected.symm⟩
  rw [← hmember.node_stakes, hruns.verifies_iff, Consensus.ChainStep, hmember.expected, hmember.node_stakes]
  exact hgrows

omit [DecidableEq ι] in
/-- What a node accepted was signed. -/
theorem signed_of_mem (h : net.Sound genesis own) {i : ι} {block : Block}
    (hblock : block ∈ (net.nodes i).blockchain.chain) :
    ∃ content, signed_content block = some content ∧
      ∃ p ∈ net.signed, signed_content p.2 = some content := by
  obtain ⟨k, hk, rfl⟩ := List.mem_iff_getElem.mp hblock
  obtain ⟨pos, -, hgrows⟩ := h.member i
  obtain ⟨f, hof⟩ := fields_of_grows hgrows _ hblock
  have hcontent := signed_content_of hof
  obtain ⟨p, hp, heq⟩ := List.mem_map.mp (h.written hk)
  exact ⟨f.content, hcontent, p, hp, (Prod.mk.inj heq).2.trans hcontent⟩

end PosNetwork.Sound

/-! ## Runs -/

/-- A node after some events. -/
def PosNetwork.node_at (net : PosNetwork ι) (events : List (NetworkEvent ι)) (k : ℕ) (i : ι) : Node :=
  (run PosNetwork.step net (events.take k)).nodes i

/-- What a node accepted after some events, as the bytes that were signed. -/
def PosNetwork.log_at (net : PosNetwork ι) (events : List (NetworkEvent ι)) (k : ℕ) (i : ι) :
    List (Option (List UInt8)) :=
  (net.node_at events k i).blockchain.chain.map signed_content

/-- The run lemma. -/
theorem PosNetwork.Sound.run_take (h : net.Sound genesis own) {events : List (NetworkEvent ι)}
    (hallowed : AlwaysMeets PosNetwork.Allows PosNetwork.step net events) (k : ℕ) :
    (run PosNetwork.step net (events.take k)).Sound genesis own :=
  run_invariant_take (fun _ event hsound hallows => (hsound.step event hallows).2) h hallowed k

/-- A run of the network is a run of the log. -/
theorem PosNetwork.Sound.log_steps (h : net.Sound genesis own) {events : List (NetworkEvent ι)}
    (hallowed : AlwaysMeets PosNetwork.Allows PosNetwork.step net events) (k : ℕ) :
    LogStep (turn_of genesis own) (run PosNetwork.step net (events.take k)).logs
      (run PosNetwork.step net (events.take (k + 1))).logs := by
  rcases hevent : events[k]? with _ | event
  · -- the run is over
    have hlength : events.length ≤ k := List.getElem?_eq_none_iff.mp hevent
    rw [List.take_of_length_le hlength, List.take_of_length_le (by omega)]
    exact .stay rfl
  · rw [run_take_succ PosNetwork.step net hevent]
    exact ((h.run_take hallowed k).step event (hallowed.getElem? hevent)).1

/-- A network of proof-of-stake nodes keeps one log. Of the chains of any two
nodes at any two times one begins with the other, as bytes that were signed; the
chain of a node never loses a block; it always verifies; and each of its blocks
was signed by a node of the network. This holds in every run that forges no
signature, with the nodes of the validators among those of the network. -/
theorem network_agreement (hstart : net.Starts genesis own) {events : List (NetworkEvent ι)}
    (hallowed : AlwaysMeets PosNetwork.Allows PosNetwork.step net events) (i j : ι) (s t : ℕ) :
    (net.log_at events s i <+: net.log_at events t j ∨
      net.log_at events t j <+: net.log_at events s i) ∧
    (s ≤ t → net.log_at events s i <+: net.log_at events t i) ∧
    Verifies ((net.node_at events s i).blockchain.verify_chain (some genesis.stakes)) ∧
    ∀ block ∈ (net.node_at events s i).blockchain.chain, ∃ content,
      signed_content block = some content ∧
        ∃ p ∈ (run PosNetwork.step net (events.take s)).signed, signed_content p.2 = some content := by
  have hsound := hstart.sound
  have hlogs := hsound.log_steps hallowed
  have hsingle : SingleWriter (turn_of genesis own)
      (run PosNetwork.step net (events.take 0)).logs := (hsound.run_take hallowed 0).logs
  have hnow := hsound.run_take hallowed s
  exact ⟨hsingle.agree hlogs i j s t, hsingle.no_rollback hlogs i, hnow.verifies i,
    fun block hblock => hnow.signed_of_mem hblock⟩

end Network

/-! ## A validator and an observer -/

namespace TwoNodes

attribute [local instance] cpython letterRsa

/-- The protocol of the one validator, which signs with the key `A`. -/
def validator_pos : ProofOfStake :=
  ⟨Proposals.settings, some (lit "v"), Proposals.manager, .empty, some TwoBlocks.stakes,
    .single (lit "v") (lit "-----A"), DEFAULT_GENESIS_PREV_HASH⟩

/-- The protocol of a node that validates only. -/
def observer_pos : ProofOfStake :=
  { validator_pos with node_validator_id := none, signature_manager := ⟨none, none⟩ }

def node (pos : ProofOfStake) : Node :=
  ⟨lit "node", Rewritten.network, TwoBlocks.stakes, Proposals.holding pos⟩

def net : PosNetwork Bool := ⟨fun i => node (if i then validator_pos else observer_pos), []⟩

def own (i : Bool) : Option Str := if i then some (lit "v") else none

def genesis : PosGenesis := ⟨Proposals.settings, TwoBlocks.stakes, DEFAULT_GENESIS_PREV_HASH⟩

theorem starts : net.Starts genesis own where
  member i := by
    cases i with
    | true =>
        refine ⟨validator_pos, rfl, rfl, rfl, rfl, rfl, rfl, rfl, by decide, ?_⟩
        intro id hid
        obtain rfl := Option.some.inj hid
        exact ⟨lit "-----A", Proposals.signs, by decide⟩
    | false =>
        refine ⟨observer_pos, rfl, rfl, rfl, rfl, rfl, rfl, rfl, by decide, ?_⟩
        intro id hid
        cases hid
  empty i := by cases i <;> rfl
  unsigned := rfl
  distinct i j id hi hj := by
    have hvalidator : ∀ k, own k = some id → k = true := by
      intro k hk
      by_contra hfalse
      rw [Bool.not_eq_true] at hfalse
      rw [hfalse] at hk
      cases hk
    rw [hvalidator i hi, hvalidator j hj]

/-- The block that the validator proposes. -/
@[irreducible] def announced : Block :=
  ((Proposals.holding validator_pos).add_new_block Proposals.input).1.toOption.getD .none

theorem eq_of_isOk {α β : Type} {result : PyM α × β} (h : result.1.isOk = true) (default : α) :
    result = (.ok (result.1.toOption.getD default), result.2) := by
  obtain ⟨added, after⟩ := result
  cases added with
  | error e => cases h
  | ok value => rfl

theorem adds : (Proposals.holding validator_pos).add_new_block Proposals.input
    = (.ok announced, ((Proposals.holding validator_pos).add_new_block Proposals.input).2) := by
  have hok : ((Proposals.holding validator_pos).add_new_block Proposals.input).1.isOk = true := by
    decide +kernel
  unfold announced
  exact eq_of_isOk hok PyVal.none

/-- It is proposed, and announced to the observer. -/
def events : List (NetworkEvent Bool) :=
  [.proposes true Proposals.input, .receives false [(.str (lit "block"), announced)]]

theorem readable : Readable announced := by
  have hproducer : ProposesOn Proposals.settings TwoBlocks.stakes DEFAULT_GENESIS_PREV_HASH []
      (Proposals.holding validator_pos) validator_pos := ⟨rfl, rfl, rfl, rfl, rfl⟩
  rcases add_new_block_elected hproducer (fun block hblock => by cases hblock) Proposals.input with
    ⟨e, hraise⟩ | ⟨block, after, hadd, -, -, hblock⟩
  · rw [adds] at hraise
    cases hraise
  rw [adds, Prod.mk.injEq, Except.ok.injEq] at hadd
  obtain ⟨_, _, _, _, _, _, _, _, _, _, -, -, -, -, -, -, -, -, -, -, -, hshape⟩ :=
    proposed_block_eq hproducer.consensus hblock
  rw [hadd.1, hshape]
  -- every value is a string, a number or an object; what is left is that the keys differ
  refine ⟨trivial, ?_, trivial, ?_,
    ⟨trivial, ?_, trivial, ?_, trivial, ?_, trivial, ?_, trivial, ?_, trivial⟩, ?_,
    trivial, ?_, ⟨trivial, ?_, trivial, ?_, trivial⟩, ?_, trivial, ?_, trivial, ?_, trivial⟩
  all_goals rfl

theorem allowed : AlwaysMeets PosNetwork.Allows PosNetwork.step net events := by
  refine ⟨⟨trivial, trivial, trivial⟩, ?_, trivial⟩
  intro block hblock
  obtain rfl : announced = block := Option.some.inj hblock
  refine ⟨readable, ?_⟩
  intro pos f _ hof _ _
  refine ⟨(0, announced), ?_, signed_content_of hof⟩
  have hnode : (net.nodes true).blockchain = Proposals.holding validator_pos := rfl
  simp only [PosNetwork.step, hnode]
  rw [adds]
  exact List.mem_singleton.mpr rfl

/-- The observer accepts it, and the two nodes hold the same block. -/
theorem two_nodes_agree :
    (net.node_at events 2 true).blockchain.chain.length = 1 ∧
      (net.node_at events 2 false).blockchain.chain.length = 1 ∧
      (net.log_at events 2 true <+: net.log_at events 2 false ∨
        net.log_at events 2 false <+: net.log_at events 2 true) := by
  refine ⟨by decide +kernel, by decide +kernel, ?_⟩
  exact (network_agreement starts allowed true false 2 2).1

end TwoNodes

end EasyBlockchain
