/-
A network of proof-of-work nodes on one genesis hash.

Nodes mine, receive blocks and resolve forks in any order, and what they receive
is whatever anyone sends. There is no agreement on one log: two chains may have
the same work. But a node never gives up work. Its chain changes only into one
of more work, so it stays at least as good as every chain it was ever told in
full, and two nodes that told each other their chains have the same work.
-/
import EasyBlockchain.Lib.Potential
import EasyBlockchain.OwnChain
import EasyBlockchain.PosNetwork

set_option autoImplicit false

namespace EasyBlockchain

open Py Lib

/-! ## Equal chains have the same work -/

section Equal

theorem PyFloat.toInt_of_eq {x y : PyFloat} (h : x.eq y = true) {i : ℤ} (hx : x.toInt = .ok i) :
    y.toInt = .ok i := by
  cases x with
  | nan => cases hx
  | inf s => cases hx
  | negZero =>
      obtain rfl := Except.ok.inj hx
      cases y with
      | nan => cases h
      | inf s => cases h
      | negZero => rfl
      | fin q =>
          obtain rfl : (0 : ℚ) = q := by simpa [PyFloat.eq, PyFloat.value] using h
          rfl
  | fin p =>
      cases y with
      | nan => cases h
      | inf s => cases h
      | negZero =>
          obtain rfl : p = 0 := by simpa [PyFloat.eq, PyFloat.value] using h
          exact hx
      | fin q =>
          obtain rfl : p = q := by simpa [PyFloat.eq, PyFloat.value] using h
          exact hx

/-- `int` of a number goes by its value. -/
theorem PyVal.toInt_of_num {v : PyVal} {x : PyFloat} (h : v.num = some x) : v.toInt = x.toInt := by
  cases v with
  | bool b =>
      obtain rfl := Option.some.inj h
      cases b with
      | true => decide
      | false => decide
  | int i =>
      obtain rfl := Option.some.inj h
      have hfloor : (if (0 : ℚ) ≤ (i : ℚ) then ⌊(i : ℚ)⌋ else ⌈(i : ℚ)⌉) = i := by
        split
        · exact Int.floor_intCast i
        · exact Int.ceil_intCast i
      rw [PyVal.toInt, PyFloat.toInt, hfloor]
  | float f =>
      obtain rfl := Option.some.inj h
      rfl
  | _ => cases h

/-- Equal values are the same integer. -/
theorem PyVal.toInt_of_eq {v w : PyVal} (h : v.eq w = true) {i : ℤ} (hv : v.toInt = .ok i) :
    w.toInt = .ok i := by
  have hnum : ∀ x, v.num = some x → v.numEq w = true → w.toInt = .ok i := by
    intro x hx heq
    rw [PyVal.numEq, hx] at heq
    rcases hy : w.num with _ | y
    · rw [hy] at heq
      cases heq
    · rw [hy] at heq
      rw [PyVal.toInt_of_num hx] at hv
      rw [PyVal.toInt_of_num hy]
      exact PyFloat.toInt_of_eq heq hv
  cases v with
  | bool b => exact hnum _ rfl h
  | int j => exact hnum _ rfl h
  | float f => exact hnum _ rfl h
  | str s =>
      obtain rfl := PyVal.str_eq_iff.mp h
      exact hv
  | _ => cases hv

namespace ProofOfWork

/-- A block and one that Python finds equal to it declare one difficulty. -/
theorem PowFields.Of.difficulty_of_eq {f : PowFields} {x y : Block} (hof : f.Of x)
    (heq : x.eq y = true) : ProofOfWork.block_difficulty y = .ok f.difficulty := by
  obtain ⟨v, ⟨header, hheader, hv⟩, hint⟩ := hof.difficulty
  obtain ⟨header', hheader', heq'⟩ := PyVal.item_of_eq heq hheader
  obtain ⟨w, hw, hvw⟩ := PyVal.item_of_eq heq' hv
  simp [ProofOfWork.block_difficulty, hheader', PyVal.get_of_item hw, PyVal.toInt_of_eq hvw hint]

variable [Runtime] {pow : ProofOfWork} {g : Str}

/-- A valid chain and one that Python finds equal to it have the same score. -/
theorem score_chain_of_eq {C L : List Block} (hC : Grows (PowStep pow g) C)
    (heq : PyVal.eqList C L = true) : score_chain C = score_chain L := by
  have hblocks := PyVal.eqList_iff.mp heq
  have hfields : ∀ block ∈ C, ∃ f : PowFields, f.Of block := by
    intro block hblock
    obtain ⟨i, hi, rfl⟩ := List.mem_iff_getElem.mp hblock
    obtain ⟨f, hof, -⟩ := accepts_validate_block.mp (hC.getElem hi).2
    exact ⟨f, hof⟩
  have hmap : mapPy block_difficulty C = mapPy block_difficulty L := by
    clear hC heq
    induction hblocks with
    | nil => rfl
    | @cons x y xs ys hxy _ ih =>
        obtain ⟨f, hof⟩ := hfields x List.mem_cons_self
        rw [mapPy, mapPy, hof.block_difficulty, hof.difficulty_of_eq hxy,
          ih fun b hb => hfields b (List.mem_cons_of_mem x hb)]
  rw [score_chain, score_chain, total_difficulty, total_difficulty, hmap, hblocks.length_eq]

/-! ## The work of a chain -/

/-- The total difficulty of a chain and then its length, as fork choice compares
them; the least value for a list of blocks that has no score. -/
def work (chain : List Block) : ℤ ×ₗ ℕ := (score_chain chain).toOption.getD (toLex (0, 0))

omit [Runtime] in
theorem work_of_score {chain : List Block} {s : ℤ ×ₗ ℕ} (h : score_chain chain = .ok s) :
    work chain = s := by
  rw [work, h]
  rfl

/-- A valid chain has the score that its work is. -/
theorem score_of_grows [Rsa] {chain : List Block} (h : Grows (PowStep pow pow.genesis_prev_hash) chain) :
    score_chain chain = .ok (work chain) := by
  have hvalid : Grows ((Consensus.pow pow).ChainStep .empty) chain := h
  obtain ⟨s, hs⟩ := Consensus.fork_score_ok hvalid
  rcases hscore : score_chain chain with e | t
  · rw [Consensus.fork_score, hscore] at hs
    cases hs
  · rw [work_of_score hscore]

/-- The total difficulty of a chain, as a number of blocks of difficulty 1. -/
def difficulty (chain : List Block) : ℕ := (ofLex (work chain)).1.toNat

/-- The place of a chain among those of less work. -/
def rank (chain : List Block) : ℕ := pairRank (toLex (difficulty chain, chain.length))

/-- The work of a valid chain is the sum of positive difficulties. -/
theorem difficulties_of_grows [Rsa] {chain : List Block}
    (h : Grows (PowStep pow pow.genesis_prev_hash) chain) :
    ∃ ds, mapPy block_difficulty chain = .ok ds ∧ (∀ d ∈ ds, 1 ≤ d) ∧
      work chain = toLex (ds.sum, chain.length) ∧ (difficulty chain : ℤ) = ds.sum := by
  have hscore := score_of_grows h
  simp only [score_chain, total_difficulty, bind_eq_ok, pure_eq, Except.ok.injEq] at hscore
  obtain ⟨_, ⟨ds, hds, rfl⟩, hwork⟩ := hscore
  have hone : ∀ d ∈ ds, (1 : ℤ) ≤ d := by
    intro d hd
    obtain ⟨b, hb, hbd⟩ := exists_of_mem_mapPy hds hd
    obtain ⟨d', hd', hpos⟩ := Consensus.block_difficulty_of_grows h hb
    rw [hbd, Except.ok.injEq] at hd'
    omega
  refine ⟨ds, hds, hone, hwork.symm, ?_⟩
  have hsum : 0 ≤ ds.sum := List.sum_nonneg fun d hd => by linarith [hone d hd]
  rw [difficulty, ← hwork]
  exact Int.toNat_of_nonneg hsum

/-- Each block of a valid chain adds at least 1 to its difficulty. -/
theorem work_of_grows [Rsa] {chain : List Block}
    (h : Grows (PowStep pow pow.genesis_prev_hash) chain) :
    work chain = toLex ((difficulty chain : ℤ), chain.length) ∧
      chain.length ≤ difficulty chain := by
  obtain ⟨ds, hds, hone, hwork, hsum⟩ := difficulties_of_grows h
  have hcard := List.card_nsmul_le_sum ds 1 hone
  rw [length_mapPy hds, nsmul_eq_mul, mul_one, ← hsum] at hcard
  exact ⟨by rw [hwork, hsum], by exact_mod_cast hcard⟩

/-- More work is a higher rank, and no less difficulty. -/
theorem rank_lt_of_work [Rsa] {C D : List Block}
    (hC : Grows (PowStep pow pow.genesis_prev_hash) C)
    (hD : Grows (PowStep pow pow.genesis_prev_hash) D) (h : work C < work D) :
    rank C < rank D ∧ difficulty C ≤ difficulty D := by
  obtain ⟨hwork, hle⟩ := work_of_grows hC
  rw [hwork, (work_of_grows hD).1, Prod.Lex.toLex_lt_toLex] at h
  simp only at h
  refine ⟨pairRank_lt hle ?_, by omega⟩
  rw [Prod.Lex.toLex_lt_toLex]
  simp only
  omega

/-- One more block is more difficulty. -/
theorem difficulty_lt_append [Rsa] {chain : List Block} {block : Block}
    (h : Grows (PowStep pow pow.genesis_prev_hash) (chain ++ [block])) :
    difficulty chain < difficulty (chain ++ [block]) := by
  obtain ⟨ds, hds, -, -, hsum⟩ :=
    difficulties_of_grows (h.prefix_closed (List.prefix_append chain [block]))
  obtain ⟨ds', hds', -, -, hsum'⟩ := difficulties_of_grows h
  obtain ⟨d, hd, hpos⟩ := Consensus.block_difficulty_of_grows h
    (List.mem_append_right chain (List.mem_singleton.mpr rfl))
  have hsingle : mapPy block_difficulty [block] = .ok [d] := by
    rw [mapPy, hd]
    rfl
  rw [mapPy_append hds hsingle, Except.ok.injEq] at hds'
  rw [← hds', List.sum_append, List.sum_singleton, ← hsum] at hsum'
  omega

end ProofOfWork

end Equal

/-! ## Nodes -/

section Network

variable [Runtime] [Rsa] {pow : ProofOfWork}

/-- A node of the protocol with a valid chain. -/
structure Works (pow : ProofOfWork) (node : Node) : Prop where
  runs : node.Runs (.pow pow)
  valid : Grows (PowStep pow pow.genesis_prev_hash) node.blockchain.chain

/-- The chain stayed as it was, or it changed into one of more work. -/
def Gains (before after : List Block) : Prop :=
  after = before ∨ ProofOfWork.work before < ProofOfWork.work after

omit [Runtime] [Rsa] in
theorem Gains.le {before after : List Block} (h : Gains before after) :
    ProofOfWork.work before ≤ ProofOfWork.work after := by
  rcases h with rfl | h
  · exact le_refl _
  · exact le_of_lt h

omit [Runtime] [Rsa] in
theorem Gains.trans {a b c : List Block} (h : Gains a b) (h' : Gains b c) : Gains a c := by
  rcases h' with rfl | h'
  · exact h
  · exact Or.inr (lt_of_le_of_lt h.le h')

/-- To score higher is to have more work. -/
theorem outscores_iff_work {C L : List Block} {stakes : StakeMap}
    (hC : Grows (PowStep pow pow.genesis_prev_hash) C)
    (hL : Grows (PowStep pow pow.genesis_prev_hash) L) :
    (Consensus.pow pow).Outscores stakes C L ↔ ProofOfWork.work L < ProofOfWork.work C := by
  have hscore : ∀ {X : List Block}, Grows (PowStep pow pow.genesis_prev_hash) X →
      (Consensus.pow pow).fork_score stakes X = .ok (powScore (ProofOfWork.work X)) := by
    intro X hX
    rw [Consensus.fork_score, ProofOfWork.score_of_grows hX]
    rfl
  constructor
  · rintro ⟨s, t, hs, ht, hst⟩
    rw [hscore hL, Except.ok.injEq] at hs
    rw [hscore hC, Except.ok.injEq] at ht
    subst hs ht
    exact powScore_strictMono.lt_iff_lt.mp hst
  · intro h
    exact ⟨_, _, hscore hL, hscore hC, powScore_strictMono h⟩

/-- A block that may follow a chain is linked to it, and has a hash. -/
theorem linked_of_powStep {seen : List Block} {block : Block}
    (h : PowStep pow pow.genesis_prev_hash seen block) :
    HashLinked pow.genesis_prev_hash seen block ∧ ∃ t, TranHashIs block t := by
  have hstep : (Consensus.pow pow).ChainStep .empty seen block := h
  obtain ⟨hlinked, -, hhash⟩ := Consensus.linked_of_chainStep hstep
  exact ⟨hlinked, hhash⟩

/-- One more block is more work. -/
theorem gains_append {chain : List Block} {block : Block}
    (h : Grows (PowStep pow pow.genesis_prev_hash) (chain ++ [block])) :
    Gains chain (chain ++ [block]) := by
  have hprefix : chain <+: chain ++ [block] := List.prefix_append chain [block]
  have hvalid : Grows ((Consensus.pow pow).ChainStep .empty) (chain ++ [block]) := h
  have hlonger := Consensus.outscores_of_extends hvalid hprefix (by simp)
  exact Or.inr ((outscores_iff_work h (h.prefix_closed hprefix)).mp hlonger)

variable {node : Node}

theorem Works.appended (h : Works pow node) {block : Block}
    (hstep : PowStep pow pow.genesis_prev_hash node.blockchain.chain block) :
    Works pow { node with
        blockchain := { node.blockchain with chain := node.blockchain.chain ++ [block] } } ∧
      Gains node.blockchain.chain (node.blockchain.chain ++ [block]) := by
  have hgrows := grows_snoc.mpr ⟨h.valid, hstep⟩
  exact ⟨⟨⟨h.runs.consensus, h.runs.genesis⟩, hgrows⟩, gains_append hgrows⟩

/-- A block mined in order. -/
theorem Works.proposes (h : Works pow node) {input : BlockChain.LocalInput}
    (horder : MinesInOrder node.blockchain pow input.clock) :
    Works pow { node with blockchain := (node.blockchain.add_new_block input).2 } ∧
      Gains node.blockchain.chain (node.blockchain.add_new_block input).2.chain := by
  obtain ⟨r, after, hadd⟩ : ∃ r after, node.blockchain.add_new_block input = (r, after) :=
    ⟨_, _, rfl⟩
  rw [hadd]
  rcases pow_add_new_block_ok h.runs.consensus hadd with ⟨block, hblock, rfl⟩ | rfl
  · apply h.appended
    have hstep := (mined_step_iff h.runs.consensus hblock).mpr horder
    rw [h.runs.genesis] at hstep
    exact hstep
  · exact ⟨h, Or.inl rfl⟩

/-- A `NEW_BLOCK`, whatever is in it. -/
theorem Works.receives (h : Works pow node) (payload : Dict) :
    Works pow (node.new_block payload).2 ∧
      Gains node.blockchain.chain (node.new_block payload).2.blockchain.chain := by
  unfold Node.new_block
  split
  · rename_i entry entries _
    obtain ⟨r, after, hadd⟩ : ∃ r after, node.blockchain.add_block (.dict (entry :: entries)) true
        (some node.genesis_stakes) = (r, after) := ⟨_, _, rfl⟩
    rw [hadd]
    rcases pow_add_block_ok h.runs.consensus hadd with ⟨rfl, rfl⟩ | ⟨-, rfl⟩
    · apply h.appended
      have hstep := (pow_add_block h.runs.consensus _ _).mp hadd
      rw [h.runs.genesis] at hstep
      exact hstep
    · exact ⟨h, Or.inl rfl⟩
  · exact ⟨h, Or.inl rfl⟩

/-- A fork, whatever is in it. -/
theorem Works.resolves (h : Works pow node) (fork : List Block) :
    Works pow (node.resolve_fork fork).2 ∧
      Gains node.blockchain.chain (node.resolve_fork fork).2.blockchain.chain := by
  rcases h.runs.resolve_fork_cases h.valid fork with hstay | ⟨chain, -, hgrows, hscore, hfork⟩
  · rw [hstay]
    exact ⟨h, Or.inl rfl⟩
  · rw [hfork]
    exact ⟨⟨h.runs.with_chain chain, hgrows⟩, Or.inr ((outscores_iff_work hgrows h.valid).mp hscore)⟩

/-- A node that is told a whole valid chain is at least as good afterwards. -/
theorem Works.told (h : Works pow node)
    (htip : ∀ tip ∈ node.blockchain.chain.getLast?, ¬ TranHashIs tip pow.genesis_prev_hash)
    {chain : List Block} (hchain : Grows (PowStep pow pow.genesis_prev_hash) chain) :
    ProofOfWork.work chain ≤ ProofOfWork.work (node.resolve_fork chain).2.blockchain.chain := by
  have hkept := (h.resolves chain).2.le
  by_cases hle : ProofOfWork.work chain ≤ ProofOfWork.work node.blockchain.chain
  · exact hle.trans hkept
  have hscore : (Consensus.pow pow).Outscores node.genesis_stakes chain node.blockchain.chain :=
    (outscores_iff_work hchain h.valid).mpr (not_le.mp hle)
  have hne : chain ≠ [] := hscore.ne_nil h.valid
  obtain ⟨first, rest, rfl⟩ := List.exists_cons_of_ne_nil hne
  have hcandidate : node.IsCandidate (first :: rest) (first :: rest) := by
    rcases hlast : node.blockchain.chain.getLast? with _ | tip
    · exact Or.inl ⟨List.getLast?_eq_none_iff.mp hlast, rfl⟩
    · -- the tip is not what a first block follows, so the chains are not joined
      right
      have hlinked : HashLinked pow.genesis_prev_hash [] first :=
        (linked_of_powStep (hchain.getElem (List.length_pos_of_ne_nil hne))).1
      have hfirst : PrevHashIs first pow.genesis_prev_hash := by
        simpa [HashLinked, LinksTo] using hlinked
      have hnonempty : node.blockchain.chain ≠ [] := by
        intro hnil
        rw [hnil] at hlast
        cases hlast
      obtain ⟨init, hinit⟩ := List.getLast?_eq_some_iff.mp hlast
      have hvalid := h.valid
      rw [hinit] at hvalid
      obtain ⟨t, ht⟩ := (linked_of_powStep (grows_snoc.mp hvalid).2).2
      have hother : pow.genesis_prev_hash ≠ t := by
        rintro rfl
        exact htip tip hlast ht
      refine ⟨hnonempty, none, ?_, rfl⟩
      rw [join_chain_suffix_eq hlast List.head?_cons ht hfirst, if_neg hother]
  have hdiffers : differs (first :: rest) node.blockchain.chain = true := by
    have heq : PyVal.eqList (first :: rest) node.blockchain.chain = false := by
      rw [Bool.eq_false_iff]
      intro heq
      apply hle
      rw [ProofOfWork.work, ProofOfWork.score_chain_of_eq hchain heq]
      exact le_refl _
    have hnot : first :: rest ≠ node.blockchain.chain := by
      rintro hsame
      exact hle (hsame ▸ le_refl _)
    simp [differs, hnot, PyVal.eq, heq]
  rw [h.runs.resolve_fork_better h.valid hne hcandidate hchain hscore hdiffers]
  exact le_refl _

/-! ## The network -/

variable {ι : Type} [DecidableEq ι]

/-- The nodes after an event at one of them. -/
def pow_step (nodes : ι → Node) : NetworkEvent ι → ι → Node
  | .proposes i input => Function.update nodes i
    { nodes i with blockchain := ((nodes i).blockchain.add_new_block input).2 }
  | .receives i payload => Function.update nodes i ((nodes i).new_block payload).2
  | .resolves i fork => Function.update nodes i ((nodes i).resolve_fork fork).2

omit [DecidableEq ι] in
/-- The one condition on the nodes: local blocks are mined in order. -/
def MinedInOrder (pow : ProofOfWork) (nodes : ι → Node) : NetworkEvent ι → Prop
  | .proposes i input => MinesInOrder (nodes i).blockchain pow input.clock
  | _ => True

/-- One step: every node still works, and none of them loses work. -/
theorem pow_step_works {nodes : ι → Node} (h : ∀ i, Works pow (nodes i)) {event : NetworkEvent ι}
    (horder : MinedInOrder pow nodes event) (i : ι) :
    Works pow (pow_step nodes event i) ∧
      Gains (nodes i).blockchain.chain (pow_step nodes event i).blockchain.chain := by
  -- only the node of the event changes
  have hupdate : ∀ {j : ι} {after : Node}, Works pow after ∧
      Gains (nodes j).blockchain.chain after.blockchain.chain →
      Works pow (Function.update nodes j after i) ∧ Gains (nodes i).blockchain.chain
        (Function.update nodes j after i).blockchain.chain := by
    intro j after hafter
    by_cases hij : i = j
    · subst hij
      rw [Function.update_self]
      exact hafter
    · rw [Function.update_of_ne hij]
      exact ⟨h i, Or.inl rfl⟩
  cases event with
  | proposes j input => exact hupdate ((h j).proposes horder)
  | receives j payload => exact hupdate ((h j).receives payload)
  | resolves j fork => exact hupdate ((h j).resolves fork)

/-- Along a run. -/
theorem pow_run_works {nodes : ι → Node} (h : ∀ i, Works pow (nodes i))
    {events : List (NetworkEvent ι)}
    (hordered : AlwaysMeets (MinedInOrder pow) pow_step nodes events) :
    (∀ i, Works pow (run pow_step nodes events i)) ∧
      ∀ i, Gains (nodes i).blockchain.chain (run pow_step nodes events i).blockchain.chain := by
  induction events generalizing nodes with
  | nil => exact ⟨h, fun i => Or.inl rfl⟩
  | cons event events ih =>
      have hstep := pow_step_works h hordered.1
      obtain ⟨hworks, hgains⟩ := ih (fun i => (hstep i).1) hordered.2
      exact ⟨hworks, fun i => (hstep i).2.trans (hgains i)⟩

/-! ## What the nodes hear of each other -/

/-- The chain of a node after so many events. -/
def chain_at (nodes : ι → Node) (events : List (NetworkEvent ι)) (k : ℕ) (i : ι) : List Block :=
  (run pow_step nodes (events.take k) i).blockchain.chain

/-- With event `k`, node `i` resolves the whole chain that node `j` had after `m`
events. -/
def Hears (nodes : ι → Node) (events : List (NetworkEvent ι)) (i : ι) (k : ℕ) (j : ι) (m : ℕ) :
    Prop :=
  m ≤ k ∧ events[k]? = some (.resolves i (chain_at nodes events m j))

/-- At all times the nodes work. -/
theorem works_at {nodes : ι → Node} (h : ∀ i, Works pow (nodes i)) {events : List (NetworkEvent ι)}
    (hordered : AlwaysMeets (MinedInOrder pow) pow_step nodes events) (k : ℕ) (i : ι) :
    Works pow (run pow_step nodes (events.take k) i) :=
  (pow_run_works h (hordered.take k)).1 i

/-- From any time to a later one they gain. -/
theorem chain_at_gains {nodes : ι → Node} (h : ∀ i, Works pow (nodes i))
    {events : List (NetworkEvent ι)}
    (hordered : AlwaysMeets (MinedInOrder pow) pow_step nodes events) (i : ι) {k l : ℕ}
    (hkl : k ≤ l) : Gains (chain_at nodes events k i) (chain_at nodes events l i) := by
  have hrest : AlwaysMeets (MinedInOrder pow) pow_step (run pow_step nodes (events.take k))
      ((events.take l).drop k) := by
    have hall := hordered.take l
    rw [← List.take_append_drop k (events.take l), alwaysMeets_append, List.take_take,
      Nat.min_eq_left hkl] at hall
    exact hall.2
  have hrun := (pow_run_works (works_at h hordered k) hrest).2 i
  rw [← run_take_of_le pow_step nodes events hkl] at hrun
  exact hrun

open Classical in
/-- Work pays for every change of a chain. However many blocks and forks reach a
node, and whatever is in them, its chain grows by single blocks at most as often
as its difficulty rises by 1, and changes at all at most as often as its rank
does. -/
theorem pow_changes_paid {nodes : ι → Node} (h : ∀ i, Works pow (nodes i))
    {events : List (NetworkEvent ι)}
    (hordered : AlwaysMeets (MinedInOrder pow) pow_step nodes events) (i : ι) (n : ℕ) :
    ProofOfWork.difficulty (chain_at nodes events 0 i) + Nat.count (fun k => ∃ block,
        chain_at nodes events (k + 1) i = chain_at nodes events k i ++ [block]) n
      ≤ ProofOfWork.difficulty (chain_at nodes events n i) ∧
    ProofOfWork.rank (chain_at nodes events 0 i) + Nat.count (fun k =>
        chain_at nodes events (k + 1) i ≠ chain_at nodes events k i) n
      ≤ ProofOfWork.rank (chain_at nodes events n i) := by
  have hgrows : ∀ k, Grows (PowStep pow pow.genesis_prev_hash) (chain_at nodes events k i) :=
    fun k => (works_at h hordered k i).valid
  have hgains : ∀ k, Gains (chain_at nodes events k i) (chain_at nodes events (k + 1) i) :=
    fun k => chain_at_gains h hordered i (Nat.le_succ k)
  constructor
  · refine add_count_le (fun k => ProofOfWork.difficulty (chain_at nodes events k i)) ?_ ?_ n
    · intro k
      rcases hgains k with hsame | hwork
      · rw [hsame]
      · exact (ProofOfWork.rank_lt_of_work (hgrows k) (hgrows (k + 1)) hwork).2
    · rintro k ⟨block, hblock⟩
      have hnext := hgrows (k + 1)
      rw [hblock] at hnext ⊢
      exact ProofOfWork.difficulty_lt_append hnext
  · refine add_count_le (fun k => ProofOfWork.rank (chain_at nodes events k i)) ?_ ?_ n
    · intro k
      rcases hgains k with hsame | hwork
      · rw [hsame]
      · exact le_of_lt (ProofOfWork.rank_lt_of_work (hgrows k) (hgrows (k + 1)) hwork).1
    · intro k hchanged
      rcases hgains k with hsame | hwork
      · exact absurd hsame hchanged
      · exact (ProofOfWork.rank_lt_of_work (hgrows k) (hgrows (k + 1)) hwork).1

end Network

/-! A node that has a block tells it a node that has none, and hears it back. -/

namespace FutureBlock

attribute [local instance] cpython letterRsa

def pair : Bool → Node
  | false => ⟨lit "first", Rewritten.network, .empty, afterReceived⟩
  | true => ⟨lit "second", Rewritten.network, .empty,
      BlockChain.new (some (.pow pow)) DEFAULT_GENESIS_PREV_HASH⟩

def exchange : List (NetworkEvent Bool) := [.resolves true [received], .resolves false [received]]

theorem grows_received : Grows (PowStep pow DEFAULT_GENESIS_PREV_HASH) [received] :=
  grows_snoc.mpr ⟨grows_nil, received_step⟩

theorem works_pair (i : Bool) : Works pow (pair i) := by
  cases i with
  | false => exact ⟨⟨rfl, rfl⟩, grows_received⟩
  | true => exact ⟨⟨rfl, rfl⟩, grows_nil⟩

theorem pair_at : ∀ k < 3, ∀ i,
    chain_at pair exchange k i = if k = 0 ∧ i = true then [] else [received] := by
  decide +kernel

/-- After the last event nothing happens any more. -/
theorem tips_pair (k : ℕ) (i : Bool) : ∀ tip ∈ (chain_at pair exchange k i).getLast?,
    ¬ TranHashIs tip pow.genesis_prev_hash := by
  have hk : chain_at pair exchange k i = chain_at pair exchange (min k 2) i := by
    have hlength : exchange.length = 2 := rfl
    rw [chain_at, chain_at, List.take_eq_take_min, hlength]
  rw [hk, pair_at (min k 2) (by omega)]
  intro tip htip hgenesis
  split at htip
  · cases htip
  · obtain rfl := Option.some.inj htip
    have hhash : TranHashIs received
        (lit "0047b0c18dd14038eae51744cd0740fb9501a73dfabaa0c2ec40b34b2ecb12cd") := ⟨_, rfl, rfl⟩
    have hsame := PyVal.str.inj (HeaderIs.unique hhash hgenesis)
    exact absurd hsame (by decide)

theorem ordered_exchange : AlwaysMeets (MinedInOrder pow) pow_step pair exchange :=
  ⟨trivial, trivial, trivial⟩

open Classical in
/-- The node that had no block changes its chain once, and it is worth it. -/
theorem pair_pays : Nat.count (fun k => chain_at pair exchange (k + 1) true
      ≠ chain_at pair exchange k true) 2 = 1 ∧
    1 ≤ ProofOfWork.rank (chain_at pair exchange 2 true) := by
  have hcount : Nat.count (fun k => chain_at pair exchange (k + 1) true
      ≠ chain_at pair exchange k true) 2 = 1 := by
    rw [Nat.count_succ, Nat.count_succ, Nat.count_zero, pair_at 0 (by decide),
      pair_at 1 (by decide), pair_at 2 (by decide)]
    simp
  have hpaid := (pow_changes_paid works_pair ordered_exchange true 2).2
  rw [hcount] at hpaid
  exact ⟨hcount, by omega⟩

end FutureBlock

end EasyBlockchain
