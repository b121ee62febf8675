/-
Proof-of-stake fork resolution and the order of arrival.

Complete chains are never joined to the local chain, and the score of a chain
depends on the chain and the genesis stakes only. So a run of resolutions keeps
the better of two chains again and again, and ends with the score of the best,
whatever the order.
-/
import EasyBlockchain.ForkResolution
import EasyBlockchain.Lib.Selection

set_option autoImplicit false

namespace EasyBlockchain

open Py Lib

/-! ## Equal chains score alike -/

section Scores

variable [Runtime] [Rsa] {pos : ProofOfStake} {genesis_stakes : StakeMap} {C L : List Block}

omit [Runtime] in
theorem stake_weight_congr
    (h : List.Forall₂ (fun x y => ProofOfStake.block_validator_id x
      = ProofOfStake.block_validator_id y) C L) (validators : Option StakeMap) :
    pos.stake_weight C validators = pos.stake_weight L validators := by
  have hweights : ∀ stakes : StakeMap, mapPy (ProofOfStake.block_weight stakes) C
      = mapPy (ProofOfStake.block_weight stakes) L := by
    intro stakes
    induction h with
    | nil => rfl
    | @cons x y xs ys hxy _ ih =>
        have hweight : ProofOfStake.block_weight stakes x = ProofOfStake.block_weight stakes y := by
          rw [ProofOfStake.block_weight, hxy, ProofOfStake.block_weight]
        rw [mapPy, mapPy, hweight, ih]
  rw [ProofOfStake.stake_weight, hweights, ProofOfStake.stake_weight]

/-- A valid chain and one that Python finds equal to it have the same score. -/
theorem canonical_score_of_eq {g : Str} (hC : Grows (PosStep pos g genesis_stakes) C)
    (heq : PyVal.eqList C L = true) :
    pos.canonical_score (some genesis_stakes) C = pos.canonical_score (some genesis_stakes) L := by
  have hfields := fields_of_grows hC
  have hblocks := PyVal.eqList_iff.mp heq
  have hids : List.Forall₂ (fun x y => ProofOfStake.block_validator_id x
      = ProofOfStake.block_validator_id y) C L := by
    clear heq hC
    induction hblocks with
    | nil => exact .nil
    | @cons x y xs ys hxy _ ih =>
        obtain ⟨f, hof⟩ := hfields x List.mem_cons_self
        have hy := ProofOfStake.block_validator_id_of_header (hof.validator_id.of_eq hxy)
        refine .cons (hof.block_validator_id.trans hy.symm) (ih ?_)
        exact fun b hb => hfields b (List.mem_cons_of_mem x hb)
  have htip : ProofOfStake.tip_hash C = ProofOfStake.tip_hash L := by
    rcases List.eq_nil_or_concat C with rfl | ⟨init, last, rfl⟩
    · rw [List.forall₂_nil_left_iff.mp hblocks]
    · have hreverse := List.rel_reverse hblocks
      rw [List.concat_eq_append, List.reverse_concat] at hreverse
      obtain ⟨last', init', hlast, -, hL⟩ := List.forall₂_cons_left_iff.mp hreverse
      obtain ⟨f, hof⟩ := hfields last (by simp)
      have htran := hof.tran_hash
      rw [Consensus.tip_hash_of_last (by simp) htran,
        Consensus.tip_hash_of_last (by rw [← List.head?_reverse, hL]; rfl) (htran.of_eq hlast)]
  simp only [ProofOfStake.canonical_score, htip, hblocks.length_eq, stake_weight_congr hids,
    ProofOfStake.compute_validators_congr hids]

/-- A chain that scores higher than a chain is different to Python. -/
theorem differs_of_outscores
    (hC : Grows ((Consensus.pos pos).ChainStep genesis_stakes) C)
    (h : (Consensus.pos pos).Outscores genesis_stakes C L) : differs C L = true := by
  have hne : C ≠ L := by
    rintro rfl
    exact Consensus.Outscores.irrefl C h
  have heq : PyVal.eqList C L = false := by
    rw [Bool.eq_false_iff]
    intro heq
    obtain ⟨s, t, hs, ht, hst⟩ := h
    rw [Consensus.fork_score, canonical_score_of_eq hC heq] at ht
    rw [Consensus.fork_score, ht, Except.ok.injEq] at hs
    rw [hs] at hst
    exact lt_irrefl _ hst
  simp [differs, hne, PyVal.eq, heq]

end Scores

/-! ## One arrival -/

section Arrival

variable [Runtime] [Rsa] {pos : ProofOfStake} {genesis_stakes : StakeMap} {node : Node}

/-- The score of a chain, and nothing where it has none. -/
def ProofOfStake.rank (pos : ProofOfStake) (genesis_stakes : StakeMap) (chain : List Block) :
    ForkScore :=
  ((Consensus.pos pos).fork_score genesis_stakes chain).toOption.getD (toLex (0, toLex (0, [])))

omit [Runtime] in
theorem rank_of_fork_score {chain : List Block} {s : ForkScore}
    (h : (Consensus.pos pos).fork_score genesis_stakes chain = .ok s) :
    pos.rank genesis_stakes chain = s := by
  rw [ProofOfStake.rank, h]
  rfl

/-- Among valid chains, to score higher is to rank higher. -/
theorem outscores_iff_rank {C L : List Block}
    (hC : Grows ((Consensus.pos pos).ChainStep genesis_stakes) C)
    (hL : Grows ((Consensus.pos pos).ChainStep genesis_stakes) L) :
    (Consensus.pos pos).Outscores genesis_stakes C L ↔
      pos.rank genesis_stakes L < pos.rank genesis_stakes C := by
  obtain ⟨s, hs⟩ := Consensus.fork_score_ok hL
  obtain ⟨t, ht⟩ := Consensus.fork_score_ok hC
  rw [rank_of_fork_score hs, rank_of_fork_score ht]
  constructor
  · rintro ⟨s', t', hs', ht', hst⟩
    rw [hs, Except.ok.injEq] at hs'
    rw [ht, Except.ok.injEq] at ht'
    subst hs' ht'
    exact hst
  · intro hst
    exact ⟨s, t, hs, ht, hst⟩

/-- A list that starts at the genesis hash. -/
def Complete (g : Str) (fork : List Block) : Prop :=
  ∃ first rest, fork = first :: rest ∧ PrevHashIs first g

/-- A complete chain is a candidate by itself: no tip has the genesis hash. -/
theorem isCandidate_of_complete
    (hvalid : Grows ((Consensus.pos pos).ChainStep genesis_stakes) node.blockchain.chain)
    {g : Str} (htips : ∀ block ∈ node.blockchain.chain, ¬ TranHashIs block g) {fork : List Block}
    (hfork : Complete g fork) (candidate : List Block) :
    node.IsCandidate fork candidate ↔ candidate = fork := by
  obtain ⟨first, rest, rfl, hfirst⟩ := hfork
  rcases List.eq_nil_or_concat node.blockchain.chain with hempty | ⟨init, last, hchain⟩
  · simp [Node.IsCandidate, hempty]
  · rw [hchain, List.concat_eq_append] at hvalid
    obtain ⟨t, ht⟩ := (Consensus.linked_of_chainStep (grows_snoc.mp hvalid).2).2.2
    have hne : g ≠ t := by
      rintro rfl
      exact htips last (by simp [hchain]) ht
    have hlast : node.blockchain.chain.getLast? = some last := by simp [hchain]
    have hjoin := join_chain_suffix_eq hlast (List.head?_cons (l := rest)) ht hfirst
    rw [if_neg hne] at hjoin
    have hnonempty : node.blockchain.chain ≠ [] := by simp [hchain]
    simp [Node.IsCandidate, hnonempty, hjoin]

/-- What an arrival leaves: the better of the two chains, where it is valid. -/
theorem Node.Sound.after_complete (h : node.Sound (.pos pos) genesis_stakes)
    (htips : ∀ block ∈ node.blockchain.chain, ¬ TranHashIs block pos.genesis_prev_hash)
    {fork : List Block} (hfork : Complete pos.genesis_prev_hash fork) :
    (node.after_fork fork).blockchain.chain =
      if (Consensus.pos pos).candidate_valid genesis_stakes fork = .ok true then
        keepBetter (pos.rank genesis_stakes) node.blockchain.chain fork
      else node.blockchain.chain := by
  obtain ⟨rfl, ⟨c', hrun, hsame⟩, hvalid⟩ := h
  have hform := isCandidate_of_complete hvalid htips hfork
  have hvalid' := hvalid
  rw [← hsame.chainStep] at hvalid'
  have hstay : ¬ (Grows ((Consensus.pos pos).ChainStep node.genesis_stakes) fork ∧
      (Consensus.pos pos).Outscores node.genesis_stakes fork node.blockchain.chain) →
      (node.after_fork fork).blockchain.chain = node.blockchain.chain := by
    intro hnot
    rcases hrun.resolve_fork_cases hvalid' fork with hstay | ⟨chain, hcand, hgrows, hscore, -⟩
    · rw [Node.after_fork, hstay]
    · rw [(hform chain).mp hcand, hsame.chainStep] at hgrows
      rw [(hform chain).mp hcand, hsame.outscores] at hscore
      exact absurd ⟨hgrows, hscore⟩ hnot
  by_cases hgrows : Grows ((Consensus.pos pos).ChainStep node.genesis_stakes) fork
  · rw [if_pos (Consensus.candidate_valid_iff.mpr hgrows)]
    by_cases hscore : (Consensus.pos pos).Outscores node.genesis_stakes fork node.blockchain.chain
    · rw [keepBetter_of_lt ((outscores_iff_rank hgrows hvalid).mp hscore), Node.after_fork]
      have hne : fork ≠ [] := by
        obtain ⟨first, rest, rfl, -⟩ := hfork
        simp
      rw [hrun.resolve_fork_better hvalid' hne ((hform fork).mpr rfl)
        (hsame.chainStep _ ▸ hgrows) ((hsame.outscores _).mpr hscore)
        (differs_of_outscores hgrows hscore)]
      rfl
    · rw [hstay fun hand => hscore hand.2, keepBetter_of_le]
      exact not_lt.mp fun hlt => hscore ((outscores_iff_rank hgrows hvalid).mpr hlt)
  · rw [hstay fun hand => hgrows hand.1,
      if_neg fun hok => hgrows (Consensus.candidate_valid_iff.mp hok)]

end Arrival

/-! ## Any order of arrival -/

section Order

variable [Runtime] [Rsa] {pos : ProofOfStake} {genesis_stakes : StakeMap} {node : Node}

/-- The valid ones among the chains. -/
def ProofOfStake.valid_forks (pos : ProofOfStake) (genesis_stakes : StakeMap)
    (forks : List (List Block)) : List (List Block) :=
  forks.filter fun fork => (Consensus.pos pos).candidate_valid genesis_stakes fork = .ok true

theorem mem_valid_forks {forks : List (List Block)} {fork : List Block} :
    fork ∈ pos.valid_forks genesis_stakes forks ↔
      fork ∈ forks ∧ Grows ((Consensus.pos pos).ChainStep genesis_stakes) fork := by
  rw [ProofOfStake.valid_forks, List.mem_filter, decide_eq_true_eq, Consensus.candidate_valid_iff]

/-- A run keeps the better of the local chain and each valid arrival. -/
theorem Node.Sound.run_complete (h : node.Sound (.pos pos) genesis_stakes)
    {forks : List (List Block)} (hcomplete : ∀ fork ∈ forks, Complete pos.genesis_prev_hash fork)
    (htips : ∀ block ∈ node.blockchain.chain ++ forks.flatten,
      ¬ TranHashIs block pos.genesis_prev_hash) :
    (Lib.run Node.after_fork node forks).blockchain.chain
      = (pos.valid_forks genesis_stakes forks).foldl (keepBetter (pos.rank genesis_stakes))
          node.blockchain.chain := by
  induction forks generalizing node with
  | nil => rfl
  | cons fork forks ih =>
      have hstep := h.after_complete (fun block hb => htips block (List.mem_append_left _ hb))
        (hcomplete fork List.mem_cons_self)
      -- the chain after the step is one of the two, so the tips stay apart from the genesis hash
      have hmem : (node.after_fork fork).blockchain.chain = node.blockchain.chain ∨
          (node.after_fork fork).blockchain.chain = fork := by
        rw [hstep]
        split
        · unfold keepBetter
          split
          · exact Or.inr rfl
          · exact Or.inl rfl
        · exact Or.inl rfl
      have htips' : ∀ block ∈ (node.after_fork fork).blockchain.chain ++ forks.flatten,
          ¬ TranHashIs block pos.genesis_prev_hash := by
        intro block hb
        apply htips block
        rw [List.flatten_cons]
        rcases List.mem_append.mp hb with hb | hb
        · rcases hmem with heq | heq
          · rw [heq] at hb
            exact List.mem_append_left _ hb
          · rw [heq] at hb
            exact List.mem_append_right _ (List.mem_append_left _ hb)
        · exact List.mem_append_right _ (List.mem_append_right _ hb)
      have hrest := ih (h.after_fork fork).1
        (fun f hf => hcomplete f (List.mem_cons_of_mem fork hf)) htips'
      rw [show Lib.run Node.after_fork node (fork :: forks)
        = Lib.run Node.after_fork (node.after_fork fork) forks from rfl, hrest, hstep,
        ProofOfStake.valid_forks, ProofOfStake.valid_forks, List.filter_cons]
      by_cases hvalid : (Consensus.pos pos).candidate_valid genesis_stakes fork = .ok true
      · simp [hvalid]
      · simp [hvalid]

/-- Equal length, equal stake weight and equal tip hash. -/
def SameScore (pos : ProofOfStake) (genesis_stakes : StakeMap) (C D : List Block) : Prop :=
  C.length = D.length ∧ ∃ weight tip_hash,
    pos.canonical_score (some genesis_stakes) C
      = .ok (toLex (C.length, toLex (weight, tip_hash))) ∧
    pos.canonical_score (some genesis_stakes) D
      = .ok (toLex (D.length, toLex (weight, tip_hash)))

/-- Valid chains of one rank agree in length, weight and tip. -/
theorem sameScore_of_rank {C D : List Block}
    (hC : Grows ((Consensus.pos pos).ChainStep genesis_stakes) C)
    (hD : Grows ((Consensus.pos pos).ChainStep genesis_stakes) D)
    (h : pos.rank genesis_stakes C = pos.rank genesis_stakes D) :
    SameScore pos genesis_stakes C D := by
  obtain ⟨weight, tip, -, hscore⟩ := Consensus.canonical_score_of_grows hC
  obtain ⟨weight', tip', -, hscore'⟩ := Consensus.canonical_score_of_grows hD
  have hs : (Consensus.pos pos).fork_score genesis_stakes C
      = .ok (posScore (toLex (C.length, toLex (weight, tip)))) := by
    rw [Consensus.fork_score, hscore]
    rfl
  have hs' : (Consensus.pos pos).fork_score genesis_stakes D
      = .ok (posScore (toLex (D.length, toLex (weight', tip')))) := by
    rw [Consensus.fork_score, hscore']
    rfl
  rw [rank_of_fork_score hs, rank_of_fork_score hs'] at h
  have heq := posScore_strictMono.injective h
  simp only [EmbeddingLike.apply_eq_iff_eq, Prod.mk.injEq] at heq
  obtain ⟨hlength, rfl, rfl⟩ := heq
  exact ⟨hlength, weight, tip, hscore, hscore'⟩

/-- Ranks of valid chains that are equal come with equal tips. -/
theorem tip_hash_of_rank {C D : List Block}
    (hC : Grows ((Consensus.pos pos).ChainStep genesis_stakes) C)
    (hD : Grows ((Consensus.pos pos).ChainStep genesis_stakes) D)
    (h : pos.rank genesis_stakes C = pos.rank genesis_stakes D) :
    ProofOfStake.tip_hash C = ProofOfStake.tip_hash D := by
  obtain ⟨weight, tip, htip, hscore⟩ := Consensus.canonical_score_of_grows hC
  obtain ⟨weight', tip', htip', hscore'⟩ := Consensus.canonical_score_of_grows hD
  obtain ⟨-, w, t, hC', hD'⟩ := sameScore_of_rank hC hD h
  rw [hscore, Except.ok.injEq] at hC'
  rw [hscore', Except.ok.injEq] at hD'
  simp only [EmbeddingLike.apply_eq_iff_eq, Prod.mk.injEq, true_and] at hC' hD'
  rw [htip, htip', hC'.2, hD'.2]

/-- The choice among all chains at once: a valid one of the highest rank, and the
first one where it has this rank. -/
theorem select_all {chains : List (List Block)}
    (hchecked : ∀ C ∈ chains, ∃ b, (Consensus.pos pos).candidate_valid genesis_stakes C = .ok b)
    {L : List Block} (hmem : L ∈ chains)
    (hL : Grows ((Consensus.pos pos).ChainStep genesis_stakes) L) :
    ∃ best, (Consensus.pos pos).select_canonical_chain chains (some genesis_stakes) = .ok best ∧
      best ∈ pos.valid_forks genesis_stakes chains ∧
      (∀ C ∈ pos.valid_forks genesis_stakes chains,
        pos.rank genesis_stakes C ≤ pos.rank genesis_stakes best) ∧
      (chains.head? = some L → pos.rank genesis_stakes L = pos.rank genesis_stakes best →
        best = L) := by
  have hfilter : filterPy ((Consensus.pos pos).candidate_valid genesis_stakes) chains
      = .ok (pos.valid_forks genesis_stakes chains) := filterPy_eq_ok.mpr ⟨hchecked, rfl⟩
  obtain ⟨best, hbest⟩ := maxBy_ok fun C (hC : C ∈ pos.valid_forks genesis_stakes chains) =>
    Consensus.fork_score_ok (mem_valid_forks.mp hC).2
  rcases best with _ | best
  · have hnone := mem_valid_forks.mpr ⟨hmem, hL⟩
    rw [maxBy_eq_none hbest] at hnone
    cases hnone
  obtain ⟨hbest_mem, k, hk, hmost⟩ := maxBy_eq_some hbest
  have hle : ∀ C ∈ pos.valid_forks genesis_stakes chains,
      pos.rank genesis_stakes C ≤ pos.rank genesis_stakes best := by
    intro C hC
    obtain ⟨l, hl, hlk⟩ := hmost C hC
    rw [rank_of_fork_score hl, rank_of_fork_score hk]
    exact hlk
  refine ⟨best, ?_, hbest_mem, hle, ?_⟩
  · rw [Consensus.select_canonical_chain_eq, hfilter, ok_bind, hbest]
    rfl
  · intro hhead hrank
    obtain ⟨rest, rfl⟩ := List.head?_eq_some_iff.mp hhead
    have hcons : pos.valid_forks genesis_stakes (L :: rest)
        = L :: pos.valid_forks genesis_stakes rest := by
      rw [ProofOfStake.valid_forks, List.filter_cons,
        if_pos (by simpa using Consensus.candidate_valid_iff.mpr hL), ProofOfStake.valid_forks]
    rw [hcons] at hle hbest
    obtain ⟨s, hs⟩ := Consensus.fork_score_ok hL
    have hfirst := maxBy_cons_of_le hs fun C (hC : C ∈ pos.valid_forks genesis_stakes rest) => by
      obtain ⟨l, hl⟩ := Consensus.fork_score_ok (mem_valid_forks.mp hC).2
      refine ⟨l, hl, ?_⟩
      have hCL := hle C (List.mem_cons_of_mem L hC)
      rw [← hrank, rank_of_fork_score hl, rank_of_fork_score hs] at hCL
      exact hCL
    rw [hfirst, Except.ok.injEq, Option.some.injEq] at hbest
    exact hbest.symm

/-- Proof-of-stake fork resolution converges: complete chains, on which
validation does not raise, lead in any order of arrival to a chain of the length,
the weight and the tip that one choice among the start and all of them has; where
no two valid ones share their tip, to that very chain. -/
theorem forks_converge (hrun : node.Runs (.pos pos))
    (hvalid : Verifies (node.blockchain.verify_chain (some node.genesis_stakes)))
    {forks : List (List Block)} (hcomplete : ∀ fork ∈ forks, Complete pos.genesis_prev_hash fork)
    (hchecked : ∀ fork ∈ forks, ∃ b, pos.candidate_valid (some node.genesis_stakes) fork = .ok b)
    (htips : ∀ block ∈ node.blockchain.chain ++ forks.flatten,
      ¬ TranHashIs block pos.genesis_prev_hash) :
    ∃ best,
      pos.select_canonical_chain (node.blockchain.chain :: forks) (some node.genesis_stakes)
        = .ok best ∧
      (∀ chains, chains.Perm (node.blockchain.chain :: forks) →
        ∃ pick, pos.select_canonical_chain chains (some node.genesis_stakes) = .ok pick ∧
          SameScore pos node.genesis_stakes pick best) ∧
      ∀ order, order.Perm forks →
        SameScore pos node.genesis_stakes (run Node.after_fork node order).blockchain.chain best ∧
        ((∀ C ∈ forks, ∀ D ∈ forks, pos.candidate_valid (some node.genesis_stakes) C = .ok true →
            pos.candidate_valid (some node.genesis_stakes) D = .ok true →
            ProofOfStake.tip_hash C = ProofOfStake.tip_hash D → C = D) →
          (run Node.after_fork node order).blockchain.chain = best) := by
  have hL := hrun.verifies_iff.mp hvalid
  have hsound : node.Sound (.pos pos) node.genesis_stakes :=
    ⟨rfl, ⟨_, hrun, Consensus.SameProtocol.refl _⟩, hL⟩
  have hchecked' : ∀ C ∈ node.blockchain.chain :: forks,
      ∃ b, (Consensus.pos pos).candidate_valid node.genesis_stakes C = .ok b := by
    intro C hC
    rcases List.mem_cons.mp hC with rfl | hC
    · exact ⟨true, Consensus.candidate_valid_iff.mpr hL⟩
    · exact hchecked C hC
  obtain ⟨best, hselect, hmem, hle, hfirst⟩ := select_all hchecked' List.mem_cons_self hL
  obtain ⟨hbest_mem, hbest⟩ := mem_valid_forks.mp hmem
  refine ⟨best, hselect, ?_, ?_⟩
  · intro chains hperm
    obtain ⟨pick, hpick, hpick_mem, hpick_le, -⟩ := select_all
      (fun C hC => hchecked' C (hperm.mem_iff.mp hC)) (hperm.mem_iff.mpr List.mem_cons_self) hL
    obtain ⟨hpick_mem, hpick_grows⟩ := mem_valid_forks.mp hpick_mem
    refine ⟨pick, hpick, sameScore_of_rank hpick_grows hbest (le_antisymm ?_ ?_)⟩
    · exact hle pick (mem_valid_forks.mpr ⟨hperm.mem_iff.mp hpick_mem, hpick_grows⟩)
    · exact hpick_le best (mem_valid_forks.mpr ⟨hperm.mem_iff.mpr hbest_mem, hbest⟩)
  · intro order hperm
    have hfinal := hsound.run_complete (fun fork hf => hcomplete fork (hperm.mem_iff.mp hf))
      (fun block hb => htips block (((hperm.flatten).append_left _).mem_iff.mp hb))
    -- the valid arrivals in this order, and the start, are the valid candidates
    have hvalid_mem : ∀ C, C ∈ node.blockchain.chain :: pos.valid_forks node.genesis_stakes order ↔
        C ∈ pos.valid_forks node.genesis_stakes (node.blockchain.chain :: forks) := by
      intro C
      rw [List.mem_cons, mem_valid_forks, mem_valid_forks, List.mem_cons, hperm.mem_iff]
      constructor
      · rintro (rfl | ⟨hC, hgrows⟩)
        · exact ⟨Or.inl rfl, hL⟩
        · exact ⟨Or.inr hC, hgrows⟩
      · rintro ⟨rfl | hC, hgrows⟩
        · exact Or.inl rfl
        · exact Or.inr ⟨hC, hgrows⟩
    have hmax : ∀ C ∈ node.blockchain.chain :: pos.valid_forks node.genesis_stakes order,
        pos.rank node.genesis_stakes C ≤ pos.rank node.genesis_stakes best :=
      fun C hC => hle C ((hvalid_mem C).mp hC)
    have hmem' := (hvalid_mem best).mpr hmem
    constructor
    · apply sameScore_of_rank ?_ hbest
      · rw [hfinal]
        exact score_foldl_keepBetter hmem' hmax
      · exact (hsound.run order).1.valid
    · intro hdistinct
      rw [hfinal]
      apply foldl_keepBetter_eq hmem' hmax
      · intro hrank
        exact hfirst rfl hrank
      · intro C hC D hD hrank
        obtain ⟨hC, hgrowsC⟩ := mem_valid_forks.mp hC
        obtain ⟨hD, hgrowsD⟩ := mem_valid_forks.mp hD
        exact hdistinct C (hperm.mem_iff.mp hC) D (hperm.mem_iff.mp hD)
          (Consensus.candidate_valid_iff.mpr hgrowsC) (Consensus.candidate_valid_iff.mpr hgrowsD)
          (tip_hash_of_rank hgrowsC hgrowsD hrank)

end Order

/-! ## Two blocks and a chain that repeats one of them -/

namespace TwoBlocks

attribute [local instance] cpython letterRsa

/-- A node of the protocol before its first block. -/
def fresh : Node :=
  ⟨lit "local", Rewritten.network, stakes, BlockChain.new (some (.pos pos)) DEFAULT_GENESIS_PREV_HASH⟩

def forks : List (List Block) := [[blockA], [blockB], [blockA, blockA]]

theorem complete_forks : ∀ fork ∈ forks, Complete DEFAULT_GENESIS_PREV_HASH fork := by
  intro fork hfork
  simp only [forks, List.mem_cons, List.not_mem_nil, or_false] at hfork
  rcases hfork with rfl | rfl | rfl
  · exact ⟨blockA, [], rfl, _, rfl, rfl⟩
  · exact ⟨blockB, [], rfl, _, rfl, rfl⟩
  · exact ⟨blockA, [blockA], rfl, _, rfl, rfl⟩

theorem candidate_valid_of_verifies {chain : List Block}
    (h : Verifies (verify_chain_integrity chain (some (.pos pos)) DEFAULT_GENESIS_PREV_HASH
      (some stakes))) : pos.candidate_valid (some stakes) chain = .ok true :=
  (@Consensus.candidate_valid_iff _ _ (.pos pos) stakes chain).mpr (Consensus.verifies_iff.mp h)

/-- The repeated block is not linked to itself. -/
theorem candidate_valid_repeated :
    pos.candidate_valid (some stakes) [blockA, blockA] = .ok false := by decide +kernel

theorem tips_forks : ∀ block ∈ fresh.blockchain.chain ++ forks.flatten,
    ¬ TranHashIs block DEFAULT_GENESIS_PREV_HASH := by
  have htran : ∀ {i t s : String}, lit t ≠ DEFAULT_GENESIS_PREV_HASH →
      ¬ TranHashIs (block i t s) DEFAULT_GENESIS_PREV_HASH := by
    intro i t s hne h
    exact hne (PyVal.str.inj (HeaderIs.unique (v := .str (lit t)) ⟨_, rfl, rfl⟩ h))
  intro b hb
  have hb' : b = blockA ∨ b = blockB := by
    simpa [fresh, BlockChain.new, forks, or_comm, or_left_comm] using hb
  rcases hb' with rfl | rfl
  · exact htran (by decide)
  · exact htran (by decide)

/-- The theorem on the three chains, in two orders of arrival. -/
theorem forks_converged : ∃ best,
    pos.select_canonical_chain ([] :: forks) (some stakes) = .ok best ∧
    (run Node.after_fork fresh forks).blockchain.chain = best ∧
    (run Node.after_fork fresh forks.reverse).blockchain.chain = best := by
  have hchecked : ∀ fork ∈ forks, ∃ b, pos.candidate_valid (some stakes) fork = .ok b := by
    intro fork hfork
    simp only [forks, List.mem_cons, List.not_mem_nil, or_false] at hfork
    rcases hfork with rfl | rfl | rfl
    · exact ⟨true, candidate_valid_of_verifies verifies_blockA⟩
    · exact ⟨true, candidate_valid_of_verifies verifies_blockB⟩
    · exact ⟨false, candidate_valid_repeated⟩
  have hvalid : ∀ fork ∈ forks, pos.candidate_valid (some stakes) fork = .ok true →
      fork = [blockA] ∨ fork = [blockB] := by
    intro fork hfork hok
    simp only [forks, List.mem_cons, List.not_mem_nil, or_false] at hfork
    rcases hfork with rfl | rfl | rfl
    · exact Or.inl rfl
    · exact Or.inr rfl
    · rw [candidate_valid_repeated] at hok
      cases hok
  have hdistinct : ∀ C ∈ forks, ∀ D ∈ forks, pos.candidate_valid (some stakes) C = .ok true →
      pos.candidate_valid (some stakes) D = .ok true →
      ProofOfStake.tip_hash C = ProofOfStake.tip_hash D → C = D := by
    have htips : ProofOfStake.tip_hash [blockA] ≠ ProofOfStake.tip_hash [blockB] := by
      decide +kernel
    intro C hC D hD hCok hDok htip
    rcases hvalid C hC hCok with rfl | rfl
    · rcases hvalid D hD hDok with rfl | rfl
      · rfl
      · exact absurd htip htips
    · rcases hvalid D hD hDok with rfl | rfl
      · exact absurd htip.symm htips
      · rfl
  obtain ⟨best, hselect, -, hall⟩ := forks_converge
    (show fresh.Runs (.pos pos) from ⟨rfl, rfl⟩) ⟨.ok, rfl, rfl⟩ complete_forks hchecked tips_forks
  exact ⟨best, hselect, (hall forks (List.Perm.refl _)).2 hdistinct,
    (hall forks.reverse (List.reverse_perm _)).2 hdistinct⟩

end TwoBlocks

end EasyBlockchain
