/-
The proposers of a proof-of-stake chain are fixed before its first block.

A block is accepted from one validator only, the one elected with the stakes at
its height, and the only thing that changes the stakes is the reward of the
block below. So the genesis stakes and the settings determine the validator of
every height and the stakes after it. Whatever hashes, transactions and keys two
accepted chains hold, they name the same validators, and at equal lengths they
weigh the same.
-/
import EasyBlockchain.PosConvergence

set_option autoImplicit false

namespace EasyBlockchain

open Py Lib

section Schedule

variable [Runtime]

/-- The stakes after a number of blocks, each by the validator elected for it. -/
def scheduled_stakes (settings : PosSettings) (genesis_stakes : StakeMap) : ℕ → StakeMap
  | 0 => genesis_stakes
  | n + 1 =>
    let stakes := scheduled_stakes settings genesis_stakes n
    match ProofOfStake.select_proposer (n + 1 : ℕ) stakes with
    | .ok id => stakes.modify id (· + settings.block_reward)
    | .error _ => stakes

/-- The validator elected for the block after a number of blocks. -/
def scheduled_proposer (settings : PosSettings) (genesis_stakes : StakeMap) (n : ℕ) : PyM Str :=
  ProofOfStake.select_proposer (n + 1 : ℕ) (scheduled_stakes settings genesis_stakes n)

variable [Rsa] {pos : ProofOfStake} {g : Str} {genesis_stakes : StakeMap} {chain : List Block}

omit [Rsa] in
theorem scheduled_stakes_succ {settings : PosSettings} {n : ℕ} {id : Str}
    (h : scheduled_proposer settings genesis_stakes n = .ok id) :
    scheduled_stakes settings genesis_stakes (n + 1)
      = (scheduled_stakes settings genesis_stakes n).modify id (· + settings.block_reward) := by
  rw [scheduled_proposer] at h
  rw [scheduled_stakes]
  simp only [h]

omit [Runtime] [Rsa] in
/-- The reward of a block goes to the validator it names. -/
theorem rewarded_snoc {settings : PosSettings} {block : Block} {id : Str}
    (hid : ProofOfStake.block_validator_id block = .ok (.str id)) (hne : id ≠ []) :
    rewarded settings genesis_stakes (chain ++ [block])
      = (rewarded settings genesis_stakes chain).modify id (· + settings.block_reward) := by
  have hproposed : ProofOfStake.proposedBy block = some id := by
    rw [ProofOfStake.proposedBy, hid]
    simp [hne]
  rw [← replay_eq_rewarded, ← replay_eq_rewarded, ProofOfStake.replay_snoc, ProofOfStake.credit,
    hproposed]

/-- The stakes of a valid chain are the scheduled ones of its length. -/
theorem rewarded_eq_scheduled (h : Grows (PosStep pos g genesis_stakes) chain) :
    rewarded pos.settings genesis_stakes chain
      = scheduled_stakes pos.settings genesis_stakes chain.length := by
  induction chain using List.reverseRecOn with
  | nil => simp [rewarded, scheduled_stakes]
  | append_singleton chain block ih =>
      obtain ⟨hchain, -, f, hof, hvalid⟩ := grows_snoc.mp h
      have hstakes := ih hchain
      have hproposer := hvalid.proposer
      rw [hstakes] at hproposer
      rw [rewarded_snoc hof.block_validator_id hvalid.named, hstakes, List.length_append,
        List.length_singleton, scheduled_stakes_succ hproposer]

/-- Each block of a valid chain is the scheduled validator's. -/
theorem proposer_of_grows (h : Grows (PosStep pos g genesis_stakes) chain) {i : ℕ}
    (hi : i < chain.length) : ∃ f : ProofOfStake.PosFields, f.Of chain[i] ∧ f.slot = (i + 1 : ℕ) ∧
      scheduled_proposer pos.settings genesis_stakes i = .ok f.validator_id := by
  obtain ⟨-, f, hof, hvalid⟩ := h.getElem hi
  have hlength : (chain.take i).length = i := List.length_take_of_le (by omega)
  have hproposer := hvalid.proposer
  rw [rewarded_eq_scheduled (h.prefix_closed (List.take_prefix i chain)), hlength] at hproposer
  refine ⟨f, hof, ?_, hproposer⟩
  rw [hvalid.slot, hlength]

/-- What a chain says about its proposers and its stakes: at every height it
names one validator, and after it the stakes are computed to be these. -/
def FollowsSchedule (settings : PosSettings) (genesis_stakes : StakeMap) (proposers : ℕ → PyM Str)
    (stakes : ℕ → StakeMap) (chain : List Block) : Prop :=
  (∀ (i : ℕ) (hi : i < chain.length), ∃ id, proposers i = .ok id ∧
    ProofOfStake.block_validator_id chain[i] = .ok (.str id)) ∧
  ∀ n ≤ chain.length, ProofOfStake.compute_validators_from_chain (chain.take n) genesis_stakes
    settings = .ok (stakes n)

theorem followsSchedule_of_grows (h : Grows (PosStep pos g genesis_stakes) chain) :
    FollowsSchedule pos.settings genesis_stakes (scheduled_proposer pos.settings genesis_stakes)
      (scheduled_stakes pos.settings genesis_stakes) chain := by
  refine ⟨?_, ?_⟩
  · intro i hi
    obtain ⟨f, hof, -, hproposer⟩ := proposer_of_grows h hi
    exact ⟨f.validator_id, hproposer, hof.block_validator_id⟩
  · intro n hn
    have hprefix := h.prefix_closed (List.take_prefix n chain)
    rw [ProofOfStake.compute_validators_eq_replay pos.settings genesis_stakes
      (Consensus.namesValidators_of_grows hprefix), replay_eq_rewarded,
      rewarded_eq_scheduled hprefix, List.length_take_of_le hn]

/-- Every chain that a node accepts follows the one schedule that its settings and
genesis stakes determine: the validator of each height, and the stakes after it.
The node's keys, its id, its genesis hash and its running stakes do not matter,
nor does anything else the chain holds. -/
theorem schedule_fixed
    (h : Verifies (verify_chain_integrity chain (some (.pos pos)) g (some genesis_stakes))) :
    FollowsSchedule pos.settings genesis_stakes (scheduled_proposer pos.settings genesis_stakes)
      (scheduled_stakes pos.settings genesis_stakes) chain :=
  followsSchedule_of_grows (grows_of_verifies h)

/-! ## Fork choice -/

/-- Valid chains of one length have one weight. -/
theorem same_score_of_length {g' : Str} {C D : List Block}
    (hC : Grows (PosStep pos g genesis_stakes) C) (hD : Grows (PosStep pos g' genesis_stakes) D)
    (hlength : C.length = D.length) : ∃ weight tip tip',
      ProofOfStake.tip_hash C = .ok tip ∧ ProofOfStake.tip_hash D = .ok tip' ∧
      pos.canonical_score (some genesis_stakes) C = .ok (toLex (C.length, toLex (weight, tip))) ∧
      pos.canonical_score (some genesis_stakes) D
        = .ok (toLex (D.length, toLex (weight, tip'))) := by
  obtain ⟨w, tip, htip, hscore⟩ := Consensus.canonical_score_of_grows hC
  obtain ⟨w', tip', htip', hscore'⟩ := Consensus.canonical_score_of_grows hD
  have hids : List.Forall₂ (fun x y => ProofOfStake.block_validator_id x
      = ProofOfStake.block_validator_id y) C D := by
    rw [List.forall₂_iff_get]
    refine ⟨hlength, fun i hi hi' => ?_⟩
    obtain ⟨f, hof, -, hproposer⟩ := proposer_of_grows hC hi
    obtain ⟨f', hof', -, hproposer'⟩ := proposer_of_grows hD hi'
    rw [hproposer] at hproposer'
    simp only [List.get_eq_getElem, hof.block_validator_id, hof'.block_validator_id,
      Except.ok.inj hproposer']
  have hcompute : ∀ {h : Str} {B : List Block}, Grows (PosStep pos h genesis_stakes) B →
      ProofOfStake.compute_validators_from_chain B genesis_stakes pos.settings
        = .ok (scheduled_stakes pos.settings genesis_stakes B.length) := by
    intro h B hB
    have hall := (followsSchedule_of_grows hB).2 B.length le_rfl
    rwa [List.take_length] at hall
  have hweight : w = w' := by
    have hs := hscore
    have hs' := hscore'
    simp only [ProofOfStake.canonical_score, htip, hcompute hC, ok_bind, bind_eq_ok, pure_eq,
      Except.ok.injEq] at hs
    simp only [ProofOfStake.canonical_score, htip', hcompute hD, ok_bind, bind_eq_ok, pure_eq,
      Except.ok.injEq] at hs'
    obtain ⟨v, hv, hlex⟩ := hs
    obtain ⟨v', hv', hlex'⟩ := hs'
    rw [stake_weight_congr hids, hlength, hv', Except.ok.injEq] at hv
    have hvw : v = w := congrArg (fun s => (ofLex (ofLex s).2).1) hlex
    have hvw' : v' = w' := congrArg (fun s => (ofLex (ofLex s).2).1) hlex'
    rw [← hvw, ← hvw', hv]
  exact ⟨w, tip, tip', htip, htip', hscore, by rw [hweight]; exact hscore'⟩

/-- Fork choice with genesis stakes goes by length and then by tip hash: the
weight never decides between valid chains. -/
theorem weight_never_decides {chains : List (List Block)} {best : List Block}
    (hselect : pos.select_canonical_chain chains (some genesis_stakes) = .ok best) :
    ∀ chain ∈ chains, pos.validate_chain_with_genesis_stakes chain genesis_stakes none = .ok true →
      chain.length < best.length ∨ chain.length = best.length ∧ ∃ tip best_tip,
        ProofOfStake.tip_hash chain = .ok tip ∧ ProofOfStake.tip_hash best = .ok best_tip ∧
        tip ≤ best_tip := by
  intro chain hchain hvalid
  simp only [ProofOfStake.select_canonical_chain, bind_eq_ok] at hselect
  obtain ⟨valid_chains, hfilter, selected, hmax, hselect⟩ := hselect
  obtain ⟨-, rfl⟩ := filterPy_eq_ok.mp hfilter
  have hmem : chain ∈ chains.filter fun c =>
      decide (pos.candidate_valid (some genesis_stakes) c = .ok true) := by
    simp only [List.mem_filter, decide_eq_true_eq]
    exact ⟨hchain, hvalid⟩
  have hgrows : ∀ {c : List Block}, pos.validate_chain_with_genesis_stakes c genesis_stakes none
      = .ok true → Grows (PosStep pos (orDefault none pos.genesis_prev_hash) genesis_stakes) c :=
    fun hc => validate_chain_with_genesis_stakes_iff.mp hc
  rcases selected with _ | selected
  · rw [maxBy_eq_none hmax] at hmem
    cases hmem
  · obtain rfl := Except.ok.inj hselect
    obtain ⟨hbest, k, hk, hall⟩ := maxBy_eq_some hmax
    obtain ⟨l, hl, hle⟩ := hall chain hmem
    have hbest' : pos.candidate_valid (some genesis_stakes) selected = .ok true := by
      simpa using (List.mem_filter.mp hbest).2
    rcases lt_trichotomy chain.length selected.length with hlt | heq | hgt
    · exact Or.inl hlt
    · right
      obtain ⟨w, tip, tip', htip, htip', hs, hs'⟩ :=
        same_score_of_length (hgrows hvalid) (hgrows hbest') heq
      rw [hs] at hl
      rw [hs'] at hk
      obtain rfl := Except.ok.inj hl
      obtain rfl := Except.ok.inj hk
      refine ⟨heq, tip, tip', htip, htip', ?_⟩
      rw [heq, Prod.Lex.toLex_le_toLex] at hle
      rcases hle with hlt | ⟨-, hle⟩
      · exact absurd hlt (lt_irrefl _)
      · rw [Prod.Lex.toLex_le_toLex] at hle
        rcases hle with hlt | ⟨-, hle⟩
        · exact absurd hlt (lt_irrefl _)
        · exact hle
    · -- a longer chain scores higher than the selected one
      obtain ⟨w, tip, -, hs⟩ := Consensus.canonical_score_of_grows (hgrows hvalid)
      obtain ⟨w', tip', -, hs'⟩ := Consensus.canonical_score_of_grows (hgrows hbest')
      rw [hs] at hl
      rw [hs'] at hk
      obtain rfl := Except.ok.inj hl
      obtain rfl := Except.ok.inj hk
      rw [Prod.Lex.toLex_le_toLex] at hle
      simp only at hle
      omega

end Schedule

/-! ## Two blocks at one height -/

namespace TwoBlocks

attribute [local instance] cpython letterRsa

theorem schedule_of_blockA : FollowsSchedule pos.settings stakes
    (scheduled_proposer pos.settings stakes) (scheduled_stakes pos.settings stakes) [blockA] :=
  schedule_fixed verifies_blockA

/-- Of two signed blocks the one with the greater hash is selected. -/
theorem greater_hash_selected :
    pos.select_canonical_chain [[blockA], [blockB]] (some stakes) = .ok [blockB] ∧
      ([blockA].length < [blockB].length ∨ [blockA].length = [blockB].length ∧ ∃ tip best_tip,
        ProofOfStake.tip_hash [blockA] = .ok tip ∧ ProofOfStake.tip_hash [blockB] = .ok best_tip ∧
        tip ≤ best_tip) := by
  have hselect : pos.select_canonical_chain [[blockA], [blockB]] (some stakes) = .ok [blockB] := by
    decide +kernel
  have hvalid : pos.validate_chain_with_genesis_stakes [blockA] stakes none = .ok true := by
    decide +kernel
  exact ⟨hselect, weight_never_decides hselect [blockA] List.mem_cons_self hvalid⟩

end TwoBlocks

end EasyBlockchain
