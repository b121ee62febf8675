/-
Fork choice of both protocols at once.

A candidate chain is kept when it grows under the protocol's step, the kept
chains are compared by a score, and the first chain of the highest score is
selected. Proof of work scores the sum of the declared difficulties before the
length; proof of stake the length before the weight before the last hash. Under
either protocol a chain scores higher than its own beginnings.
-/
import EasyBlockchain.PowWork
import EasyBlockchain.PosAcceptance
import Mathlib.Data.Int.ConditionallyCompleteOrder

set_option autoImplicit false

namespace EasyBlockchain

open Py Lib

/-- A score of either protocol: difficulties, length and nothing, or length,
weight and last hash. -/
abbrev ForkScore : Type := ℤ ×ₗ ℤ ×ₗ Str

/-- A proof-of-work score. -/
def powScore (s : ℤ ×ₗ ℕ) : ForkScore := toLex ((ofLex s).1, toLex (((ofLex s).2 : ℤ), []))

/-- A proof-of-stake score. -/
def posScore (s : ℕ ×ₗ ℤ ×ₗ Str) : ForkScore := toLex (((ofLex s).1 : ℤ), (ofLex s).2)

theorem powScore_strictMono : StrictMono powScore := by
  intro s t h
  rw [Prod.Lex.lt_iff] at h
  simp only [powScore, Prod.Lex.toLex_lt_toLex, Nat.cast_lt, lt_irrefl, and_false, or_false]
  exact h

theorem posScore_strictMono : StrictMono posScore := by
  intro s t h
  rw [Prod.Lex.lt_iff] at h
  simp only [posScore, Prod.Lex.toLex_lt_toLex, Nat.cast_lt, Nat.cast_inj]
  exact h

namespace Consensus

variable [Runtime] [Rsa]

/-- A block may follow a chain. -/
def ChainStep : Consensus → StakeMap → List Block → Block → Prop
  | pow self, _ => PowStep self self.genesis_prev_hash
  | pos self, genesis_stakes => PosStep self self.genesis_prev_hash genesis_stakes

/-- The filter of `select_canonical_chain`. -/
def candidate_valid : Consensus → StakeMap → List Block → PyM Bool
  | pow self, _, chain => self.is_chain_valid chain
  | pos self, genesis_stakes, chain => self.candidate_valid (some genesis_stakes) chain

/-- The key `select_canonical_chain` compares by. -/
def fork_score : Consensus → StakeMap → List Block → PyM ForkScore
  | pow _, _, chain => (ProofOfWork.score_chain chain).map powScore
  | pos self, genesis_stakes, chain => (self.canonical_score (some genesis_stakes) chain).map posScore

theorem select_canonical_chain_eq (self : Consensus) (genesis_stakes : StakeMap)
    (chains : List (List Block)) :
    self.select_canonical_chain chains (some genesis_stakes) = do
      let valid_chains ← filterPy (self.candidate_valid genesis_stakes) chains
      match ← maxBy (self.fork_score genesis_stakes) valid_chains with
      | none => return []
      | some chain => return chain := by
  cases self with
  | pow self =>
      have hmax : ∀ xs, maxBy ((pow self).fork_score genesis_stakes) xs
          = maxBy ProofOfWork.score_chain xs := maxBy_map powScore_strictMono
      simp only [hmax]
      rfl
  | pos self =>
      have hmax : ∀ xs, maxBy ((pos self).fork_score genesis_stakes) xs
          = maxBy (self.canonical_score (some genesis_stakes)) xs := maxBy_map posScore_strictMono
      simp only [hmax]
      rfl

variable {c : Consensus} {genesis_stakes : StakeMap} {chain : List Block}

theorem candidate_valid_iff :
    c.candidate_valid genesis_stakes chain = .ok true ↔ Grows (c.ChainStep genesis_stakes) chain := by
  cases c with
  | pow self => exact is_chain_valid_iff
  | pos self => exact validate_chain_with_genesis_stakes_iff

theorem verifies_iff :
    Verifies (verify_chain_integrity chain (some c) c.genesis_prev_hash (some genesis_stakes)) ↔
      Grows (c.ChainStep genesis_stakes) chain := by
  cases c with
  | pow self => exact (pow_verification (orDefault_self _)).1
  | pos self => exact (pos_verification (orDefault_self _) genesis_stakes chain).1

/-- A block that may follow a chain is linked to it, by hash and by index. -/
theorem linked_of_chainStep {seen : List Block} {block : Block}
    (h : c.ChainStep genesis_stakes seen block) :
    HashLinked c.genesis_prev_hash seen block ∧ IndexFollows seen block ∧
      ∃ t, TranHashIs block t := by
  cases c with
  | pow self =>
      obtain ⟨hlink, hblock⟩ := h
      obtain ⟨f, hof, -⟩ := ProofOfWork.accepts_validate_block.mp hblock
      obtain ⟨hhash, hindex⟩ := (accepts_chain_link (orDefault_self _) ⟨_, hof.prev_hash⟩).mp hlink
      exact ⟨hhash, hindex, f.tran_hash, hof.tran_hash⟩
  | pos self =>
      obtain ⟨hhash, hindex, f, ⟨hof, -⟩, -⟩ := (posStep_iff (orDefault_self _)).mp h
      exact ⟨hhash, hindex, f.tran_hash, hof.tran_hash⟩

/-- Between a beginning of a valid chain and the block after it, the hashes
meet. -/
theorem hashes_meet {R : List Block} (hR : Grows (c.ChainStep genesis_stakes) R) {h : ℕ}
    (hh : h < R.length) :
    ∃ p, PrevHashIs (R.get ⟨h, hh⟩) p ∧ TipIs TranHashIs c.genesis_prev_hash (R.take h) p := by
  exact (linked_of_chainStep (hR.getElem hh)).1

/-! ## Scores of valid chains -/

omit [Rsa] in
/-- The declared difficulties of a valid chain are positive. -/
theorem block_difficulty_of_grows {pow : ProofOfWork} {g : Str} (h : Grows (PowStep pow g) chain)
    {block : Block} (hblock : block ∈ chain) :
    ∃ d, ProofOfWork.block_difficulty block = .ok d ∧ 0 < d := by
  obtain ⟨pre, post, rfl⟩ := List.append_of_mem hblock
  have hstep := grows_iff_split.mp h pre block post rfl
  obtain ⟨f, hof, hvalid⟩ := ProofOfWork.accepts_validate_block.mp hstep.2
  exact ⟨f.difficulty, hof.block_difficulty, (meets_difficulty_iff.mp hvalid.work).1⟩

omit [Runtime] [Rsa] in
/-- Blocks of positive difficulties add up to a positive sum. -/
theorem difficulties_pos (h : ∀ b ∈ chain, ∃ d, ProofOfWork.block_difficulty b = .ok d ∧ 0 < d) :
    ∃ ds, mapPy ProofOfWork.block_difficulty chain = .ok ds ∧ (chain ≠ [] → 0 < ds.sum) := by
  obtain ⟨ds, hds⟩ := @mapPy_ok_of_forall _ _ ProofOfWork.block_difficulty chain
    fun b hb => (h b hb).imp fun d hd => hd.1
  refine ⟨ds, hds, ?_⟩
  intro hne
  apply List.sum_pos
  · intro d hd
    obtain ⟨b, hb, hbd⟩ := exists_of_mem_mapPy hds hd
    obtain ⟨d', hd', hpos⟩ := h b hb
    rw [hbd, Except.ok.injEq] at hd'
    rw [hd']
    exact hpos
  · rintro rfl
    have hlen := length_mapPy hds
    exact hne (List.length_eq_zero_iff.mp hlen.symm)

/-- The blocks of a valid proof-of-stake chain name their validators. -/
theorem namesValidators_of_grows {pos : ProofOfStake} {g : Str}
    (h : Grows (PosStep pos g genesis_stakes) chain) : NamesValidators chain := by
  intro block hblock
  obtain ⟨f, hof⟩ := fields_of_grows h block hblock
  exact ⟨_, hof.block_validator_id⟩

omit [Runtime] [Rsa] in
theorem block_weight_ok {stakes : StakeMap} {block : Block} {id : Str}
    (h : ProofOfStake.block_validator_id block = .ok (.str id)) :
    ∃ w, ProofOfStake.block_weight stakes block = .ok w := by
  rw [ProofOfStake.block_weight, h]
  simp only [ok_bind, pure_eq, ProofOfStake.has_validator, PyVal.hashable, if_true]
  by_cases hempty : (!(PyVal.str id).truthy) = true
  · exact ⟨0, by rw [if_pos hempty]⟩
  · rw [if_neg hempty]
    rcases stakes.contains id with _ | _
    · exact ⟨0, rfl⟩
    · exact ⟨_, rfl⟩

omit [Runtime] [Rsa] in
/-- The tip hash of a chain that ends in a block with a hash. -/
theorem tip_hash_of_last {tip : Block} {h : Str} (hlast : chain.getLast? = some tip)
    (htip : TranHashIs tip h) : ProofOfStake.tip_hash chain = .ok h := by
  obtain ⟨header, hheader, htran⟩ := htip
  obtain ⟨d, rfl, hfind⟩ := PyVal.item_eq_ok.mp htran
  have htruthy : (PyVal.dict d).truthy = true := by
    cases d with
    | nil => simp at hfind
    | cons p rest => rfl
  simp [ProofOfStake.tip_hash, hlast, PyVal.get_of_item hheader, htruthy, hfind, ProofOfStake.strOf]

/-- The score of a valid proof-of-stake chain: its length first. -/
theorem canonical_score_of_grows {pos : ProofOfStake} {g : Str}
    (h : Grows (PosStep pos g genesis_stakes) chain) :
    ∃ weight tip, ProofOfStake.tip_hash chain = .ok tip ∧
      pos.canonical_score (some genesis_stakes) chain
        = .ok (toLex (chain.length, toLex (weight, tip))) := by
  have hnames := namesValidators_of_grows h
  obtain ⟨tip, htip⟩ : ∃ tip, ProofOfStake.tip_hash chain = .ok tip := by
    rcases hlast : chain.getLast? with _ | last
    · exact ⟨[], by simp [ProofOfStake.tip_hash, hlast]⟩
    · obtain ⟨init, rfl⟩ := List.getLast?_eq_some_iff.mp hlast
      obtain ⟨-, -, f, hof, -⟩ := grows_snoc.mp h
      exact ⟨f.tran_hash, tip_hash_of_last hlast hof.tran_hash⟩
  have hcompute := ProofOfStake.compute_validators_eq_replay pos.settings genesis_stakes hnames
  obtain ⟨ws, hws⟩ := @mapPy_ok_of_forall _ _
    (ProofOfStake.block_weight (ProofOfStake.replay pos.settings genesis_stakes chain))
    chain fun b hb => by
      obtain ⟨id, hid⟩ := hnames b hb
      exact block_weight_ok hid
  exact ⟨ws.sum, tip, htip, by
    simp [ProofOfStake.canonical_score, htip, hcompute, ProofOfStake.stake_weight, hws]⟩

/-- Every valid chain has a score. -/
theorem fork_score_ok (h : Grows (c.ChainStep genesis_stakes) chain) :
    ∃ s, c.fork_score genesis_stakes chain = .ok s := by
  cases c with
  | pow self =>
      obtain ⟨ds, hds, -⟩ := difficulties_pos fun b hb => block_difficulty_of_grows h hb
      exact ⟨powScore (toLex (ds.sum, chain.length)), by
        simp only [fork_score, ProofOfWork.score_chain, ProofOfWork.total_difficulty, hds, ok_bind,
          pure_eq, Except.map]⟩
  | pos self =>
      obtain ⟨weight, tip, -, hscore⟩ := canonical_score_of_grows h
      exact ⟨posScore (toLex (chain.length, toLex (weight, tip))), by
        simp only [fork_score, hscore, Except.map]⟩

/-- A valid chain scores higher than its beginnings. -/
theorem fork_score_lt {L R : List Block} (hR : Grows (c.ChainStep genesis_stakes) R)
    (hpre : L <+: R) (hne : L ≠ R) {s t : ForkScore}
    (hs : c.fork_score genesis_stakes L = .ok s) (ht : c.fork_score genesis_stakes R = .ok t) :
    s < t := by
  have hL := hR.prefix_closed hpre
  obtain ⟨S, rfl⟩ := hpre
  have hS : S ≠ [] := by
    rintro rfl
    exact hne (List.append_nil L).symm
  have hlen := List.length_pos_iff.mpr hS
  cases c with
  | pow self =>
      obtain ⟨ds, hds, -⟩ := difficulties_pos fun b hb => block_difficulty_of_grows hL hb
      obtain ⟨es, hes, hpos⟩ := @difficulties_pos S fun b hb =>
        block_difficulty_of_grows hR (List.mem_append_right L hb)
      have happ := mapPy_append hds hes
      simp only [fork_score, ProofOfWork.score_chain, ProofOfWork.total_difficulty, hds, happ,
        ok_bind, pure_eq, Except.map, Except.ok.injEq] at hs ht
      subst hs ht
      apply powScore_strictMono
      rw [Prod.Lex.toLex_lt_toLex]
      left
      have := hpos hS
      rw [List.sum_append]
      omega
  | pos self =>
      obtain ⟨w, tip, -, hscore⟩ := canonical_score_of_grows hL
      obtain ⟨w', tip', -, hscore'⟩ := canonical_score_of_grows hR
      simp only [fork_score, hscore, hscore', Except.map, Except.ok.injEq] at hs ht
      subst hs ht
      apply posScore_strictMono
      rw [Prod.Lex.toLex_lt_toLex]
      left
      rw [List.length_append]
      omega

/-- A valid chain scores higher than what is left without its beginning. -/
theorem fork_score_suffix_lt {A B : List Block} (hAB : Grows (c.ChainStep genesis_stakes) (A ++ B))
    (hB : Grows (c.ChainStep genesis_stakes) B) (hA : A ≠ []) {s t : ForkScore}
    (hs : c.fork_score genesis_stakes B = .ok s)
    (ht : c.fork_score genesis_stakes (A ++ B) = .ok t) : s < t := by
  have hlen := List.length_pos_iff.mpr hA
  cases c with
  | pow self =>
      obtain ⟨ds, hds, hpos⟩ := @difficulties_pos A fun b hb =>
        block_difficulty_of_grows hAB (List.mem_append_left B hb)
      obtain ⟨es, hes, -⟩ := difficulties_pos fun b hb => block_difficulty_of_grows hB hb
      have happ := mapPy_append hds hes
      simp only [fork_score, ProofOfWork.score_chain, ProofOfWork.total_difficulty, hes, happ,
        ok_bind, pure_eq, Except.map, Except.ok.injEq] at hs ht
      subst hs ht
      apply powScore_strictMono
      rw [Prod.Lex.toLex_lt_toLex]
      left
      have := hpos hA
      rw [List.sum_append]
      omega
  | pos self =>
      obtain ⟨w, tip, -, hscore⟩ := canonical_score_of_grows hB
      obtain ⟨w', tip', -, hscore'⟩ := canonical_score_of_grows hAB
      simp only [fork_score, hscore, hscore', Except.map, Except.ok.injEq] at hs ht
      subst hs ht
      apply posScore_strictMono
      rw [Prod.Lex.toLex_lt_toLex]
      left
      rw [List.length_append]
      omega

/-! ## Heights as indices -/

/-- The index of a block is the integer `n`. -/
def HeightIs (block : Block) (n : ℕ) : Prop := block.item (lit "block_index") = .ok (.int n)

omit [Runtime] [Rsa] in
theorem HeightIs.unique {block : Block} {m n : ℕ} (hm : HeightIs block m) (hn : HeightIs block n) :
    m = n := by
  have h := hm.symm.trans hn
  injection h with h
  injection h with h
  exact_mod_cast h

omit [Rsa] in
/-- After an integer the next integer follows. -/
theorem heightIs_of_indexFollows {seen : List Block} {block : Block}
    (h : IndexFollows seen block) (hint : ∃ i : ℤ, block.item (lit "block_index") = .ok (.int i))
    (hlast : ∀ last, seen.getLast? = some last → HeightIs last seen.length) :
    HeightIs block (seen.length + 1) := by
  obtain ⟨i, hi⟩ := hint
  obtain ⟨index, hindex, hfollows⟩ := h
  rw [hi, Except.ok.injEq] at hindex
  subst hindex
  have heq : ∀ i j : ℤ, (PyVal.int i).eq (.int j) = true → i = j := by
    intro i j h
    simp only [PyVal.eq, PyVal.numEq, PyVal.num, PyFloat.eq, PyFloat.value, Option.getD_some,
      beq_iff_eq] at h
    exact_mod_cast h
  rcases hl : seen.getLast? with _ | last
  · rw [hl] at hfollows
    rw [HeightIs, hi, heq i 1 hfollows, List.getLast?_eq_none_iff.mp hl]
    rfl
  · rw [hl] at hfollows
    obtain ⟨prev, next, hprev, hnext, hfollows⟩ := hfollows
    rw [hlast last hl, Except.ok.injEq] at hprev
    subst hprev
    obtain rfl := Except.ok.inj hnext
    rw [HeightIs, hi, heq _ _ hfollows]
    push_cast
    rfl

/-- Where all indices of a valid chain are integers, they are the heights. -/
theorem heights_of_integers (hgrows : Grows (c.ChainStep genesis_stakes) chain)
    (hint : ∀ block ∈ chain, ∃ i : ℤ, block.item (lit "block_index") = .ok (.int i)) {n : ℕ}
    (hn : n < chain.length) : HeightIs (chain.get ⟨n, hn⟩) (n + 1) := by
  induction n with
  | zero =>
      have hstep := (linked_of_chainStep (hgrows.getElem hn)).2.1
      exact heightIs_of_indexFollows hstep (hint _ (List.getElem_mem hn)) (by simp)
  | succ n ih =>
      have hstep := (linked_of_chainStep (hgrows.getElem hn)).2.1
      have hlen : (chain.take (n + 1)).length = n + 1 := List.length_take_of_le (by omega)
      have hheight := heightIs_of_indexFollows hstep (hint _ (List.getElem_mem hn)) (by
        intro last hlast
        rw [List.take_succ_eq_append_getElem (by omega), List.getLast?_concat] at hlast
        obtain rfl := Option.some.inj hlast
        rw [hlen]
        exact ih (by omega))
      rw [hlen] at hheight
      exact hheight

/-! ## What is selected -/

/-- `R` has a strictly higher score than `L`. -/
def Outscores (c : Consensus) (genesis_stakes : StakeMap) (R L : List Block) : Prop :=
  ∃ s t, c.fork_score genesis_stakes L = .ok s ∧ c.fork_score genesis_stakes R = .ok t ∧ s < t

theorem outscores_of_extends {L R : List Block} (hR : Grows (c.ChainStep genesis_stakes) R)
    (hpre : L <+: R) (hne : L ≠ R) : c.Outscores genesis_stakes R L := by
  obtain ⟨s, hs⟩ := fork_score_ok (hR.prefix_closed hpre)
  obtain ⟨t, ht⟩ := fork_score_ok hR
  exact ⟨s, t, hs, ht, fork_score_lt hR hpre hne hs ht⟩

omit [Runtime] in
theorem Outscores.trans {A B C : List Block} (h : c.Outscores genesis_stakes C B)
    (h' : c.Outscores genesis_stakes B A) : c.Outscores genesis_stakes C A := by
  obtain ⟨s, t, hs, ht, hst⟩ := h'
  obtain ⟨t', u, ht', hu, htu⟩ := h
  rw [ht, Except.ok.injEq] at ht'
  subst ht'
  exact ⟨s, u, hs, hu, hst.trans htu⟩

omit [Runtime] in
theorem Outscores.irrefl (A : List Block) : ¬ c.Outscores genesis_stakes A A := by
  rintro ⟨s, t, hs, ht, hst⟩
  rw [hs, Except.ok.injEq] at ht
  subst ht
  exact lt_irrefl s hst

/-- The empty chain outscores nothing. -/
theorem Outscores.ne_nil {L R : List Block} (h : c.Outscores genesis_stakes R L)
    (hL : Grows (c.ChainStep genesis_stakes) L) : R ≠ [] := by
  rintro rfl
  by_cases hne : L = []
  · rw [hne] at h
    exact Outscores.irrefl [] h
  · exact Outscores.irrefl [] (h.trans (outscores_of_extends hL List.nil_prefix (Ne.symm hne)))

theorem not_outscores_suffix {A B : List Block} (hAB : Grows (c.ChainStep genesis_stakes) (A ++ B))
    (hB : Grows (c.ChainStep genesis_stakes) B) : ¬ c.Outscores genesis_stakes B (A ++ B) := by
  rintro ⟨t, s, ht, hs, hts⟩
  rcases List.eq_nil_or_concat A with rfl | ⟨A', a, rfl⟩
  · exact Outscores.irrefl B ⟨t, s, ht, hs, hts⟩
  · exact lt_asymm hts (fork_score_suffix_lt hAB hB (by simp) hs ht)

/-- A valid chain that scores strictly higher is selected. -/
theorem select_better {L F : List Block} (hL : Grows (c.ChainStep genesis_stakes) L)
    (hF : Grows (c.ChainStep genesis_stakes) F) (h : c.Outscores genesis_stakes F L) :
    c.select_canonical_chain [L, F] (some genesis_stakes) = .ok F := by
  obtain ⟨s, t, hs, ht, hst⟩ := h
  have hvalid : filterPy (c.candidate_valid genesis_stakes) [L, F] = .ok [L, F] := by
    rw [filterPy_eq_ok]
    constructor
    · intro x hx
      refine ⟨true, candidate_valid_iff.mpr ?_⟩
      rcases List.mem_pair.mp hx with rfl | rfl
      · exact hL
      · exact hF
    · simp [candidate_valid_iff.mpr hL, candidate_valid_iff.mpr hF]
  have hmax : maxBy (c.fork_score genesis_stakes) [L, F] = .ok (some F) := by
    apply maxBy_eq_of_lt (by simp) ht
    intro y hy hne
    obtain rfl : y = L := by simpa [hne] using hy
    exact ⟨s, hs, hst⟩
  rw [select_canonical_chain_eq, hvalid, ok_bind, hmax]
  rfl

/-- A chain that is not valid, or does not score strictly higher, is not. -/
theorem select_not_better {L F : List Block} (hL : Grows (c.ChainStep genesis_stakes) L) {b : Bool}
    (hF : c.candidate_valid genesis_stakes F = .ok b)
    (h : ¬ (b = true ∧ c.Outscores genesis_stakes F L)) :
    c.select_canonical_chain [L, F] (some genesis_stakes) = .ok L := by
  obtain ⟨s, hs⟩ := fork_score_ok hL
  have hvalid : filterPy (c.candidate_valid genesis_stakes) [L, F]
      = .ok (if b then [L, F] else [L]) := by
    rw [filterPy_eq_ok]
    constructor
    · intro x hx
      rcases List.mem_pair.mp hx with rfl | rfl
      · exact ⟨true, candidate_valid_iff.mpr hL⟩
      · exact ⟨b, hF⟩
    · cases b <;> simp [candidate_valid_iff.mpr hL, hF]
  rw [select_canonical_chain_eq, hvalid, ok_bind]
  cases b with
  | false =>
      rw [if_neg Bool.false_ne_true, maxBy_cons_of_le hs (by simp)]
      rfl
  | true =>
      obtain ⟨t, ht⟩ := fork_score_ok (candidate_valid_iff.mp hF)
      have hle : t ≤ s := not_lt.mp fun hst => h ⟨rfl, s, t, hs, ht, hst⟩
      have hrest : ∀ F' ∈ [F], ∃ t, c.fork_score genesis_stakes F' = .ok t ∧ t ≤ s := by
        intro F' hF'
        rw [List.mem_singleton.mp hF']
        exact ⟨t, ht, hle⟩
      rw [if_pos rfl, maxBy_cons_of_le hs hrest]
      rfl

/-- Against a valid chain, another one is selected when it is valid and scores
strictly higher. -/
theorem select_pair {L F best : List Block} (hL : Grows (c.ChainStep genesis_stakes) L)
    (h : c.select_canonical_chain [L, F] (some genesis_stakes) = .ok best) :
    best = L ∨ best = F ∧ Grows (c.ChainStep genesis_stakes) F ∧ c.Outscores genesis_stakes F L := by
  obtain ⟨b, hb⟩ : ∃ b, c.candidate_valid genesis_stakes F = .ok b := by
    rw [select_canonical_chain_eq] at h
    obtain ⟨valid, hvalid, -⟩ := bind_eq_ok.mp h
    exact (filterPy_eq_ok.mp hvalid).1 F (by simp)
  by_cases hbetter : b = true ∧ c.Outscores genesis_stakes F L
  · obtain ⟨rfl, hscore⟩ := hbetter
    have hF := candidate_valid_iff.mp hb
    rw [select_better hL hF hscore, Except.ok.injEq] at h
    exact Or.inr ⟨h.symm, hF, hscore⟩
  · rw [select_not_better hL hb hbetter, Except.ok.injEq] at h
    exact Or.inl h.symm

/-- Alone, a valid chain is selected. -/
theorem select_single {F best : List Block}
    (h : c.select_canonical_chain [F] (some genesis_stakes) = .ok best) :
    best = [] ∨ best = F ∧ Grows (c.ChainStep genesis_stakes) F := by
  rw [select_canonical_chain_eq] at h
  obtain ⟨valid, hvalid, h⟩ := bind_eq_ok.mp h
  obtain ⟨best', hbest, h⟩ := bind_eq_ok.mp h
  rcases best' with _ | best'
  · exact Or.inl (Except.ok.inj h).symm
  · obtain rfl := Except.ok.inj h
    obtain ⟨hmem, -⟩ := maxBy_eq_some hbest
    rw [(filterPy_eq_ok.mp hvalid).2] at hmem
    obtain ⟨hmem, hgrows⟩ := List.mem_filter.mp hmem
    obtain rfl := List.mem_singleton.mp hmem
    exact Or.inr ⟨rfl, candidate_valid_iff.mp (by simpa using hgrows)⟩

theorem select_single_valid {F : List Block} (hF : Grows (c.ChainStep genesis_stakes) F) :
    c.select_canonical_chain [F] (some genesis_stakes) = .ok F := by
  obtain ⟨s, hs⟩ := fork_score_ok hF
  have hvalid : filterPy (c.candidate_valid genesis_stakes) [F] = .ok [F] := by
    rw [filterPy_eq_ok]
    simp [candidate_valid_iff.mpr hF]
  rw [select_canonical_chain_eq, hvalid, ok_bind, maxBy_cons_of_le hs (by simp)]
  rfl

end Consensus

end EasyBlockchain
