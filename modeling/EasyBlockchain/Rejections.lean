/-
When judging a block or a chain ends with a verdict, in every mode.

`add_block` raises exactly where its block is not readable on the local chain.
A verification, and the validation of the candidates of fork choice, judge the
blocks one after the other up to the first that is refused, so they raise
exactly where one of these is not readable after those before it.
-/
import EasyBlockchain.AllOrNothing
import EasyBlockchain.ForkChoice
import EasyBlockchain.Readable

set_option autoImplicit false

namespace EasyBlockchain

open Py Lib

section Rejections

variable [Runtime] [Rsa] {block : Block} {seen chain : List Block} {g own : Str}
  {stakes : StakeMap}

/-! ## Accepted blocks can be linked to -/

omit [Rsa] in
/-- A number equals numbers only, and those have a successor. -/
theorem addOne_of_indexFollows (h : IndexFollows seen block) :
    ∃ index next, block.item (lit "block_index") = .ok index ∧ index.addOne = .ok next := by
  obtain ⟨index, hindex, h⟩ := h
  obtain ⟨w, hnum, heq⟩ : ∃ w : PyVal, w.num ≠ none ∧ index.eq w = true := by
    split at h
    · exact ⟨_, by simp [PyVal.num], h⟩
    · obtain ⟨last, next, -, hnext, heq⟩ := h
      refine ⟨next, ?_, heq⟩
      cases last <;> simp only [PyVal.addOne, Except.ok.injEq, reduceCtorEq] at hnext <;>
        subst hnext <;> simp [PyVal.num]
  have hindex_num : ∃ next, index.addOne = .ok next := by
    cases index with
    | bool b => exact ⟨_, rfl⟩
    | int i => exact ⟨_, rfl⟩
    | float f => exact ⟨_, rfl⟩
    | _ =>
      cases w <;> simp_all [PyVal.eq, PyVal.num]
  obtain ⟨next, hnext⟩ := hindex_num
  exact ⟨index, next, hindex, hnext⟩

omit [Rsa] in
/-- A block that names a hash of its own, and a number. -/
theorem linkable_snoc (hhash : ∃ t, TranHashIs block t ∧ Scalars t)
    (hindex : IndexFollows seen block) : Linkable (seen ++ [block]) := by
  intro last hlast
  rw [List.getLast?_concat] at hlast
  obtain rfl := Option.some.inj hlast
  exact ⟨hhash, addOne_of_indexFollows hindex⟩

omit [Rsa] in
theorem linkable_of_grows {P : List Block → Block → Prop}
    (hstep : ∀ seen block, P seen block → Linkable (seen ++ [block])) (h : Grows P chain) :
    Linkable chain := by
  rcases List.eq_nil_or_concat chain with rfl | ⟨init, last, rfl⟩
  · intro last hlast
    cases hlast
  · rw [List.concat_eq_append] at h ⊢
    exact hstep init last (grows_snoc.mp h).2

omit [Rsa] in
theorem tran_hash_of_pow {settings : PowSettings}
    (h : Accepts (ProofOfWork.validate_block settings block seen)) :
    ∃ t, TranHashIs block t ∧ Scalars t := by
  obtain ⟨f, hof, hvalid⟩ := ProofOfWork.accepts_validate_block.mp h
  obtain ⟨body_hash, -, hhash⟩ := hvalid.hash
  simp only [calc_pow_tran_hash, bind_eq_ok] at hhash
  obtain ⟨_, -, _, -, hhash⟩ := hhash
  exact ⟨_, hof.tran_hash, (scalars_of_sha256_hex hhash).2⟩

theorem tran_hash_of_pos {keys : StrDict Str} {validators : StakeMap} {height : ℕ}
    {f : ProofOfStake.PosFields} (hof : f.Of block) (hvalid : f.Valid keys validators height) :
    ∃ t, TranHashIs block t ∧ Scalars t := by
  obtain ⟨body_hash, -, hhash⟩ := hvalid.hash
  simp only [calc_pos_tran_hash, bind_eq_ok] at hhash
  obtain ⟨_, -, _, -, hhash⟩ := hhash
  exact ⟨_, hof.tran_hash, (scalars_of_sha256_hex hhash).2⟩

/-! ## The loops of a verification -/

/-- A block may follow a chain, as a verification decides it. -/
def LoopStep (consensus : Option Consensus) (stakes : StakeMap) (g : Str) (seen : List Block)
    (block : Block) : Prop :=
  Accepts (link_check consensus g seen.getLast? block) ∧
    match consensus with
    | some (.pos pos) => ∃ f : ProofOfStake.PosFields, f.Of block ∧ f.Valid
        pos.validator_public_keys (rewarded pos.settings stakes seen) (seen.length + 1)
    | consensus => Accepts (content_check consensus seen block)

/-- The two loops link the first block alike, although they read it in a
different order. -/
theorem accepts_pos_link {pos : ProofOfStake} {previous : Option Block} :
    Accepts (pos_link_check pos g previous block) ↔
      Accepts (link_check (some (.pos pos)) g previous block) := by
  rcases previous with _ | previous
  · simp only [pos_link_check, link_check, accepts_bind, pure_eq, accepts_guard, Bool.not_eq_false']
    constructor
    · rintro ⟨prev, hprev, heq, h⟩
      obtain ⟨⟨index, hindex, hone⟩, -⟩ := accepts_first_link.mp h
      exact ⟨prev, hprev, heq, index, hindex, hone, h⟩
    · rintro ⟨prev, hprev, heq, -, -, -, h⟩
      exact ⟨prev, hprev, heq, h⟩
  · rfl

theorem LoopStep.linkable {consensus : Option Consensus} (h : LoopStep consensus stakes g seen block) :
    Linkable (seen ++ [block]) := by
  obtain ⟨hlink, hcontent⟩ := h
  rcases consensus with _ | pow | pos
  · have hverify : VerifyStep none g seen block := ⟨hlink, hcontent⟩
    obtain ⟨-, _, _, _, _, -, -, -, hhash, htran⟩ := (legacy_verifyStep.mp hverify).1
    simp only [calc_legacy_tran_hash, bind_eq_ok] at hhash
    obtain ⟨_, -, hhash⟩ := hhash
    exact linkable_snoc ⟨_, htran, (scalars_of_sha256_hex hhash).2⟩ hverify.checked.index
  · have hverify : VerifyStep (some (.pow pow)) g seen block := ⟨hlink, hcontent⟩
    exact linkable_snoc (tran_hash_of_pow (accepts_content_check.mp hcontent)) hverify.checked.index
  · obtain ⟨f, hof, hvalid⟩ := hcontent
    have hchecked := checked_of_consensus _ (chain_link_of_link_check hlink)
      ⟨⟨_, hof.prev_hash⟩, _, hof.tran_body⟩
    exact linkable_snoc (tran_hash_of_pos hof hvalid) hchecked.index

/-- What fork choice accepts, a verification accepts. -/
theorem linkable_of_chainStep {consensus : Consensus}
    (h : consensus.ChainStep stakes seen block) : Linkable (seen ++ [block]) := by
  obtain ⟨-, hindex, -⟩ := Consensus.linked_of_chainStep h
  cases consensus with
  | pow pow => exact linkable_snoc (tran_hash_of_pow h.2) hindex
  | pos pos =>
      obtain ⟨-, f, hof, hvalid⟩ := h
      exact linkable_snoc (tran_hash_of_pos hof hvalid) hindex

/-! ## Readable blocks -/

/-- What the content check of a verification reads without consensus. -/
def LegacyReadable (block : Block) : Prop :=
  NoConsensusType block → ∃ tran_body, block.item (lit "tran_body") = .ok tran_body ∧
    Hashes tran_body ∧ ∀ h, PrevHashIs block h → Scalars h

/-- What the content checks read of a linked block. -/
def ContentReadable (consensus : Option Consensus) (stakes : StakeMap) (seen : List Block)
    (block : Block) : Prop :=
  match consensus with
  | none => LegacyReadable block
  | some (.pow pow) => PowReadable pow.settings seen block
  | some (.pos pos) => PosReadable (rewarded pos.settings stakes seen) (seen.length + 1) block

/-- What a pass of a verification reads. -/
structure VerifyReadable (consensus : Option Consensus) (stakes : StakeMap) (g : Str)
    (seen : List Block) (block : Block) : Prop where
  link : VerifyLink g seen block
  content : Accepts (link_check consensus g seen.getLast? block) →
    ContentReadable consensus stakes seen block

/-- What a pass of the validation of a candidate reads. -/
structure SelectReadable (consensus : Consensus) (stakes : StakeMap) (seen : List Block)
    (block : Block) : Prop where
  first : seen = [] → HasIndex block ∧ (IndexIs block 1 → HasPrev block)
  next : seen ≠ [] → VerifyLink consensus.genesis_prev_hash seen block
  content : Accepts (validate_chain_link consensus.genesis_prev_hash block seen.getLast?
      (some consensus.genesis_prev_hash)) → ContentReadable (some consensus) stakes seen block

/-- The link that `add_block` accepts. -/
def AddLinked (consensus : Option Consensus) (g : Str) (seen : List Block) (block : Block) : Prop :=
  match consensus with
  | none => Accepts (link_check none g seen.getLast? block)
  | some consensus =>
    Accepts (validate_chain_link consensus.genesis_prev_hash block seen.getLast? (some g))

/-- What `add_block` reads of a linked block. Without consensus it refuses a block
without a body, and does not look for a `consensus_type`. -/
def AddContent (consensus : Option Consensus) (stakes : StakeMap) (seen : List Block)
    (block : Block) : Prop :=
  match consensus with
  | none => ∀ tran_body, block.item (lit "tran_body") = .ok tran_body → tran_body ≠ .none →
      Hashes tran_body ∧ ∀ h, PrevHashIs block h → Scalars h
  | some consensus => ContentReadable (some consensus) stakes seen block

/-- What `add_block` reads. -/
structure AddReadable (consensus : Option Consensus) (stakes : StakeMap) (g : Str)
    (seen : List Block) (block : Block) : Prop where
  first : seen = [] → IndexIs block 1 → HasPrev block
  next : seen ≠ [] → HasPrev block ∧
    (consensus.isSome = true → HashLinked g seen block → HasIndex block)
  content : AddLinked consensus g seen block → AddContent consensus stakes seen block

/-! ## One pass -/

omit [Runtime] [Rsa] in
/-- A check in a loop body returns, and so does what follows where it accepts. -/
theorem returns_check {σ ρ : Type} {check : PyM ValidationResult} {f : ValidationResult → ρ}
    {rest : PyM (Pass σ ρ)} :
    Returns (check >>= fun result => if (!result.valid) = true then .ok (.ret (f result)) else rest) ↔
      Returns check ∧ (Accepts check → Returns rest) := by
  rw [returns_bind]
  refine and_congr_right fun _ => ?_
  simp only [returns_ite, returns_ok, implies_true, true_and, Bool.not_eq_true', Bool.not_eq_false]
  constructor
  · rintro h ⟨result, hresult, hvalid⟩
    exact h result hresult hvalid
  · intro h result hresult hvalid
    exact h ⟨result, hresult, hvalid⟩

omit [Rsa] in
/-- A block that is linked names a string. -/
theorem prev_of_chain_link {g : Option Str} (hseen : Linkable seen)
    (h : Accepts (validate_chain_link own block seen.getLast? g)) : ∃ p, PrevHashIs block p := by
  rcases hlast : seen.getLast? with _ | last
  · rw [hlast, accepts_first_link] at h
    exact ⟨_, h.2⟩
  · rw [hlast, accepts_next_link] at h
    obtain ⟨⟨tran, prev, htran, hprev, heq⟩, -⟩ := h
    obtain ⟨⟨t, ht, -⟩, -⟩ := hseen last hlast
    obtain rfl := ht.unique htran
    obtain rfl := PyVal.eq_str_iff.mp heq
    exact ⟨t, hprev⟩

theorem prev_of_link_check {consensus : Option Consensus} (hseen : Linkable seen)
    (h : Accepts (link_check consensus g seen.getLast? block)) : ∃ p, PrevHashIs block p := by
  rcases consensus with _ | consensus
  swap
  · exact prev_of_chain_link hseen (chain_link_of_link_check h)
  rcases hlast : seen.getLast? with _ | last
  · simp only [hlast, link_check, accepts_bind, pure_eq, accepts_guard, Bool.not_eq_false',
      PyVal.eq_str_iff, header_prev_hash_eq_ok] at h
    obtain ⟨_, hprev, rfl, -⟩ := h
    exact ⟨g, hprev⟩
  · simp only [hlast, link_check, accepts_bind, pure_eq, accepts_guard, Bool.not_eq_false',
      header_prev_hash_eq_ok] at h
    obtain ⟨header, hheader, tran, htran, prev, hprev, heq, -⟩ := h
    obtain ⟨⟨t, ht, -⟩, -⟩ := hseen last hlast
    obtain rfl := ht.unique ⟨header, hheader, htran⟩
    obtain rfl := PyVal.eq_str_iff.mp heq
    exact ⟨t, hprev⟩

omit [Rsa] in
/-- The tip of a chain that can be linked to is an object. -/
theorem Linkable.isDict (h : Linkable seen) : ∀ p, seen.getLast? = some p → ∃ d, p = .dict d := by
  intro p hp
  obtain ⟨⟨t, ⟨header, hheader, -⟩, -⟩, -⟩ := h p hp
  obtain ⟨d, hd, -⟩ := PyVal.item_eq_ok.mp hheader
  exact ⟨d, hd⟩

omit [Runtime] [Rsa] in
/-- A header that names a `prev_hash` is an object in an object. -/
theorem objects_of_prev {h : Str} (hprev : PrevHashIs block h) :
    ∃ d hd, block = .dict d ∧ Dict.find d (lit "block_header") = some (.dict hd) ∧
      Dict.find hd (lit "prev_hash") = some (.str h) := by
  obtain ⟨header, hheader, hitem⟩ := hprev
  obtain ⟨d, rfl, hfind⟩ := PyVal.item_eq_ok.mp hheader
  obtain ⟨hd, rfl, hprev⟩ := PyVal.item_eq_ok.mp hitem
  exact ⟨d, hd, rfl, hfind, hprev⟩

omit [Rsa] in
theorem returns_calc_legacy_tran_hash {h body_hash : Str} (hbody : Scalars body_hash) :
    Returns (calc_legacy_tran_hash (.str h) body_hash) ↔ Scalars h := by
  simp only [calc_legacy_tran_hash, concat, ok_bind, returns_sha256_hex, scalars_append, hbody,
    and_true]

omit [Rsa] in
/-- The hash of a body on top of a string. -/
theorem returns_legacy_hash {α : Type} {tran_body : PyVal} {h : Str} {rest : Str → PyM α}
    (hrest : ∀ expected, Returns (rest expected)) :
    Returns (do
      let body_hash ← calc_body_hash tran_body
      let expected ← calc_legacy_tran_hash (.str h) body_hash
      rest expected) ↔ Hashes tran_body ∧ Scalars h := by
  rcases hb : calc_body_hash tran_body with e | body_hash
  · refine iff_of_false not_returns_error ?_
    rintro ⟨⟨_, hok⟩, -⟩
    rw [hb] at hok
    cases hok
  · rw [ok_bind, returns_bind, returns_calc_legacy_tran_hash (scalars_of_calc_body_hash hb)]
    simp only [hrest, implies_true, and_true]
    exact (and_iff_right ⟨_, hb⟩).symm

/-- The verdict of the loop on the content, without proof-of-stake. -/
theorem returns_content_check {consensus : Option Consensus} {h : Str} (hprev : PrevHashIs block h)
    (hseen : Linkable seen) (hpow : ∀ pos, consensus ≠ some (.pos pos)) :
    Returns (content_check consensus seen block) ↔ ContentReadable consensus stakes seen block := by
  obtain ⟨d, hd, rfl, hfind, hfind_prev⟩ := objects_of_prev hprev
  rw [content_check]
  simp only [PyVal.get_dict, hfind, Option.getD_some, ok_bind]
  rcases consensus with _ | pow | pos
  · have hplain : NoConsensusType (.dict d) ↔
        (Dict.find hd (lit "consensus_type")).getD .none = .none := by
      simp [NoConsensusType, hfind]
    rw [ContentReadable, LegacyReadable, hplain]
    dsimp only
    split
    swap
    · rename_i hctype
      exact iff_of_true returns_ok fun h => absurd h hctype
    rename_i hctype
    simp only [hctype, forall_const, PyVal.item_dict, hfind_prev, orRaise_some, ok_bind]
    rcases hbody : Dict.find d (lit "tran_body") with _ | tran_body
    · refine iff_of_false not_returns_error ?_
      rintro ⟨_, hbody, -⟩
      cases hbody
    · simp only [orRaise_some, ok_bind, Except.ok.injEq, exists_eq_left']
      rw [returns_legacy_hash fun expected => ?_]
      · refine and_congr_right fun _ => ?_
        constructor
        · intro hscalars h' hprev'
          obtain rfl := PyVal.str.inj (hprev.unique hprev')
          exact hscalars
        · exact fun hscalars => hscalars h hprev
      · rw [returns_ite]
        exact ⟨fun _ => returns_ok, fun _ => returns_ok⟩
  · exact returns_pow hprev hseen.isDict
  · exact absurd rfl (hpow pos)

omit [Rsa] in
/-- The link of a candidate's block reads the index first where the block is the
first. -/
theorem returns_candidate_link (hseen : Linkable seen) :
    Returns (validate_chain_link own block seen.getLast? (some g)) ↔
      (seen = [] → HasIndex block ∧ (IndexIs block 1 → HasPrev block)) ∧
        (seen ≠ [] → VerifyLink g seen block) := by
  rcases hlast : seen.getLast? with _ | last
  · obtain rfl := List.getLast?_eq_none_iff.mp hlast
    simp [returns_first_link]
  · have hne : seen ≠ [] := by
      rintro rfl
      cases hlast
    obtain ⟨⟨t, ht, -⟩, hindex⟩ := hseen last hlast
    simp only [hne, false_implies, true_and, ne_eq, not_false_eq_true, forall_const]
    rw [VerifyLink, hashLinked_of_last hlast ht]
    exact returns_next_link ht hindex

/-- The reward of an accepted block is credited. -/
theorem returns_reward {σ : Type} {pos : ProofOfStake} {validators : Option StakeMap}
    {height : Option ℕ} {stakes : StakeMap} {f : StakeMap → σ}
    (h : Accepts (pos.validate_block block chain validators height)) :
    Returns (do
      let validators ← ProofOfStake.apply_block_reward pos.settings stakes block
      return f validators) := by
  obtain ⟨fields, hof, -⟩ :=
    (ProofOfStake.accepts_validate_block pos block chain validators height).mp h
  rw [ProofOfStake.apply_block_reward_of_id _ _ hof.block_validator_id, ok_bind]
  exact returns_ok

/-- One pass of the loop over stakes. -/
theorem returns_pos_verify_step {pos : ProofOfStake} (hseen : Linkable seen) :
    Returns (pos_verify_step pos chain g (rewarded pos.settings stakes seen) seen block) ↔
      VerifyReadable (some (.pos pos)) stakes g seen block := by
  simp only [pos_verify_step, pure_eq]
  rw [returns_check, returns_pos_link_check hseen, accepts_pos_link]
  constructor
  · rintro ⟨hlink, h⟩
    refine ⟨hlink, fun haccepts => ?_⟩
    obtain ⟨p, hprev⟩ := prev_of_link_check hseen haccepts
    exact (returns_pos pos hprev _ _).mp (returns_check.mp (h haccepts)).1
  · rintro ⟨hlink, h⟩
    refine ⟨hlink, fun haccepts => ?_⟩
    obtain ⟨p, hprev⟩ := prev_of_link_check hseen haccepts
    refine returns_check.mpr ⟨(returns_pos pos hprev _ _).mpr (h haccepts), fun hvalid => ?_⟩
    exact returns_reward hvalid

/-- One pass of the other loop. -/
theorem returns_verify_step {consensus : Option Consensus} (hseen : Linkable seen)
    (hpow : ∀ pos, consensus ≠ some (.pos pos)) :
    Returns (verify_step consensus g () seen block) ↔ VerifyReadable consensus stakes g seen block := by
  simp only [verify_step, pure_eq]
  rw [returns_check, returns_link_check hseen]
  constructor
  · rintro ⟨hlink, h⟩
    refine ⟨hlink, fun haccepts => ?_⟩
    obtain ⟨p, hprev⟩ := prev_of_link_check hseen haccepts
    exact (returns_content_check hprev hseen hpow).mp (returns_check.mp (h haccepts)).1
  · rintro ⟨hlink, h⟩
    refine ⟨hlink, fun haccepts => ?_⟩
    obtain ⟨p, hprev⟩ := prev_of_link_check hseen haccepts
    exact returns_check.mpr ⟨(returns_content_check hprev hseen hpow).mpr (h haccepts),
      fun _ => returns_ok⟩

/-- One pass of the validation of a proof-of-work candidate. -/
theorem returns_pow_candidate {pow : ProofOfWork} (hseen : Linkable seen) :
    Returns (pow.chain_valid_step () seen block) ↔ SelectReadable (.pow pow) stakes seen block := by
  simp only [ProofOfWork.chain_valid_step, pure_eq]
  rw [returns_check, returns_candidate_link hseen]
  constructor
  · rintro ⟨⟨hfirst, hnext⟩, h⟩
    refine ⟨hfirst, hnext, fun haccepts => ?_⟩
    obtain ⟨p, hprev⟩ := prev_of_chain_link hseen haccepts
    exact (returns_pow hprev hseen.isDict).mp (returns_check.mp (h haccepts)).1
  · rintro ⟨hfirst, hnext, h⟩
    refine ⟨⟨hfirst, hnext⟩, fun haccepts => ?_⟩
    obtain ⟨p, hprev⟩ := prev_of_chain_link hseen haccepts
    exact returns_check.mpr ⟨(returns_pow hprev hseen.isDict).mpr (h haccepts), fun _ => returns_ok⟩

/-- One pass of the validation of a proof-of-stake candidate. -/
theorem returns_pos_candidate {pos : ProofOfStake} (hseen : Linkable seen) :
    Returns (pos.genesis_stakes_step chain pos.genesis_prev_hash
        (rewarded pos.settings stakes seen) seen block) ↔
      SelectReadable (.pos pos) stakes seen block := by
  simp only [ProofOfStake.genesis_stakes_step, pure_eq]
  rw [returns_check, returns_candidate_link hseen]
  constructor
  · rintro ⟨⟨hfirst, hnext⟩, h⟩
    refine ⟨hfirst, hnext, fun haccepts => ?_⟩
    obtain ⟨p, hprev⟩ := prev_of_chain_link hseen haccepts
    exact (returns_pos pos hprev _ _).mp (returns_check.mp (h haccepts)).1
  · rintro ⟨hfirst, hnext, h⟩
    refine ⟨⟨hfirst, hnext⟩, fun haccepts => ?_⟩
    obtain ⟨p, hprev⟩ := prev_of_chain_link hseen haccepts
    exact returns_check.mpr ⟨(returns_pos pos hprev _ _).mpr (h haccepts), returns_reward⟩

/-! ## Whole chains -/

/-- The blocks that a loop judges are readable: each one after a beginning of the
chain that the loop accepts. -/
def ReadThrough (P R : List Block → Block → Prop) (chain : List Block) : Prop :=
  ∀ pre x post, chain = pre ++ x :: post → Grows P pre → R pre x

theorem pos_verify_step_eq_loopStep {pos : ProofOfStake} {s : StakeMap} :
    pos_verify_step pos chain g (rewarded pos.settings stakes seen) seen block = .ok (.next s) ↔
      LoopStep (some (.pos pos)) stakes g seen block ∧
        s = rewarded pos.settings stakes (seen ++ [block]) := by
  simp only [pos_verify_step, pure_eq, check_eq_next, accepts_pos_link, LoopStep,
    ProofOfStake.accepts_validate_block, Option.getD_some, and_assoc]
  refine and_congr_right fun _ => and_congr_right fun hfields => ?_
  obtain ⟨f, hof, -⟩ := hfields
  rw [apply_block_reward_of_fields _ _ _ hof, ok_bind, Except.ok.injEq, Pass.next.injEq]
  exact eq_comm

theorem verify_step_eq_loopStep {consensus : Option Consensus}
    (hpow : ∀ pos, consensus ≠ some (.pos pos)) {s : Unit} :
    verify_step consensus g () seen block = .ok (.next s) ↔
      LoopStep consensus stakes g seen block ∧ s = () := by
  simp only [verify_step, pure_eq, check_eq_next, LoopStep]
  rcases consensus with _ | pow | pos
  · simp
  · simp
  · exact absurd rfl (hpow pos)

/-- A verification returns a verdict exactly where it can read the blocks it
judges. -/
theorem returns_verify_chain_integrity {consensus : Option Consensus}
    {genesis_stakes : Option StakeMap}
    (hmode : ∀ pos, consensus = some (.pos pos) → genesis_stakes.isSome = true) :
    Returns (verify_chain_integrity chain consensus g genesis_stakes) ↔
      ReadThrough (LoopStep consensus (genesis_stakes.getD .empty) g)
        (VerifyReadable consensus (genesis_stakes.getD .empty) g) chain := by
  by_cases hpos : ∃ pos, consensus = some (.pos pos)
  · obtain ⟨pos, rfl⟩ := hpos
    obtain ⟨stakes, rfl⟩ := Option.isSome_iff_exists.mp (hmode pos rfl)
    simp only [verify_chain_integrity, Option.getD_some]
    rw [returns_bind_iff fun out => by exact ⟨verdict out, rfl⟩]
    have hstart : rewarded pos.settings stakes [] = stakes := by
      simp [rewarded]
    have hout := @enumerate_ok_iff _ _ _ _ (pos_verify_step pos chain g)
      (LoopStep (some (.pos pos)) stakes g) (rewarded pos.settings stakes)
      (fun pre x s => pos_verify_step_eq_loopStep) [] chain
    rw [hstart] at hout
    refine hout.trans ?_
    refine forall_congr' fun pre => forall_congr' fun x => forall_congr' fun post =>
      imp_congr_right fun _ => imp_congr_right fun hgrows => ?_
    exact returns_pos_verify_step (linkable_of_grows (fun _ _ => LoopStep.linkable) hgrows)
  · have hpow : ∀ pos, consensus ≠ some (.pos pos) := fun pos h => hpos ⟨pos, h⟩
    have hvalue : verify_chain_integrity chain consensus g genesis_stakes = (do
        let out ← enumerate (verify_step consensus g) () [] chain
        return verdict out) := by
      rcases consensus with _ | pow | pos
      · rfl
      · rfl
      · exact absurd rfl (hpow pos)
    rw [hvalue, returns_bind_iff fun out => by exact ⟨verdict out, rfl⟩]
    have hout := @enumerate_ok_iff _ _ _ _ (verify_step consensus g)
      (LoopStep consensus (genesis_stakes.getD .empty) g) (fun _ => ())
      (fun pre x s => verify_step_eq_loopStep hpow) [] chain
    refine hout.trans ?_
    refine forall_congr' fun pre => forall_congr' fun x => forall_congr' fun post =>
      imp_congr_right fun _ => imp_congr_right fun hgrows => ?_
    exact returns_verify_step (linkable_of_grows (fun _ _ => LoopStep.linkable) hgrows) hpow

/-- A candidate is judged exactly where its blocks can be read. -/
theorem returns_candidate_valid {consensus : Consensus} :
    Returns (consensus.candidate_valid stakes chain) ↔
      ReadThrough (consensus.ChainStep stakes) (SelectReadable consensus stakes) chain := by
  have hread : ∀ pre x post, chain = pre ++ x :: post → Grows (consensus.ChainStep stakes) pre →
      Linkable pre :=
    fun _ _ _ _ hgrows => linkable_of_grows (fun _ _ => linkable_of_chainStep) hgrows
  cases consensus with
  | pow pow =>
      rw [Consensus.candidate_valid, ProofOfWork.is_chain_valid, returns_bind_iff fun out => by
        cases out <;> exact returns_ok]
      refine (@enumerate_ok_iff _ _ _ _ pow.chain_valid_step (PowStep pow pow.genesis_prev_hash)
        (fun _ => ()) (fun pre x s => chain_valid_step_eq_next) [] chain).trans ?_
      refine forall_congr' fun pre => forall_congr' fun x => forall_congr' fun post =>
        imp_congr_right fun hsplit => imp_congr_right fun hgrows => ?_
      exact returns_pow_candidate (hread pre x post hsplit hgrows)
  | pos pos =>
      rw [Consensus.candidate_valid, ProofOfStake.candidate_valid,
        ProofOfStake.validate_chain_with_genesis_stakes, returns_bind_iff fun out => by
          cases out <;> exact returns_ok]
      have hout := @enumerate_ok_iff _ _ _ _ (pos.genesis_stakes_step chain pos.genesis_prev_hash)
        (PosStep pos pos.genesis_prev_hash stakes) (rewarded pos.settings stakes)
        (fun pre x s => genesis_stakes_step_eq_next) [] chain
      have hstart : rewarded pos.settings stakes [] = stakes := by
        simp [rewarded]
      rw [hstart] at hout
      refine hout.trans ?_
      refine forall_congr' fun pre => forall_congr' fun x => forall_congr' fun post =>
        imp_congr_right fun hsplit => imp_congr_right fun hgrows => ?_
      exact returns_pos_candidate (hread pre x post hsplit hgrows)

/-- Fork choice returns exactly where every candidate is judged. -/
theorem returns_select_canonical_chain {consensus : Consensus} {chains : List (List Block)} :
    Returns (consensus.select_canonical_chain chains (some stakes)) ↔
      ∀ chain ∈ chains,
        ReadThrough (consensus.ChainStep stakes) (SelectReadable consensus stakes) chain := by
  simp only [← returns_candidate_valid]
  rw [Consensus.select_canonical_chain_eq, returns_bind]
  constructor
  · rintro ⟨⟨valid_chains, hvalid⟩, -⟩
    exact (filterPy_eq_ok.mp hvalid).1
  · intro hall
    refine ⟨⟨_, filterPy_eq_ok.mpr ⟨hall, rfl⟩⟩, ?_⟩
    intro valid_chains hvalid
    obtain ⟨-, rfl⟩ := filterPy_eq_ok.mp hvalid
    -- the kept chains are valid, so they have scores
    obtain ⟨best, hbest⟩ := @maxBy_ok _ _ _ (consensus.fork_score stakes)
      (chains.filter fun chain => consensus.candidate_valid stakes chain = .ok true) (by
        intro chain hchain
        obtain ⟨-, hkept⟩ := List.mem_filter.mp hchain
        exact Consensus.fork_score_ok (Consensus.candidate_valid_iff.mp (of_decide_eq_true hkept)))
    rw [hbest, ok_bind]
    cases best with
    | none => exact returns_ok
    | some chain => exact returns_ok

/-! ## A received block -/

/-- A chain that verifies grew by the passes of the loop. -/
theorem loopSteps_of_verifies {consensus : Option Consensus} {genesis_stakes : Option StakeMap}
    (hmode : ∀ pos, consensus = some (.pos pos) → genesis_stakes.isSome = true)
    (h : Verifies (verify_chain_integrity chain consensus g genesis_stakes)) :
    Grows (LoopStep consensus (genesis_stakes.getD .empty) g) chain := by
  rcases consensus with _ | pow | pos
  · exact (loop_verification none g chain rfl).1.mp h
  · exact (loop_verification (some (.pow pow)) g chain rfl).1.mp h
  · obtain ⟨stakes, rfl⟩ := Option.isSome_iff_exists.mp (hmode pos rfl)
    refine (verifies_iff_grows (pos_verify_step pos chain g) (rewarded pos.settings stakes)
      (fun pre x s => pos_verify_step_eq_loopStep) (fun pre x r h => pos_verify_step_eq_ret h) ?_).1.mp h
    have hstart : rewarded pos.settings stakes [] = stakes := by
      simp [rewarded]
    rw [hstart]
    rfl

variable {self : BlockChain} {d : Dict} {genesis_stakes : Option StakeMap}

/-- The append never raises, so the checks decide. -/
theorem returns_add_block : Returns (self.add_block block true genesis_stakes).1 ↔
    Returns (self.received_checks block genesis_stakes) := by
  rcases hchecks : self.received_checks block genesis_stakes with e | _ | _
  · rw [add_block_error hchecks]
  · rw [add_block_false hchecks]
  · rw [add_block_true hchecks]

omit [Runtime] in
/-- The index of a first block is compared before anything else. -/
theorem first_index_cases (self : BlockChain) (d : Dict) :
    (self.first_index_ok (.dict d) = .ok true ∧ (self.chain = [] → IndexIs (.dict d) 1)) ∨
    (self.first_index_ok (.dict d) = .ok false ∧ self.chain = [] ∧ ¬ IndexIs (.dict d) 1) := by
  unfold BlockChain.first_index_ok
  rcases hlast : self.chain.getLast? with _ | last
  · have hnil := List.getLast?_eq_none_iff.mp hlast
    rw [PyVal.get_dict]
    cases hone : ((Dict.find d (lit "block_index")).getD .none).eq (.int 1) with
    | true =>
        refine Or.inl ⟨by rw [ok_bind, hone]; rfl, fun _ => ?_⟩
        rcases hfind : Dict.find d (lit "block_index") with _ | index
        · rw [hfind] at hone
          cases hone
        · rw [hfind] at hone
          exact ⟨index, by rw [PyVal.item_dict, hfind]; rfl, hone⟩
    | false =>
        refine Or.inr ⟨by rw [ok_bind, hone]; rfl, hnil, ?_⟩
        rintro ⟨index, hitem, heq⟩
        rw [PyVal.item_dict, orRaise_eq_ok] at hitem
        rw [hitem, Option.getD_some] at hone
        exact absurd (heq.symm.trans hone) (by decide)
  · refine Or.inl ⟨rfl, fun hnil => ?_⟩
    rw [hnil] at hlast
    cases hlast

/-- A first block that is linked has the first index. -/
theorem index_of_follows {consensus : Option Consensus} (h : AddLinked consensus g [] block) :
    IndexIs block 1 := by
  cases consensus with
  | none =>
      simp only [AddLinked, List.getLast?_nil, link_check, accepts_bind, pure_eq, accepts_guard,
        Bool.not_eq_false'] at h
      obtain ⟨_, -, -, index, hindex, hone, -⟩ := h
      exact ⟨index, hindex, hone⟩
  | some consensus => exact (accepts_first_link.mp h).1

theorem returns_legacy_link_iff (hseen : Linkable self.chain) :
    Returns (self.legacy_link (.dict d) self.chain.getLast?) ↔ HasPrev (.dict d) := by
  unfold BlockChain.legacy_link
  rw [returns_bind, returns_header_prev_hash, and_iff_left_iff_imp]
  intro _ prev _
  rcases hlast : self.chain.getLast? with _ | last
  · exact returns_ok
  · obtain ⟨⟨t, ⟨header, hheader, htran⟩, -⟩, index, next, hindex, hnext⟩ := hseen last hlast
    simp only [hheader, htran, ok_bind, hindex, hnext, PyVal.get_dict, pure_eq]
    rw [returns_ite]
    exact ⟨fun _ => returns_ok, fun _ => returns_ok⟩

/-- A block that is linked without consensus names a string. -/
theorem prev_of_legacy_link (hseen : Linkable self.chain)
    (h : self.legacy_link block self.chain.getLast? = .ok true) : ∃ p, PrevHashIs block p := by
  unfold BlockChain.legacy_link at h
  obtain ⟨prev, hprev, h⟩ := bind_eq_ok.mp h
  rw [header_prev_hash_eq_ok] at hprev
  rcases hlast : self.chain.getLast? with _ | last
  · rw [hlast] at h
    obtain rfl := PyVal.eq_str_iff.mp (Except.ok.inj h)
    exact ⟨_, hprev⟩
  · obtain ⟨⟨t, ⟨header, hheader, htran⟩, -⟩, -⟩ := hseen last hlast
    rw [hlast] at h
    simp only [hheader, htran, ok_bind] at h
    by_cases heq : prev.eq (.str t) = true
    · obtain rfl := PyVal.eq_str_iff.mp heq
      exact ⟨t, hprev⟩
    · simp [heq] at h

/-- Without consensus, after the index of a first block. -/
theorem returns_legacy_checks (hseen : Linkable self.chain) :
    Returns (self.legacy_checks (.dict d) self.chain.getLast?) ↔ HasPrev (.dict d) ∧
      (self.legacy_link (.dict d) self.chain.getLast? = .ok true →
        AddContent none stakes self.chain (.dict d)) := by
  unfold BlockChain.legacy_checks
  rw [returns_bind, returns_legacy_link_iff hseen]
  refine and_congr_right fun hhas => ?_
  obtain ⟨linked, hlinked⟩ := (returns_legacy_link_iff hseen).mpr hhas
  cases linked with
  | false =>
      refine iff_of_true ?_ ?_
      · intro linked h
        rw [hlinked] at h
        obtain rfl := Except.ok.inj h
        exact returns_ok
      · intro h
        rw [hlinked] at h
        cases h
  | true =>
      obtain ⟨h, hprev⟩ := prev_of_legacy_link hseen hlinked
      obtain ⟨_, hd, heq, hfind, hfind_prev⟩ := objects_of_prev hprev
      obtain rfl := PyVal.dict.inj heq
      simp only [hlinked, Except.ok.injEq, forall_eq', Bool.not_true, Bool.false_eq_true, if_false,
        forall_const, PyVal.get_dict, PyVal.item_dict, ok_bind, hfind, orRaise_some, hfind_prev]
      rcases hbody : Dict.find d (lit "tran_body") with _ | tran_body
      · refine iff_of_true returns_ok ?_
        intro tran_body h
        rw [PyVal.item_dict, hbody] at h
        cases h
      · have hcontent : AddContent none stakes self.chain (.dict d) ↔
            (tran_body ≠ .none → Hashes tran_body ∧ Scalars h) := by
          constructor
          · intro hall hne
            obtain ⟨hhashes, hscalars⟩ := hall tran_body (by rw [PyVal.item_dict, hbody]; rfl) hne
            exact ⟨hhashes, hscalars h hprev⟩
          · intro hall tran_body' hitem hne
            rw [PyVal.item_dict, hbody] at hitem
            obtain rfl := Except.ok.inj hitem
            obtain ⟨hhashes, hscalars⟩ := hall hne
            refine ⟨hhashes, fun h' hprev' => ?_⟩
            obtain rfl := PyVal.str.inj (hprev.unique hprev')
            exact hscalars
        rw [hcontent, Option.getD_some]
        split
        · exact iff_of_true returns_ok fun hne => absurd rfl hne
        · rename_i hne
          rw [returns_legacy_hash fun expected => by exact returns_ok]
          exact ⟨fun hall _ => hall, fun hall => hall hne⟩

/-- Without consensus `add_block` returns where the block is readable. -/
theorem returns_received_legacy (hlegacy : self.consensus = none) (hseen : Linkable self.chain) :
    Returns (self.received_checks (.dict d) genesis_stakes) ↔
      AddReadable none stakes self.genesis_prev_hash self.chain (.dict d) := by
  unfold BlockChain.received_checks
  rcases first_index_cases self d with ⟨hfirst, hindex⟩ | ⟨hfirst, hnil, hindex⟩
  · rw [hfirst, ok_bind]
    simp only [Bool.not_true, Bool.false_eq_true, if_false, hlegacy]
    rw [@returns_legacy_checks _ _ stakes self d hseen]
    have hfollows : self.legacy_link (.dict d) self.chain.getLast? = .ok true ↔
        AddLinked none self.genesis_prev_hash self.chain (.dict d) := by
      rw [AddLinked, ← legacy_link_iff]
      exact (and_iff_right hfirst).symm
    rw [hfollows]
    constructor
    · rintro ⟨hhas, hcontent⟩
      refine ⟨fun _ _ => hhas, fun _ => ⟨hhas, ?_⟩, hcontent⟩
      intro habsurd
      cases habsurd
    · rintro ⟨hone, hnext, hcontent⟩
      refine ⟨?_, hcontent⟩
      by_cases hnil : self.chain = []
      · exact hone hnil (hindex hnil)
      · exact (hnext hnil).1
  · rw [hfirst, ok_bind]
    refine iff_of_true returns_ok ⟨fun _ hone => absurd hone hindex, fun hne => absurd hnil hne, ?_⟩
    intro hfollows
    rw [hnil] at hfollows
    exact absurd (index_of_follows hfollows) hindex

/-- Under consensus too. -/
theorem returns_received_consensus {consensus : Consensus}
    (hmode : self.consensus = some consensus)
    (hstakes : ∀ pos, consensus = .pos pos → genesis_stakes.isSome = true ∧
      NamesValidators self.chain) (hseen : Linkable self.chain) :
    Returns (self.received_checks (.dict d) genesis_stakes) ↔
      AddReadable (some consensus) (genesis_stakes.getD .empty) self.genesis_prev_hash self.chain
        (.dict d) := by
  have hcontent : ∀ h, PrevHashIs (.dict d) h →
      (Returns (self.consensus_check consensus (.dict d) genesis_stakes) ↔
        AddContent (some consensus) (genesis_stakes.getD .empty) self.chain (.dict d)) := by
    intro h hprev
    cases consensus with
    | pow pow => exact returns_pow hprev hseen.isDict
    | pos pos =>
        obtain ⟨hsome, hnames⟩ := hstakes pos rfl
        obtain ⟨stakes, rfl⟩ := Option.isSome_iff_exists.mp hsome
        have hcompute := ProofOfStake.compute_validators_eq_replay pos.settings stakes hnames
        rw [replay_eq_rewarded] at hcompute
        simp only [BlockChain.consensus_check, hcompute, ok_bind]
        exact returns_pos pos hprev _ _
  unfold BlockChain.received_checks
  rcases first_index_cases self d with ⟨hfirst, hindex⟩ | ⟨hfirst, hnil, hindex⟩
  · rw [hfirst, ok_bind]
    simp only [Bool.not_true, Bool.false_eq_true, if_false, hmode]
    rw [returns_bind, returns_candidate_link hseen]
    have hrest : (∀ link, validate_chain_link consensus.genesis_prev_hash (.dict d)
        self.chain.getLast? (some self.genesis_prev_hash) = .ok link →
          Returns (if (!link.valid) = true then pure false else do
            let result ← self.consensus_check consensus (.dict d) genesis_stakes
            pure result.valid)) ↔
        (AddLinked (some consensus) self.genesis_prev_hash self.chain (.dict d) →
          AddContent (some consensus) (genesis_stakes.getD .empty) self.chain (.dict d)) := by
      constructor
      · rintro hall ⟨link, hlink, hvalid⟩
        obtain ⟨h, hprev⟩ := prev_of_chain_link hseen ⟨link, hlink, hvalid⟩
        have hreturns := hall link hlink
        rw [hvalid, if_neg (by decide), returns_bind_iff fun result => by exact returns_ok] at hreturns
        exact (hcontent h hprev).mp hreturns
      · intro hall link hlink
        cases hvalid : link.valid with
        | false => exact returns_ok
        | true =>
            have hfollows : AddLinked (some consensus) self.genesis_prev_hash self.chain (.dict d) :=
              ⟨link, hlink, hvalid⟩
            obtain ⟨h, hprev⟩ := prev_of_chain_link hseen hfollows
            rw [if_neg (by decide), returns_bind_iff fun result => by exact returns_ok]
            exact (hcontent h hprev).mpr (hall hfollows)
    rw [hrest]
    constructor
    · rintro ⟨⟨hone, hnext⟩, hall⟩
      exact ⟨fun hnil => (hone hnil).2,
        fun hne => ⟨(hnext hne).1, fun _ => (hnext hne).2⟩, hall⟩
    · rintro ⟨hone, hnext, hall⟩
      refine ⟨⟨fun hnil => ⟨?_, hone hnil⟩, fun hne => ?_⟩, hall⟩
      · obtain ⟨index, hitem, -⟩ := hindex hnil
        exact ⟨index, hitem⟩
      · obtain ⟨hhas, hitem⟩ := hnext hne
        exact ⟨hhas, hitem rfl⟩
  · rw [hfirst, ok_bind]
    refine iff_of_true returns_ok ⟨fun _ hone => absurd hone hindex, fun hne => absurd hnil hne, ?_⟩
    intro hfollows
    rw [hnil] at hfollows
    exact absurd (index_of_follows hfollows) hindex

/-- Judging on a valid local chain, in every mode: `add_block`, a verification and fork
choice end with a verdict exactly where what they judge is readable. -/
theorem judged_iff (self : BlockChain) (genesis_stakes : Option StakeMap)
    (hmode : ∀ pos, self.consensus = some (.pos pos) → genesis_stakes.isSome = true)
    (hvalid : Verifies (self.verify_chain genesis_stakes)) :
    (∀ d : Dict, Returns (self.add_block (.dict d) true genesis_stakes).1 ↔
      AddReadable self.consensus (genesis_stakes.getD .empty) self.genesis_prev_hash self.chain
        (.dict d)) ∧
    (∀ chain, Returns (verify_chain_integrity chain self.consensus self.genesis_prev_hash
        genesis_stakes) ↔
      ReadThrough (LoopStep self.consensus (genesis_stakes.getD .empty) self.genesis_prev_hash)
        (VerifyReadable self.consensus (genesis_stakes.getD .empty) self.genesis_prev_hash) chain) ∧
    (∀ consensus, self.consensus = some consensus → ∀ chains,
      Returns (consensus.select_canonical_chain chains genesis_stakes) ↔
        ∀ chain ∈ chains, ReadThrough (consensus.ChainStep (genesis_stakes.getD .empty))
          (SelectReadable consensus (genesis_stakes.getD .empty)) chain) := by
  have hseen : Linkable self.chain :=
    linkable_of_grows (fun _ _ => LoopStep.linkable) (loopSteps_of_verifies hmode hvalid)
  refine ⟨?_, fun chain => returns_verify_chain_integrity hmode, ?_⟩
  · intro d
    rw [returns_add_block]
    rcases hconsensus : self.consensus with _ | consensus
    · exact returns_received_legacy hconsensus hseen
    · refine returns_received_consensus hconsensus ?_ hseen
      rintro pos rfl
      have hsome := hmode pos hconsensus
      obtain ⟨stakes, rfl⟩ := Option.isSome_iff_exists.mp hsome
      rw [BlockChain.verify_chain, hconsensus] at hvalid
      exact ⟨hsome, names_of_verifies hvalid⟩
  · intro consensus hconsensus chains
    cases consensus with
    | pow pow => exact @returns_select_canonical_chain _ _ (genesis_stakes.getD .empty) (.pow pow) chains
    | pos pos =>
        obtain ⟨stakes, rfl⟩ := Option.isSome_iff_exists.mp (hmode pos hconsensus)
        exact returns_select_canonical_chain

end Rejections

/-! ## Objects that raise -/

namespace Headerless

attribute [local instance] cpython letterRsa

/-- A first block without a header. -/
def headerless : Dict := [(.str (lit "block_index"), .int 1)]

/-- An empty chain in each mode. -/
def chains : List (BlockChain × Option StakeMap) :=
  [(BlockChain.new none DEFAULT_GENESIS_PREV_HASH, none),
    (BlockChain.new (some (.pow FutureBlock.pow)) DEFAULT_GENESIS_PREV_HASH, none),
    (BlockChain.new (some (.pos TwoBlocks.pos)) DEFAULT_GENESIS_PREV_HASH, some TwoBlocks.stakes)]

/-- The chain is valid, and the block raises `KeyError` where it is added, where it
is verified and where it is a candidate. -/
def Raises (mode : BlockChain × Option StakeMap) : Prop :=
  mode.1.verify_chain mode.2 = .ok .ok ∧
    (mode.1.add_block (.dict headerless) true mode.2).1 = .error .keyError ∧
    verify_chain_integrity [.dict headerless] mode.1.consensus mode.1.genesis_prev_hash mode.2
      = .error .keyError ∧
    ∀ consensus ∈ mode.1.consensus,
      consensus.select_canonical_chain [[.dict headerless]] mode.2 = .error .keyError

theorem headerless_raises : chains.Forall Raises := by
  refine ⟨⟨rfl, by decide +kernel, by decide +kernel, ?_⟩,
    ⟨rfl, by decide +kernel, by decide +kernel, ?_⟩, rfl, by decide +kernel, by decide +kernel, ?_⟩
  · intro consensus hconsensus
    cases hconsensus
  · intro consensus hconsensus
    obtain rfl := Option.some.inj hconsensus
    decide +kernel
  · intro consensus hconsensus
    obtain rfl := Option.some.inj hconsensus
    decide +kernel

/-- The theorem on the empty proof-of-stake chain. -/
theorem empty_chain_judged :
    (∀ d : Dict, Returns ((BlockChain.new (some (.pos TwoBlocks.pos))
        DEFAULT_GENESIS_PREV_HASH).add_block (.dict d) true (some TwoBlocks.stakes)).1 ↔
      AddReadable (some (.pos TwoBlocks.pos)) TwoBlocks.stakes DEFAULT_GENESIS_PREV_HASH []
        (.dict d)) ∧
    (∀ chain, Returns (verify_chain_integrity chain (some (.pos TwoBlocks.pos))
        DEFAULT_GENESIS_PREV_HASH (some TwoBlocks.stakes)) ↔
      ReadThrough (LoopStep (some (.pos TwoBlocks.pos)) TwoBlocks.stakes DEFAULT_GENESIS_PREV_HASH)
        (VerifyReadable (some (.pos TwoBlocks.pos)) TwoBlocks.stakes DEFAULT_GENESIS_PREV_HASH)
        chain) ∧
    (∀ consensus, some (Consensus.pos TwoBlocks.pos) = some consensus → ∀ chains,
      Returns (consensus.select_canonical_chain chains (some TwoBlocks.stakes)) ↔
        ∀ chain ∈ chains, ReadThrough (consensus.ChainStep TwoBlocks.stakes)
          (SelectReadable consensus TwoBlocks.stakes) chain) :=
  judged_iff (BlockChain.new (some (.pos TwoBlocks.pos)) DEFAULT_GENESIS_PREV_HASH)
    (some TwoBlocks.stakes) (fun _ _ => rfl) ⟨.ok, rfl, rfl⟩

end Headerless

end EasyBlockchain
