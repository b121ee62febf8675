/-
Two accepted proof-of-stake chains that fork name the validator who signed both
sides of the fork.

Below the first difference the chains reward the same validators, so the stakes
at the fork agree, and with them the elected proposer and its registered key.
Blocks are compared without their signature: signing the same content twice is
not a fork.
-/
import EasyBlockchain.PosAcceptance

set_option autoImplicit false

namespace EasyBlockchain

open Py Lib

/-! ## Comparing blocks -/

/-- Two dictionaries hold the same JSON values, but for the keys skipped. -/
def SameFields (skip : List Str) (d e : Dict) : Prop :=
  ∀ k, k ∉ skip → (Dict.find d k).map canon = (Dict.find e k).map canon

/-- Two blocks are the same but for their signature. -/
def SameBlock (x y : Block) : Prop :=
  ∃ d e, x = .dict d ∧ y = .dict e ∧ SameFields [lit "signature"] d e

theorem SameFields.symm {skip : List Str} {d e : Dict} (h : SameFields skip d e) :
    SameFields skip e d :=
  fun k hk => (h k hk).symm

theorem SameBlock.symm {x y : Block} (h : SameBlock x y) : SameBlock y x := by
  obtain ⟨d, e, rfl, rfl, hsame⟩ := h
  exact ⟨e, d, rfl, rfl, hsame.symm⟩

/-- Blocks that are the same hold the same strings in their headers. -/
theorem SameBlock.headerIs {x y : Block} (h : SameBlock x y) {key value : Str}
    (hx : HeaderIs x key (.str value)) : HeaderIs y key (.str value) := by
  obtain ⟨d, e, rfl, rfl, hsame⟩ := h
  obtain ⟨header, hheader, hvalue⟩ := hx
  obtain ⟨hd, rfl, hfind⟩ := PyVal.item_eq_ok.mp hvalue
  have hheader : Dict.find d (lit "block_header") = some (.dict hd) := by
    simpa using hheader
  have hcanon := hsame (lit "block_header") (by decide)
  rw [hheader, Option.map_some] at hcanon
  obtain ⟨he, hfinde, hce⟩ := Option.map_eq_some_iff.mp hcanon.symm
  obtain ⟨he, rfl, hsorted⟩ := canon_eq_dict (hce.trans (by rfl))
  -- the two headers are the same dictionary up to order, so the key finds the same string
  have hval := congrArg (fun s => Dict.find s key) hsorted
  simp only [find_sortByKey, find_canonDict, hfind, Option.map_some] at hval
  obtain ⟨v, hv, hcv⟩ := Option.map_eq_some_iff.mp hval
  refine ⟨.dict he, by simp [hfinde], ?_⟩
  obtain rfl := canon_eq_str.mp (hcv.trans (by rfl))
  simp [hv]

/-- A content that differs under a signed key differs as JSON. -/
theorem not_jsonEq_unsigned {d e : Dict}
    (h : ¬ SameFields [lit "signature", lit "public_key"] d e) :
    ¬ JsonEq (.dict (unsigned d)) (.dict (unsigned e)) := by
  intro heq
  refine h fun k hk => ?_
  simp only [List.mem_cons, List.not_mem_nil, or_false, not_or] at hk
  have hfind := heq.find k
  simp only [unsigned, Dict.find_without, if_neg hk.1, if_neg hk.2] at hfind
  exact hfind

/-! ## The fork -/

section Fork

variable [Runtime] [Rsa] {pos : ProofOfStake} {g : Str} {genesis_stakes : StakeMap}

omit [Rsa] in
/-- Chains of the same blocks lead to the same stakes. -/
theorem rewarded_congr {settings : PosSettings} {C D : List Block}
    (hC : ∀ x ∈ C, ∃ f : ProofOfStake.PosFields, f.Of x)
    (hD : ∀ y ∈ D, ∃ f : ProofOfStake.PosFields, f.Of y) (h : List.Forall₂ SameBlock C D) :
    rewarded settings genesis_stakes C = rewarded settings genesis_stakes D := by
  rw [← replay_eq_rewarded, ← replay_eq_rewarded]
  unfold ProofOfStake.replay
  induction h generalizing genesis_stakes with
  | nil => rfl
  | @cons x y C D hxy _ ih =>
      obtain ⟨f, hof⟩ := hC x List.mem_cons_self
      obtain ⟨f', hof'⟩ := hD y List.mem_cons_self
      have hid : f.validator_id = f'.validator_id :=
        PyVal.str.inj ((hxy.headerIs hof.validator_id).unique hof'.validator_id)
      have hcredit : ProofOfStake.credit settings genesis_stakes x
          = ProofOfStake.credit settings genesis_stakes y := by
        simp only [ProofOfStake.credit, ProofOfStake.proposedBy, hof.block_validator_id,
          hof'.block_validator_id, hid]
      rw [List.foldl_cons, List.foldl_cons, hcredit]
      exact ih (fun b hb => hC b (List.mem_cons_of_mem x hb))
        (fun b hb => hD b (List.mem_cons_of_mem y hb))

/-- An accepted chain grows, whatever genesis hash it was verified with. -/
theorem grows_of_verifies {chain : List Block}
    (h : Verifies (verify_chain_integrity chain (some (.pos pos)) g (some genesis_stakes))) :
    Grows (PosStep pos g genesis_stakes) chain := by
  rcases chain with _ | ⟨block, rest⟩
  · exact grows_nil
  by_cases hg : orDefault (some g) pos.genesis_prev_hash = g
  · exact (pos_verification hg genesis_stakes _).1.mp h
  · obtain ⟨v, hv, hvalid⟩ := h
    simp only [verify_chain_integrity, bind_eq_ok, pure_eq, Except.ok.injEq] at hv
    obtain ⟨out, hout, rfl⟩ := hv
    rw [enumerate] at hout
    rcases hstep : pos_verify_step pos (block :: rest) g genesis_stakes [] block with e | r
    · simp [hstep] at hout
    rcases r with s | r
    · -- the first block would have to name both hashes
      simp only [pos_verify_step, pure_eq, check_eq_next, pos_link_check, List.getLast?_nil,
        accepts_bind, accepts_guard, Bool.not_eq_false', PyVal.eq_str_iff,
        header_prev_hash_eq_ok] at hstep
      obtain ⟨⟨_, hprev, rfl, hfirst⟩, -⟩ := hstep
      exact absurd (PyVal.str.inj ((accepts_first_link.mp hfirst).2.unique hprev)) hg
    · simp only [hstep, Except.ok.injEq] at hout
      subst hout
      obtain ⟨reason, rfl⟩ := pos_verify_step_eq_ret hstep
      simp [verdict, ChainVerificationResult.fail] at hvalid

/-- Two accepted chains, neither a beginning of the other, differ for the first
time at a height where one validator signed two different contents: both blocks
name it, in the slot of that height, and both signatures verify under the one
key registered for it. -/
theorem pos_fork_attribution {C D : List Block}
    (hC : Verifies (verify_chain_integrity C (some (.pos pos)) g (some genesis_stakes)))
    (hD : Verifies (verify_chain_integrity D (some (.pos pos)) g (some genesis_stakes)))
    (hCD : ¬ PrefixUpTo SameBlock C D) (hDC : ¬ PrefixUpTo SameBlock D C) :
    ∃ pre d post pre' d' post', C = pre ++ .dict d :: post ∧ D = pre' ++ .dict d' :: post' ∧
      List.Forall₂ SameBlock pre pre' ∧ ¬ SameBlock (.dict d) (.dict d') ∧
      ∃ (f f' : ProofOfStake.PosFields) (validator_id key : Str),
        f.Of (.dict d) ∧ f'.Of (.dict d') ∧
        f.validator_id = validator_id ∧ f'.validator_id = validator_id ∧
        f.slot = ((pre.length + 1 : ℕ) : ℤ) ∧ f'.slot = ((pre.length + 1 : ℕ) : ℤ) ∧
        pos.validator_public_keys.find validator_id = some key ∧
        SignedBy key f.signature f.content ∧ SignedBy key f'.signature f'.content ∧
        signed_bytes (unsigned d) = .ok f.content ∧ signed_bytes (unsigned d') = .ok f'.content ∧
        ¬ JsonEq (.dict (unsigned d)) (.dict (unsigned d')) := by
  have hgC := grows_of_verifies hC
  have hgD := grows_of_verifies hD
  obtain ⟨pre, x, post, pre', y, post', rfl, rfl, hpre, hxy⟩ :=
    exists_first_difference (fun _ _ h => SameBlock.symm h) hCD hDC
  obtain ⟨-, f, hof, hvalid⟩ := grows_iff_split.mp hgC pre x post rfl
  obtain ⟨-, f', hof', hvalid'⟩ := grows_iff_split.mp hgD pre' y post' rfl
  -- equal beginnings, equal stakes, the same proposer
  have hstakes : rewarded pos.settings genesis_stakes pre = rewarded pos.settings genesis_stakes pre' :=
    rewarded_congr (fields_of_grows (hgC.prefix_closed (List.prefix_append _ _)))
      (fields_of_grows (hgD.prefix_closed (List.prefix_append _ _))) hpre
  have hlen : pre'.length = pre.length := hpre.length_eq.symm
  have hid : f'.validator_id = f.validator_id := by
    have h := hvalid'.proposer
    rw [hlen, ← hstakes, hvalid.proposer] at h
    exact (Except.ok.inj h).symm
  have hkey : f'.public_key = f.public_key := by
    have h := hvalid'.registered
    rw [hid, hvalid.registered] at h
    exact (Option.some.inj h).symm
  obtain ⟨d, rfl, hcontent⟩ := hof.content
  obtain ⟨d', rfl, hcontent'⟩ := hof'.content
  refine ⟨pre, d, post, pre', d', post', rfl, rfl, hpre, hxy, f, f', f.validator_id, f.public_key,
    hof, hof', rfl, hid, hvalid.slot, ?_, hvalid.registered, hvalid.signed, ?_, hcontent, hcontent',
    ?_⟩
  · rw [hvalid'.slot, hlen]
  · rw [← hkey]
    exact hvalid'.signed
  · -- the keys are the same, so the difference is in the signed part
    apply not_jsonEq_unsigned
    intro hsame
    refine hxy ⟨d, d', rfl, rfl, fun k hk => ?_⟩
    by_cases hpk : k = lit "public_key"
    · have h := hof.public_key
      have h' := hof'.public_key
      simp only [PyVal.item_dict, orRaise_eq_ok] at h h'
      rw [hpk, h, h', hkey]
    · refine hsame k ?_
      simp only [List.mem_cons, List.not_mem_nil, or_false] at hk ⊢
      exact not_or.mpr ⟨hk, hpk⟩

end Fork

/-! ## A fork -/

namespace TwoBlocks

attribute [local instance] cpython letterRsa

def stakes : StakeMap := ⟨[(lit "v", 100)], by decide⟩

/-- The protocol with the key `A` registered for the validator `v`. -/
def pos : ProofOfStake :=
  ⟨⟨10, 100, 10⟩, none, ⟨none, none⟩, stakes, some stakes, ⟨[(lit "v", lit "-----A")], by decide⟩,
    DEFAULT_GENESIS_PREV_HASH⟩

/-- A block of `v` at height one. -/
def block (input_data tran_hash signature : String) : Block := .dict
  [(.str (lit "block_index"), .int 1),
    (.str (lit "block_item"), .str (lit "2024-01-01 00:00:00")),
    (.str (lit "block_header"), .dict
      [(.str (lit "prev_hash"), .str DEFAULT_GENESIS_PREV_HASH),
        (.str (lit "consensus_type"), .str (lit "pos")),
        (.str (lit "validator_id"), .str (lit "v")),
        (.str (lit "slot"), .int 1),
        (.str (lit "tran_hash"), .str (lit tran_hash))]),
    (.str (lit "tran_counter"), .int 2),
    (.str (lit "tran_body"), .dict
      [(.str (lit "input_data"), .str (lit input_data)),
        (.str (lit "output_data"), .str (lit "c"))]),
    (.str (lit "signature"), .str (lit signature)),
    (.str (lit "public_key"), .str (lit "-----A"))]

def blockA : Block := block "a"
  "68d9133be373dad492ba56835208bcee6a9f3f35794957d933ebb21940429960"
  "e5dde655bae012e160b9aad813284cade365cc28528323363d92f9e46aca738c"

def blockB : Block := block "b"
  "985d71cca43f87d08947fd6b09c1cab55a0e01dc8865c8fd1d1cef57c1220761"
  "ec53665c610ae3109b8a808a83f2b188fcae83d7b49ed3df847cbf963b9cd8ba"

theorem verifies_blockA : Verifies (verify_chain_integrity [blockA] (some (.pos pos))
    DEFAULT_GENESIS_PREV_HASH (some stakes)) :=
  ⟨.ok, by decide +kernel, rfl⟩

theorem verifies_blockB : Verifies (verify_chain_integrity [blockB] (some (.pos pos))
    DEFAULT_GENESIS_PREV_HASH (some stakes)) :=
  ⟨.ok, by decide +kernel, rfl⟩

theorem not_sameBlock : ¬ SameBlock blockA blockB := by
  rintro ⟨d, e, hd, he, hsame⟩
  obtain rfl := PyVal.dict.inj hd
  obtain rfl := PyVal.dict.inj he
  have hbody : JsonEq (.dict [(.str (lit "input_data"), .str (lit "a")),
      (.str (lit "output_data"), .str (lit "c"))])
      (.dict [(.str (lit "input_data"), .str (lit "b")),
        (.str (lit "output_data"), .str (lit "c"))]) :=
    Option.some.inj (hsame (lit "tran_body") (by decide))
  have hinput : some (PyVal.str (lit "a")) = some (PyVal.str (lit "b")) :=
    hbody.find (lit "input_data")
  exact absurd (PyVal.str.inj (Option.some.inj hinput)) (by decide)

theorem not_prefixUpTo {x y : Block} (h : ¬ SameBlock x y) : ¬ PrefixUpTo SameBlock [x] [y] := by
  rintro ⟨pre, hpre, hrel⟩
  obtain ⟨z, rfl⟩ := List.length_eq_one_iff.mp hrel.length_eq.symm
  obtain rfl : z = y := by simpa using hpre
  cases hrel with
  | cons hxy _ => exact h hxy

/-- The theorem on the two chains of one block each. -/
theorem pos_fork_attributed :
    ∃ pre d post pre' d' post', [blockA] = pre ++ .dict d :: post ∧
      [blockB] = pre' ++ .dict d' :: post' ∧
      List.Forall₂ SameBlock pre pre' ∧ ¬ SameBlock (.dict d) (.dict d') ∧
      ∃ (f f' : ProofOfStake.PosFields) (validator_id key : Str),
        f.Of (.dict d) ∧ f'.Of (.dict d') ∧
        f.validator_id = validator_id ∧ f'.validator_id = validator_id ∧
        f.slot = ((pre.length + 1 : ℕ) : ℤ) ∧ f'.slot = ((pre.length + 1 : ℕ) : ℤ) ∧
        pos.validator_public_keys.find validator_id = some key ∧
        SignedBy key f.signature f.content ∧ SignedBy key f'.signature f'.content ∧
        signed_bytes (unsigned d) = .ok f.content ∧ signed_bytes (unsigned d') = .ok f'.content ∧
        ¬ JsonEq (.dict (unsigned d)) (.dict (unsigned d')) :=
  pos_fork_attribution verifies_blockA verifies_blockB (not_prefixUpTo not_sameBlock)
    (not_prefixUpTo fun h => not_sameBlock h.symm)

end TwoBlocks

end EasyBlockchain
