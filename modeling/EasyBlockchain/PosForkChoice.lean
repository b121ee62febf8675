/-
Proof of stake: fork choice without genesis stakes.

`_is_chain_valid` gives `validate_block` the whole chain as the blocks before
the one it looks at, so every block is asked for the slot after the last one.
`verify_chain_integrity` gives it the prefix, so every block is asked for the
slot of its height. The first block of a chain cannot hold both slots, and the
two never accept the same chain unless it is empty.
-/
import EasyBlockchain.ForkAttribution

set_option autoImplicit false

namespace EasyBlockchain

open Py Lib

section ForkChoice

variable [Runtime] [Rsa]

/-! ## The rules in a slot -/

/-- A block may follow a chain in a slot, under the stakes that are registered. -/
def SlotStep (pos : ProofOfStake) (slot : ℕ) (seen : List Block) (block : Block) : Prop :=
  Accepts (validate_chain_link pos.genesis_prev_hash block seen.getLast?
      (some pos.genesis_prev_hash)) ∧
    ∃ f : ProofOfStake.PosFields, f.Of block ∧
      f.Valid pos.validator_public_keys pos.validators slot

/-- Every block of the chain follows the rules in the slot given to its height. -/
def InSlots (pos : ProofOfStake) (slot : ℕ → ℕ) (chain : List Block) : Prop :=
  Grows (fun seen => SlotStep pos (slot (seen.length + 1)) seen) chain

variable {pos : ProofOfStake} {chain : List Block}

/-- A block stands in one slot. -/
theorem SlotStep.slot_unique {i j : ℕ} {seen seen' : List Block} {block : Block}
    (h : SlotStep pos i seen block) (h' : SlotStep pos j seen' block) : i = j := by
  obtain ⟨-, f, hof, hvalid⟩ := h
  obtain ⟨-, f', hof', hvalid'⟩ := h'
  obtain rfl := hof.unique hof'
  have hslot : (i : ℤ) = j := hvalid.slot.symm.trans hvalid'.slot
  omega

/-- Chains in different slots from the first block on have no block. -/
theorem InSlots.eq_nil {slot slot' : ℕ → ℕ} (hne : slot 1 ≠ slot' 1) (h : InSlots pos slot chain)
    (h' : InSlots pos slot' chain) : chain = [] := by
  cases chain with
  | nil => rfl
  | cons block rest =>
      obtain ⟨hfirst, -⟩ := h
      obtain ⟨hfirst', -⟩ := h'
      exact absurd (hfirst.slot_unique hfirst') hne

/-! ## The two loops -/

/-- Verification asks every block for the slot of its height. -/
theorem verifies_iff_inSlots :
    Verifies (verify_chain_integrity chain (some (.pos pos)) pos.genesis_prev_hash none) ↔
      InSlots pos id chain := by
  have hstep : VerifyStep (some (.pos pos)) pos.genesis_prev_hash
      = fun seen => SlotStep pos (id (seen.length + 1)) seen := by
    funext seen block
    apply propext
    apply and_congr
    · exact accepts_link_check (orDefault_self pos.genesis_prev_hash)
    · exact accepts_content_check.trans
        (ProofOfStake.accepts_validate_block pos block seen none none)
  rw [InSlots, ← hstep]
  exact (loop_verification (some (.pos pos)) pos.genesis_prev_hash chain rfl).1

/-- Fork choice asks every block for the slot after the last one. -/
theorem candidate_valid_iff_inSlots :
    pos.candidate_valid none chain = .ok true ↔
      InSlots pos (fun _ => chain.length + 1) chain := by
  refine returns_true_iff_grows (pos.chain_valid_step chain) (fun _ => ()) ?_ ?_ rfl
    (fun _ => rfl) fun _ => rfl
  · intro pre x s
    simp only [ProofOfStake.chain_valid_step, pure_eq, check_eq_next,
      ProofOfStake.accepts_validate_block, Option.getD_none, SlotStep, and_true]
  · intro pre x r hret
    simp only [ProofOfStake.chain_valid_step, pure_eq] at hret
    rcases check_eq_ret hret with ⟨_, rfl⟩ | hret
    · rfl
    · rcases check_eq_ret hret with ⟨_, rfl⟩ | hret
      · rfl
      · simp at hret

/-! ## Where they agree -/

/-- The chain survives the filter of `select_canonical_chain` exactly when it
verifies, and is selected from itself if it verifies and has a block. -/
def SameValidity (pos : ProofOfStake) (chain : List Block) : Prop :=
  let verified :=
    Verifies (verify_chain_integrity chain (some (.pos pos)) pos.genesis_prev_hash none)
  (pos.candidate_valid none chain = .ok true ↔ verified) ∧
    (chain ≠ [] → verified → pos.select_canonical_chain [chain] none = .ok chain)

/-- Fork choice without genesis stakes and verification agree on the empty chain
and on the chains that follow the rules neither in the slots of their heights nor
in the one slot after the last block. -/
theorem same_validity_iff (pos : ProofOfStake) (chain : List Block) :
    SameValidity pos chain ↔
      chain = [] ∨ ¬ InSlots pos id chain ∧ ¬ InSlots pos (fun _ => chain.length + 1) chain := by
  simp only [SameValidity, verifies_iff_inSlots, candidate_valid_iff_inSlots]
  constructor
  · rintro ⟨hsame, -⟩
    by_cases hnil : chain = []
    · exact Or.inl hnil
    have hpos : 0 < chain.length := List.length_pos_iff.mpr hnil
    have hslots : 1 ≠ chain.length + 1 := by omega
    right
    constructor
    · intro hheights
      have hlast := hsame.mpr hheights
      exact hnil (hheights.eq_nil hslots hlast)
    · intro hlast
      have hheights := hsame.mp hlast
      exact hnil (hheights.eq_nil hslots hlast)
  · rintro (rfl | ⟨hheights, hlast⟩)
    · refine ⟨⟨fun _ => grows_nil, fun _ => grows_nil⟩, ?_⟩
      intro hne
      exact absurd rfl hne
    · refine ⟨⟨fun h => absurd h hlast, fun h => absurd h hheights⟩, ?_⟩
      intro _ h
      exact absurd h hheights

/-- No chain with a block that verifies is ever selected. -/
theorem valid_chain_not_selected (hne : chain ≠ [])
    (h : Verifies (verify_chain_integrity chain (some (.pos pos)) pos.genesis_prev_hash none))
    (chains : List (List Block)) : pos.select_canonical_chain chains none ≠ .ok chain := by
  intro hselect
  simp only [ProofOfStake.select_canonical_chain, bind_eq_ok] at hselect
  obtain ⟨valid_chains, hfilter, best, hbest, hselect⟩ := hselect
  obtain ⟨-, rfl⟩ := filterPy_eq_ok.mp hfilter
  cases best with
  | none => exact hne (Except.ok.inj hselect).symm
  | some best =>
      obtain rfl := Except.ok.inj hselect
      obtain ⟨hmem, -⟩ := maxBy_eq_some hbest
      have hvalid : pos.candidate_valid none best = .ok true := by
        simpa using (List.mem_filter.mp hmem).2
      have hpos : 0 < best.length := List.length_pos_iff.mpr hne
      apply hne
      apply (verifies_iff_inSlots.mp h).eq_nil _ (candidate_valid_iff_inSlots.mp hvalid)
      simp only [id]
      omega

end ForkChoice

/-! ## A chain of one block -/

namespace OneCandidate

attribute [local instance] cpython letterRsa

/-- The chain of one block verifies under the registered stakes, and does not
survive the filter of fork choice. -/
theorem validity_differs : ¬ SameValidity TwoBlocks.pos [TwoBlocks.blockA] := by
  have hverifies : verify_chain_integrity [TwoBlocks.blockA] (some (.pos TwoBlocks.pos))
      DEFAULT_GENESIS_PREV_HASH none = .ok .ok := by decide +kernel
  have hrefused : TwoBlocks.pos.candidate_valid none [TwoBlocks.blockA] = .ok false := by
    decide +kernel
  rintro ⟨hsame, -⟩
  have hvalid := hsame.mpr ⟨_, hverifies, rfl⟩
  rw [hrefused] at hvalid
  cases hvalid

end OneCandidate

end EasyBlockchain
