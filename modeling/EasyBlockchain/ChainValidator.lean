/-
`chain_validator.py`: verification of a whole chain.

`verify_chain_integrity` is two loops, one for PoS with genesis stakes, which
carries the stakes along, and one for everything else. Each pass checks the
link to the predecessor and then the content of the block; the first check that
fails decides the result.
-/
import EasyBlockchain.Consensus

set_option autoImplicit false

namespace EasyBlockchain

open Py Lib

variable [Runtime] [Rsa]

/-- `block["block_header"]["prev_hash"]`. -/
def header_prev_hash (block : Block) : PyM PyVal := do
  let header ← block.item (lit "block_header")
  header.item (lit "prev_hash")

/-- The links checked in the loop over PoS stakes. -/
def pos_link_check (self : ProofOfStake) (genesis_prev_hash : Str) (previous : Option Block)
    (block : Block) : PyM ValidationResult :=
  match previous with
  | some previous =>
    validate_chain_link self.genesis_prev_hash block (some previous) (some genesis_prev_hash)
  | none => do
    let prev_hash ← header_prev_hash block
    if !prev_hash.eq (.str genesis_prev_hash) then
      return .fail (lit "genesis prev_hash mismatch")
    validate_chain_link self.genesis_prev_hash block none (some genesis_prev_hash)

/-- The body of the loop over PoS stakes. -/
def pos_verify_step (self : ProofOfStake) (chain : List Block) (genesis_prev_hash : Str)
    (validators : StakeMap) (seen : List Block) (block : Block) :
    PyM (Pass StakeMap ChainVerificationResult) := do
  let link ← pos_link_check self genesis_prev_hash seen.getLast? block
  if !link.valid then return .ret (.fail (seen.length + 1) link.reason)
  let result ← self.validate_block block chain (some validators) (some (seen.length + 1))
  if !result.valid then return .ret (.fail (seen.length + 1) result.reason)
  let validators ← ProofOfStake.apply_block_reward self.settings validators block
  return .next validators

/-- The links checked in the other loop. -/
def link_check (consensus : Option Consensus) (genesis_prev_hash : Str) (previous : Option Block)
    (block : Block) : PyM ValidationResult :=
  match previous with
  | some previous =>
    match consensus with
    | some consensus =>
      validate_chain_link consensus.genesis_prev_hash block (some previous) (some genesis_prev_hash)
    | none => do
      let previous_header ← previous.item (lit "block_header")
      let prev_tran ← previous_header.item (lit "tran_hash")
      let prev_hash ← header_prev_hash block
      if !prev_hash.eq prev_tran then return .fail (lit "prev_hash mismatch")
      let block_index ← block.item (lit "block_index")
      let previous_index ← previous.item (lit "block_index")
      let next_index ← previous_index.addOne
      if !block_index.eq next_index then return .fail (lit "block_index mismatch")
      return .ok
  | none => do
    let prev_hash ← header_prev_hash block
    if !prev_hash.eq (.str genesis_prev_hash) then
      return .fail (lit "genesis prev_hash mismatch")
    let block_index ← block.item (lit "block_index")
    if !block_index.eq (.int 1) then return .fail (lit "first block_index must be 1")
    match consensus with
    | some consensus =>
      validate_chain_link consensus.genesis_prev_hash block none (some genesis_prev_hash)
    | none => return .ok

/-- The content checked in the other loop. -/
def content_check (consensus : Option Consensus) (seen : List Block) (block : Block) :
    PyM ValidationResult := do
  let header ← block.get (lit "block_header") (.dict [])
  let consensus_type ← header.get (lit "consensus_type") .none
  match consensus with
  | some consensus => consensus.validate_block block seen
  | none =>
    match consensus_type with
    | .none =>
      let tran_body ← block.item (lit "tran_body")
      let body_hash ← calc_body_hash tran_body
      let prev_hash ← header.item (lit "prev_hash")
      let expected ← calc_legacy_tran_hash prev_hash body_hash
      let tran_hash ← header.get (lit "tran_hash") .none
      if !tran_hash.eq (.str expected) then return .fail (lit "legacy tran_hash mismatch")
      return .ok
    | _ => return .fail (lit "consensus_type present but no consensus validator configured")

/-- The body of the other loop. -/
def verify_step (consensus : Option Consensus) (genesis_prev_hash : Str) (_ : Unit)
    (seen : List Block) (block : Block) : PyM (Pass Unit ChainVerificationResult) := do
  let link ← link_check consensus genesis_prev_hash seen.getLast? block
  if !link.valid then return .ret (.fail (seen.length + 1) link.reason)
  let result ← content_check consensus seen block
  if !result.valid then return .ret (.fail (seen.length + 1) result.reason)
  return .next ()

/-- What a finished loop of `verify_chain_integrity` returns. -/
def verdict {σ : Type} : Pass σ ChainVerificationResult → ChainVerificationResult
  | .ret result => result
  | .next _ => .ok

def verify_chain_integrity (chain : List Block) (consensus : Option Consensus)
    (genesis_prev_hash : Str) (genesis_stakes : Option StakeMap) : PyM ChainVerificationResult :=
  match consensus, genesis_stakes with
  | some (.pos self), some genesis_stakes => do
    let out ← enumerate (pos_verify_step self chain genesis_prev_hash) genesis_stakes [] chain
    return verdict out
  | consensus, _ => do
    let out ← enumerate (verify_step consensus genesis_prev_hash) () [] chain
    return verdict out

/-! ## The checks of one pass -/

omit [Runtime] [Rsa] in
theorem header_prev_hash_eq_ok {block : Block} {v : PyVal} :
    header_prev_hash block = .ok v ↔ HeaderIs block (lit "prev_hash") v := by
  simp only [header_prev_hash, bind_eq_ok, HeaderIs]

/-- The second look at the genesis hash and the first index changes nothing. -/
theorem accepts_link_check {consensus : Consensus} {g : Str}
    (hg : orDefault (some g) consensus.genesis_prev_hash = g) {previous : Option Block}
    {block : Block} :
    Accepts (link_check (some consensus) g previous block) ↔
      Accepts (validate_chain_link consensus.genesis_prev_hash block previous (some g)) := by
  rcases previous with _ | previous
  · simp only [link_check, accepts_bind, pure_eq, accepts_guard, Bool.not_eq_false',
      PyVal.eq_str_iff, header_prev_hash_eq_ok]
    constructor
    · rintro ⟨_, -, -, _, -, -, h⟩
      exact h
    · intro h
      obtain ⟨⟨index, hindex, hone⟩, hprev⟩ := accepts_first_link.mp h
      rw [hg] at hprev
      exact ⟨_, hprev, rfl, index, hindex, hone, h⟩
  · rfl

/-- Under consensus, the header test of the verification loop is also made by
the validator. -/
theorem accepts_content_check {consensus : Consensus} {seen : List Block} {block : Block} :
    Accepts (content_check (some consensus) seen block) ↔
      Accepts (consensus.validate_block block seen) := by
  simp only [content_check, accepts_bind]
  constructor
  · rintro ⟨_, -, _, -, h⟩
    exact h
  · intro h
    obtain ⟨header, hheader, ctype, hctype⟩ : ∃ header,
        block.get (lit "block_header") (.dict []) = .ok header ∧ ∃ ctype,
          header.get (lit "consensus_type") .none = .ok ctype := by
      cases consensus with
      | pow self =>
          simp only [Consensus.validate_block, ProofOfWork.validate_block, accepts_bind] at h
          obtain ⟨header, hheader, ctype, hctype, -⟩ := h
          exact ⟨header, hheader, ctype, hctype⟩
      | pos self =>
          simp only [Consensus.validate_block, ProofOfStake.validate_block, accepts_bind] at h
          obtain ⟨header, hheader, ctype, hctype, -⟩ := h
          exact ⟨header, hheader, ctype, hctype⟩
    exact ⟨header, hheader, ctype, hctype, h⟩

/-- A block may follow a chain, as the loop without stakes decides it. -/
def VerifyStep (consensus : Option Consensus) (g : Str) (seen : List Block) (block : Block) : Prop :=
  Accepts (link_check consensus g seen.getLast? block) ∧
    Accepts (content_check consensus seen block)

theorem verify_step_eq_next {consensus : Option Consensus} {g : Str} {seen : List Block}
    {block : Block} {s : Unit} :
    verify_step consensus g () seen block = .ok (.next s) ↔
      VerifyStep consensus g seen block ∧ s = () := by
  simp only [verify_step, pure_eq, check_eq_next, VerifyStep, and_true]

theorem verify_step_eq_ret {consensus : Option Consensus} {g : Str} {seen : List Block}
    {block : Block} {r : ChainVerificationResult}
    (h : verify_step consensus g () seen block = .ok (.ret r)) :
    ∃ reason, r = .fail (seen.length + 1) reason := by
  simp only [verify_step, pure_eq] at h
  rcases check_eq_ret h with ⟨result, rfl⟩ | h
  · exact ⟨result.reason, rfl⟩
  · rcases check_eq_ret h with ⟨result, rfl⟩ | h
    · exact ⟨result.reason, rfl⟩
    · simp at h

/-! ## What a verification decides -/

/-- The verification ran to its end and found the chain valid. -/
def Verifies (r : PyM ChainVerificationResult) : Prop := ∃ v, r = .ok v ∧ v.valid = true

omit [Runtime] [Rsa] in
/-- A verification loop whose body refuses with the current index, and accepts
exactly what may follow, decides growth and reports the first refusal. -/
theorem verifies_iff_grows {σ : Type}
    (body : σ → List Block → Block → PyM (Pass σ ChainVerificationResult)) (I : List Block → σ)
    {P : List Block → Block → Prop}
    (hnext : ∀ pre x s, body (I pre) pre x = .ok (.next s) ↔ P pre x ∧ s = I (pre ++ [x]))
    (hret : ∀ pre x r, body (I pre) pre x = .ok (.ret r) →
      ∃ reason, r = .fail (pre.length + 1) reason)
    {chain : List Block} {r : PyM ChainVerificationResult}
    (hr : r = (do let out ← enumerate body (I []) [] chain; return verdict out)) :
    (Verifies r ↔ Grows P chain) ∧
      ∀ v, r = .ok v → v.valid = false → ∃ n, v.failed_at_index = some (n + 1) ∧
        IsGreatest {m | m ≤ chain.length ∧ Grows P (chain.take m)} n := by
  subst hr
  have hends := @enumerate_eq_next _ _ _ _ body P I hnext [] chain
  refine ⟨?_, ?_⟩
  · constructor
    · rintro ⟨v, hv, hvalid⟩
      simp only [bind_eq_ok, pure_eq, Except.ok.injEq] at hv
      obtain ⟨out, hout, rfl⟩ := hv
      rcases out with s | r
      · exact (hends.mp hout).1
      · obtain ⟨pre, x, post, -, -, -, hbody⟩ := enumerate_eq_ret hnext hout
        obtain ⟨reason, rfl⟩ := hret _ _ _ hbody
        simp [verdict, ChainVerificationResult.fail] at hvalid
    · intro hgrows
      have hout := hends.mpr ⟨hgrows, rfl⟩
      exact ⟨.ok, by simp [hout, verdict], rfl⟩
  · intro v hv hinvalid
    simp only [bind_eq_ok, pure_eq, Except.ok.injEq] at hv
    obtain ⟨out, hout, rfl⟩ := hv
    rcases out with s | r
    · simp [verdict, ChainVerificationResult.ok] at hinvalid
    · obtain ⟨pre, x, post, hsplit, hpre, hx, hbody⟩ := enumerate_eq_ret hnext hout
      obtain ⟨reason, rfl⟩ := hret _ _ _ hbody
      exact ⟨pre.length, rfl, isGreatest_of_stop hsplit hpre hx⟩

omit [Runtime] [Rsa] in
/-- A loop whose body refuses with `False`, and accepts exactly what may follow,
returns `True` for the chains that grow. -/
theorem returns_true_iff_grows {σ : Type} (body : σ → List Block → Block → PyM (Pass σ Bool))
    (I : List Block → σ) {P : List Block → Block → Prop}
    (hnext : ∀ pre x s, body (I pre) pre x = .ok (.next s) ↔ P pre x ∧ s = I (pre ++ [x]))
    (hret : ∀ pre x r, body (I pre) pre x = .ok (.ret r) → r = false)
    {chain : List Block} {r : PyM Bool} {finish : Pass σ Bool → PyM Bool}
    (hr : r = enumerate body (I []) [] chain >>= finish)
    (hfinish_ret : ∀ valid, finish (.ret valid) = .ok valid)
    (hfinish_next : ∀ s, finish (.next s) = .ok true) :
    r = .ok true ↔ Grows P chain := by
  subst hr
  have hends := @enumerate_eq_next _ _ _ _ body P I hnext [] chain
  constructor
  · intro h
    obtain ⟨out, hout, hok⟩ := bind_eq_ok.mp h
    rcases out with s | r
    · exact (hends.mp hout).1
    · obtain ⟨pre, x, post, -, -, -, hbody⟩ := enumerate_eq_ret hnext hout
      obtain rfl := hret _ _ _ hbody
      rw [hfinish_ret] at hok
      cases hok
  · intro h
    rw [hends.mpr ⟨h, rfl⟩, ok_bind]
    exact hfinish_next _

/-- The loop without stakes decides growth. -/
theorem loop_verification (consensus : Option Consensus) (g : Str) (chain : List Block)
    {r : PyM ChainVerificationResult}
    (hr : r = (do let out ← enumerate (verify_step consensus g) () [] chain; return verdict out)) :
    (Verifies r ↔ Grows (VerifyStep consensus g) chain) ∧
      ∀ v, r = .ok v → v.valid = false → ∃ n, v.failed_at_index = some (n + 1) ∧
        IsGreatest {m | m ≤ chain.length ∧ Grows (VerifyStep consensus g) (chain.take m)} n :=
  verifies_iff_grows (verify_step consensus g) (fun _ => ())
    (fun _ _ _ => verify_step_eq_next) (fun _ _ _ h => verify_step_eq_ret h) hr

end EasyBlockchain
