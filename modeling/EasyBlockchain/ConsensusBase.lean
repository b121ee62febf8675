/-
`consensus/base.py`: the link between a block and its predecessor, which every
consensus protocol checks the same way.
-/
import EasyBlockchain.Lib.HashChain
import EasyBlockchain.Types

set_option autoImplicit false

namespace EasyBlockchain

open Py Lib

/-- `genesis_prev_hash or self.genesis_prev_hash`. -/
def orDefault (genesis_prev_hash : Option Str) (own : Str) : Str :=
  match genesis_prev_hash with
  | some g => if g.isEmpty then own else g
  | none => own

@[simp] theorem orDefault_self (g : Str) : orDefault (some g) g = g := by
  simp only [orDefault]
  split <;> rfl

/-- The header entry `key` of a block holds `value`. -/
def HeaderIs (block : Block) (key : Str) (value : PyVal) : Prop :=
  ∃ header, block.item (lit "block_header") = .ok header ∧ header.item key = .ok value

theorem HeaderIs.unique {block : Block} {key : Str} {v w : PyVal} (hv : HeaderIs block key v)
    (hw : HeaderIs block key w) : v = w := by
  obtain ⟨header, hheader, hv⟩ := hv
  obtain ⟨header', hheader', hw⟩ := hw
  rw [hheader] at hheader'
  obtain rfl := Except.ok.inj hheader'
  exact Except.ok.inj (hv.symm.trans hw)

/-- Equal blocks have the same strings in their headers. -/
theorem HeaderIs.of_eq {x y : Block} {key s : Str} (heq : x.eq y = true)
    (h : HeaderIs x key (.str s)) : HeaderIs y key (.str s) := by
  obtain ⟨header, hheader, hs⟩ := h
  obtain ⟨header', hheader', heq'⟩ := PyVal.item_of_eq heq hheader
  obtain ⟨w, hw, hsw⟩ := PyVal.item_of_eq heq' hs
  obtain rfl := PyVal.str_eq_iff.mp hsw
  exact ⟨header', hheader', hw⟩

def PrevHashIs (block : Block) (h : Str) : Prop := HeaderIs block (lit "prev_hash") (.str h)

def TranHashIs (block : Block) (h : Str) : Prop := HeaderIs block (lit "tran_hash") (.str h)

/-- The hash link of a block to the chain before it: its `prev_hash` is the
`tran_hash` of the last block, or the genesis hash. -/
def HashLinked (g : Str) (seen : List Block) (block : Block) : Prop :=
  LinksTo PrevHashIs TranHashIs g seen block

/-- A check in a loop body that leaves the loop when it fails. -/
theorem check_eq_next {σ ρ : Type} {check : PyM ValidationResult} {f : ValidationResult → ρ}
    {rest : PyM (Pass σ ρ)} {s : σ} :
    (check >>= fun result => if (!result.valid) = true then .ok (.ret (f result)) else rest)
        = .ok (.next s) ↔ Accepts check ∧ rest = .ok (.next s) := by
  rw [bind_eq_ok]
  constructor
  · rintro ⟨result, hcheck, h⟩
    by_cases hvalid : result.valid = true
    · exact ⟨⟨result, hcheck, hvalid⟩, by simpa [hvalid] using h⟩
    · simp [hvalid] at h
  · rintro ⟨⟨result, hcheck, hvalid⟩, hrest⟩
    exact ⟨result, hcheck, by simpa [hvalid] using hrest⟩

/-- What leaves the loop is a failed check, or comes from the rest of the body. -/
theorem check_eq_ret {σ ρ : Type} {check : PyM ValidationResult} {f : ValidationResult → ρ}
    {rest : PyM (Pass σ ρ)} {r : ρ}
    (h : (check >>= fun result => if (!result.valid) = true then .ok (.ret (f result)) else rest)
      = .ok (.ret r)) : (∃ result, r = f result) ∨ rest = .ok (.ret r) := by
  obtain ⟨result, -, h⟩ := bind_eq_ok.mp h
  by_cases hvalid : result.valid = true
  · exact Or.inr (by simpa [hvalid] using h)
  · simp only [hvalid, Bool.not_false, if_true, Except.ok.injEq, Pass.ret.injEq] at h
    exact Or.inl ⟨result, h.symm⟩

variable [Runtime]

/-- The index of a block is one, or one more than its predecessor's. -/
def IndexFollows (seen : List Block) (block : Block) : Prop :=
  ∃ index, block.item (lit "block_index") = .ok index ∧
    match seen.getLast? with
    | none => index.eq (.int 1) = true
    | some previous => ∃ last next, previous.item (lit "block_index") = .ok last ∧
        last.addOne = .ok next ∧ index.eq next = true

/-- `validate_chain_link`; `own_genesis` is the protocol's `genesis_prev_hash`. -/
def validate_chain_link (own_genesis : Str) (block : Block) (previous_block : Option Block)
    (genesis_prev_hash : Option Str) : PyM ValidationResult := do
  match previous_block with
  | none =>
    let block_index ← block.item (lit "block_index")
    if !block_index.eq (.int 1) then return .fail (lit "first block_index must be 1")
    let header ← block.item (lit "block_header")
    let prev_hash ← header.item (lit "prev_hash")
    if !prev_hash.eq (.str (orDefault genesis_prev_hash own_genesis)) then
      return .fail (lit "genesis prev_hash mismatch")
    return .ok
  | some previous_block =>
    let previous_header ← previous_block.item (lit "block_header")
    let prev_tran ← previous_header.item (lit "tran_hash")
    let header ← block.item (lit "block_header")
    let prev_hash ← header.item (lit "prev_hash")
    if !prev_hash.eq prev_tran then return .fail (lit "prev_hash mismatch")
    let block_index ← block.item (lit "block_index")
    let previous_index ← previous_block.item (lit "block_index")
    let next_index ← previous_index.addOne
    if !block_index.eq next_index then return .fail (lit "block_index mismatch")
    return .ok

/-! ## What an accepted link says -/

/-- The first block of a chain: index one, on top of the genesis hash. -/
theorem accepts_first_link {own_genesis : Str} {block : Block} {g : Option Str} :
    Accepts (validate_chain_link own_genesis block none g) ↔
      (∃ index, block.item (lit "block_index") = .ok index ∧ index.eq (.int 1) = true) ∧
        HeaderIs block (lit "prev_hash") (.str (orDefault g own_genesis)) := by
  simp only [validate_chain_link, accepts_bind, pure_eq, accepts_guard, Bool.not_eq_false',
    accepts_ok, ValidationResult.ok_valid, and_true, PyVal.eq_str_iff, HeaderIs]
  constructor
  · rintro ⟨index, hindex, hone, header, hheader, prev, hprev, rfl⟩
    exact ⟨⟨index, hindex, hone⟩, header, hheader, hprev⟩
  · rintro ⟨⟨index, hindex, hone⟩, header, hheader, hprev⟩
    exact ⟨index, hindex, hone, header, hheader, _, hprev, rfl⟩

/-- A later block: on top of its predecessor's hash, with the next index. -/
theorem accepts_next_link {own_genesis : Str} {block previous : Block} {g : Option Str} :
    Accepts (validate_chain_link own_genesis block (some previous) g) ↔
      (∃ tran prev, HeaderIs previous (lit "tran_hash") tran ∧
        HeaderIs block (lit "prev_hash") prev ∧ prev.eq tran = true) ∧
      ∃ index last next, block.item (lit "block_index") = .ok index ∧
        previous.item (lit "block_index") = .ok last ∧ last.addOne = .ok next ∧
        index.eq next = true := by
  simp only [validate_chain_link, accepts_bind, pure_eq, accepts_guard, Bool.not_eq_false',
    accepts_ok, ValidationResult.ok_valid, and_true, HeaderIs]
  constructor
  · rintro ⟨ph, hph, tran, htran, h, hh, prev, hprev, heq, index, hindex, last, hlast, next, hnext,
      hone⟩
    exact ⟨⟨tran, prev, ⟨ph, hph, htran⟩, ⟨h, hh, hprev⟩, heq⟩, index, last, next, hindex, hlast,
      hnext, hone⟩
  · rintro ⟨⟨tran, prev, ⟨ph, hph, htran⟩, ⟨h, hh, hprev⟩, heq⟩, index, last, next, hindex, hlast,
      hnext, hone⟩
    exact ⟨ph, hph, tran, htran, h, hh, prev, hprev, heq, index, hindex, last, hlast, next, hnext,
      hone⟩

/-- For a block with a string as `prev_hash`, an accepted link is the hash link
and the index. -/
theorem accepts_chain_link {own_genesis g : Str} (hg : orDefault (some g) own_genesis = g)
    {seen : List Block} {block : Block} (hprev : ∃ p, PrevHashIs block p) :
    Accepts (validate_chain_link own_genesis block seen.getLast? (some g)) ↔
      HashLinked g seen block ∧ IndexFollows seen block := by
  rcases hlast : seen.getLast? with _ | previous
  · rw [accepts_first_link, hg, HashLinked, LinksTo, IndexFollows]
    simp only [TipIs, hlast, exists_eq_right]
    exact and_comm
  · rw [accepts_next_link, HashLinked, LinksTo, IndexFollows]
    simp only [TipIs, hlast]
    apply and_congr
    · constructor
      · rintro ⟨tran, prev, htran, hblock, heq⟩
        obtain ⟨p, hp⟩ := hprev
        obtain rfl := hblock.unique hp
        rw [PyVal.str_eq_iff] at heq
        subst heq
        exact ⟨p, hp, htran⟩
      · rintro ⟨h, hblock, htran⟩
        exact ⟨.str h, .str h, htran, hblock, PyVal.eq_str_iff.mpr rfl⟩
    · constructor
      · rintro ⟨index, last, next, hindex, hrest⟩
        exact ⟨index, hindex, last, next, hrest⟩
      · rintro ⟨index, hindex, last, next, hrest⟩
        exact ⟨index, last, next, hindex, hrest⟩

end EasyBlockchain
