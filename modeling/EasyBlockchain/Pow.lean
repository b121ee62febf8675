/-
`consensus/pow.py`: difficulty, mining, the validator and fork choice.

`validate_block` is split where the source has a blank line: the header fields,
the times, the hash. `PowFields` collects what an accepted block carries, and
`accepts_validate_block` says that acceptance is the existence of such a record
meeting the rules; nothing after this file unfolds the validator.
-/
import EasyBlockchain.Lib.Growth
import EasyBlockchain.Py.DateTime
import EasyBlockchain.ConsensusBase
import EasyBlockchain.HashUtils
import EasyBlockchain.Py.Builtins
import Mathlib.Data.Prod.Lex

set_option autoImplicit false

namespace EasyBlockchain

open Py Lib

structure ProofOfWork where
  settings : PowSettings
  genesis_prev_hash : Str

namespace ProofOfWork

/-! ## Difficulty -/

/-- `xs[start:]`. -/
def sliceFrom {α : Type} (xs : List α) (start : ℤ) : List α :=
  xs.drop (if start < 0 then xs.length + start else start).toNat

section Difficulty

variable [Runtime] (settings : PowSettings)

/-- `int(header.get("difficulty", self.settings.initial_difficulty))`. -/
def header_difficulty (header : PyVal) : PyM ℤ := do
  let difficulty ← header.get (lit "difficulty") (.int settings.initial_difficulty)
  difficulty.toInt

def elapsed_seconds (start_block end_block : Block) : PyM ℤ := do
  let fallback := settings.target_block_time_seconds * settings.adjustment_interval
  let start_item ← start_block.get (lit "block_item") .none
  let end_item ← end_block.get (lit "block_item") .none
  match start_item, end_item with
  | .str start_item, .str end_item =>
    match strptime start_item, strptime end_item with
    | some start, some stop => return max 1 (stop.seconds - start.seconds)
    | _, _ => return fallback
  | _, _ => return fallback

/-- The last part of `get_difficulty`, from `ratio = ...` on. -/
def adjusted_difficulty (first_difficulty actual_time expected_time : ℤ) : PyM ℤ := do
  let ratio ← PyFloat.divInt actual_time expected_time
  if PyFloat.lt (.fin 1) ratio then
    let factor := ratio.min settings.max_adjustment_factor
    let first ← PyFloat.ofInt first_difficulty
    let quotient ← first.div factor
    let truncated ← quotient.toInt
    let new_difficulty := max 1 truncated
    let bound ← first.div settings.max_adjustment_factor
    let lower_bound ← bound.ceil
    return max new_difficulty lower_bound
  else if PyFloat.lt ratio (.fin 1) then
    let inverse ← PyFloat.div (.fin 1) settings.max_adjustment_factor
    let divisor := ratio.max inverse
    let first ← PyFloat.ofInt first_difficulty
    let quotient ← first.div divisor
    let truncated ← quotient.toInt
    return max 1 truncated
  else return first_difficulty

def get_difficulty (chain : List Block) : PyM ℤ :=
  match chain.getLast? with
  | none => .ok settings.initial_difficulty
  | some last =>
    let interval := settings.adjustment_interval
    if chain.length < interval then do
      let last ← last.item (lit "block_header")
      header_difficulty settings last
    else do
      let recent := sliceFrom chain (-interval)
      let first ← orRaise .indexError recent.head?
      let header ← first.item (lit "block_header")
      let first_difficulty ← header_difficulty settings header
      let final ← orRaise .indexError recent.getLast?
      let actual_time ← elapsed_seconds settings first final
      let expected_time := settings.target_block_time_seconds * (interval - 1)
      if expected_time ≤ 0 ∨ actual_time ≤ 0 then return first_difficulty
      adjusted_difficulty settings first_difficulty actual_time expected_time

/-! ## Mining -/

/-- The mining loop: the first nonce below `nonce + fuel` that meets the target. -/
def find_nonce (prev_hash : PyVal) (body_hash : Str) (difficulty : ℤ) :
    ℕ → ℕ → PyM (Option (ℕ × Str))
  | 0, _ => .ok none
  | fuel + 1, nonce => do
    let tran_hash ← calc_pow_tran_hash prev_hash body_hash nonce
    if meets_difficulty tran_hash difficulty then return some (nonce, tran_hash)
    find_nonce prev_hash body_hash difficulty fuel (nonce + 1)

def mine_block (block : Block) (chain : List Block) : PyM Block := do
  let header ← block.item (lit "block_header")
  let prev_hash ← header.item (lit "prev_hash")
  let tran_body ← block.item (lit "tran_body")
  let body_hash ← calc_body_hash tran_body
  let difficulty ← get_difficulty settings chain
  match ← find_nonce prev_hash body_hash difficulty settings.max_mining_iterations.toNat 0 with
  | none => .error .runtimeError
  | some (nonce, tran_hash) =>
    let header ← header.setItem (lit "nonce") (.int nonce)
    let header ← header.setItem (lit "difficulty") (.int difficulty)
    let header ← header.setItem (lit "tran_hash") (.str tran_hash)
    let header ← header.setItem (lit "consensus_type") (.str (lit "pow"))
    block.setItem (lit "block_header") header

/-- A mined nonce meets the target and is below the bound. -/
theorem find_nonce_spec {prev_hash : PyVal} {body_hash h : Str} {difficulty : ℤ}
    {fuel nonce n : ℕ} (hfind : find_nonce prev_hash body_hash difficulty fuel nonce
      = .ok (some (n, h))) :
    calc_pow_tran_hash prev_hash body_hash n = .ok h ∧ meets_difficulty h difficulty = true := by
  induction fuel generalizing nonce with
  | zero => simp [find_nonce] at hfind
  | succ fuel ih =>
      simp only [find_nonce, bind_eq_ok, pure_eq] at hfind
      obtain ⟨t, ht, hfind⟩ := hfind
      by_cases hm : meets_difficulty t difficulty = true
      · simp only [hm, if_true, Except.ok.injEq, Option.some.injEq, Prod.mk.injEq] at hfind
        obtain ⟨rfl, rfl⟩ := hfind
        exact ⟨ht, hm⟩
      · simp only [hm] at hfind
        exact ih hfind

/-! ## The validator -/

/-- The names of the pairs whose container lacks them, in order. -/
def missing_fields : List (Str × PyVal) → PyM (List Str)
  | [] => .ok []
  | (field_name, container) :: rest => do
    let present ← container.has field_name
    let missing ← missing_fields rest
    return if present then missing else field_name :: missing

/-- `int(v)` under `except (TypeError, ValueError, OverflowError)`. -/
def try_int (v : PyVal) : PyM (Option ℤ) :=
  match v.toInt with
  | .ok i => .ok (some i)
  | .error e =>
    if e = .typeError ∨ e.isValueError ∨ e = .overflowError then .ok none else .error e

/-- The part of `validate_block` about `block_item`. -/
def check_block_item (block : Block) (parent : Option Block) : PyM ValidationResult := do
  let block_item ← block.get (lit "block_item") .none
  match block_item with
  | .str block_item =>
    match strptime block_item with
    | none => return .fail (lit "invalid block_item format")
    | some block_time =>
      match parent with
      | none => return .ok
      | some parent =>
        let parent_item ← parent.get (lit "block_item") .none
        let parent_time :=
          match parent_item with
          | .str parent_item => strptime parent_item
          | _ => none
        match parent_time with
        | none => return .fail (lit "parent block_item missing or invalid")
        | some parent_time =>
          if block_time.seconds < parent_time.seconds then
            return .fail (lit "block_item earlier than parent")
          return .ok
  | _ => return .fail (lit "missing or invalid block_item")

def validate_block (block : Block) (chain : List Block) : PyM ValidationResult := do
  let header ← block.get (lit "block_header") (.dict [])
  let consensus_type ← header.get (lit "consensus_type") .none
  if !consensus_type.eq (.str (lit "pow")) then return .fail (lit "consensus_type is not pow")
  let missing ← missing_fields [(lit "nonce", header), (lit "difficulty", header),
    (lit "tran_body", block), (lit "prev_hash", header), (lit "tran_hash", header)]
  if !missing.isEmpty then
    return .fail (lit "missing PoW fields: " ++ List.intercalate (lit ", ") missing)
  let difficulty ← header.item (lit "difficulty")
  match ← try_int difficulty with
  | none => return .fail (lit "invalid difficulty")
  | some declared_difficulty =>
  let nonce ← header.item (lit "nonce")
  match ← try_int nonce with
  | none => return .fail (lit "invalid nonce")
  | some nonce =>
  let expected_difficulty ← get_difficulty settings chain
  if declared_difficulty ≠ expected_difficulty then
    return .fail (lit "difficulty does not match network expectation")
  let time ← check_block_item block chain.getLast?
  if !time.valid then return time
  let tran_body ← block.item (lit "tran_body")
  let body_hash ← calc_body_hash tran_body
  let prev_hash ← header.item (lit "prev_hash")
  let expected_hash ← calc_pow_tran_hash prev_hash body_hash nonce
  let tran_hash ← header.item (lit "tran_hash")
  if !tran_hash.eq (.str expected_hash) then return .fail (lit "tran_hash mismatch")
  if !meets_difficulty expected_hash declared_difficulty then
    return .fail (lit "difficulty not met")
  return .ok

end Difficulty

/-! ## What an accepted block carries -/

/-- `block_item` parses to this time. -/
def HasTime (block : Block) (time : DateTime) : Prop :=
  ∃ text, block.item (lit "block_item") = .ok (.str text) ∧ strptime text = some time

theorem HasTime.unique {block : Block} {t u : DateTime} (ht : HasTime block t)
    (hu : HasTime block u) : t = u := by
  obtain ⟨text, htext, ht⟩ := ht
  obtain ⟨text', htext', hu⟩ := hu
  rw [htext] at htext'
  obtain rfl := PyVal.str.inj (Except.ok.inj htext')
  exact Option.some.inj (ht.symm.trans hu)

/-- The values a proof-of-work block is judged by. -/
structure PowFields where
  prev_hash : Str
  tran_body : PyVal
  nonce : ℤ
  difficulty : ℤ
  tran_hash : Str
  time : DateTime

/-- The block holds these values where the validator looks for them. -/
structure PowFields.Of (f : PowFields) (block : Block) : Prop where
  consensus_type : HeaderIs block (lit "consensus_type") (.str (lit "pow"))
  prev_hash : HeaderIs block (lit "prev_hash") (.str f.prev_hash)
  tran_body : block.item (lit "tran_body") = .ok f.tran_body
  nonce : ∃ v, HeaderIs block (lit "nonce") v ∧ v.toInt = .ok f.nonce
  difficulty : ∃ v, HeaderIs block (lit "difficulty") v ∧ v.toInt = .ok f.difficulty
  tran_hash : HeaderIs block (lit "tran_hash") (.str f.tran_hash)
  time : HasTime block f.time

/-- No block holds two different records of values. -/
theorem PowFields.Of.unique {f f' : PowFields} {block : Block} (h : f.Of block)
    (h' : f'.Of block) : f = f' := by
  obtain ⟨prev, body, nonce, difficulty, tran, time⟩ := f
  obtain ⟨prev', body', nonce', difficulty', tran', time'⟩ := f'
  obtain ⟨-, hprev, hbody, ⟨v, hv, hnonce⟩, ⟨w, hw, hdiff⟩, htran, htime⟩ := h
  obtain ⟨-, hprev', hbody', ⟨v', hv', hnonce'⟩, ⟨w', hw', hdiff'⟩, htran', htime'⟩ := h'
  obtain rfl := PyVal.str.inj (hprev.unique hprev')
  obtain rfl := Except.ok.inj (hbody.symm.trans hbody')
  obtain rfl := hv.unique hv'
  obtain rfl := hw.unique hw'
  obtain rfl := Except.ok.inj (hnonce.symm.trans hnonce')
  obtain rfl := Except.ok.inj (hdiff.symm.trans hdiff')
  obtain rfl := PyVal.str.inj (htran.unique htran')
  obtain rfl := htime.unique htime'
  rfl

theorem missing_fields_eq_nil {fields : List (Str × PyVal)} :
    missing_fields fields = .ok [] ↔ ∀ p ∈ fields, p.2.has p.1 = .ok true := by
  induction fields with
  | nil => simp [missing_fields]
  | cons p rest ih =>
      obtain ⟨name, container⟩ := p
      simp only [missing_fields, bind_eq_ok, pure_eq, Except.ok.injEq, List.forall_mem_cons]
      constructor
      · rintro ⟨present, hpresent, missing, hmissing, hnil⟩
        cases present
        · simp at hnil
        · simp only [if_true] at hnil
          subst hnil
          exact ⟨hpresent, ih.mp hmissing⟩
      · rintro ⟨hpresent, hrest⟩
        exact ⟨true, hpresent, [], ih.mpr hrest, by simp⟩

theorem try_int_eq_some {v : PyVal} {i : ℤ} : try_int v = .ok (some i) ↔ v.toInt = .ok i := by
  unfold try_int
  rcases v.toInt with e | j
  · simp only [reduceCtorEq, iff_false]
    split <;> simp
  · simp

section Validator

variable [Runtime] {settings : PowSettings} {block : Block} {chain : List Block}

/-- A block's time is acceptable after its parent. -/
def TimeFollows (time : DateTime) (parent : Option Block) : Prop :=
  ∀ p, parent = some p → ∃ parent_time, HasTime p parent_time ∧ parent_time.seconds ≤ time.seconds

omit [Runtime] in
theorem accepts_check_block_item {parent : Option Block} :
    Accepts (check_block_item block parent) ↔
      ∃ time, HasTime block time ∧ TimeFollows time parent := by
  constructor
  · intro h
    simp only [check_block_item, accepts_bind] at h
    obtain ⟨item, hitem, h⟩ := h
    split at h
    · rename_i text
      have htext := PyVal.item_of_get hitem (by simp)
      split at h
      · simp at h
      · rename_i time htime
        refine ⟨time, ⟨text, htext, htime⟩, ?_⟩
        rintro p rfl
        simp only [accepts_bind] at h
        obtain ⟨parent_item, hparent, h⟩ := h
        split at h
        · simp at h
        · rename_i parent_time hparent_time
          refine ⟨parent_time, ?_, ?_⟩
          · split at hparent_time
            · rename_i parent_text
              exact ⟨parent_text, PyVal.item_of_get hparent (by simp), hparent_time⟩
            · cases hparent_time
          · by_contra hlt
            simp [not_le.mp hlt] at h
    · simp at h
  · rintro ⟨time, ⟨text, htext, htime⟩, hfollows⟩
    rw [check_block_item, PyVal.get_of_item htext]
    simp only [ok_bind, htime]
    rcases parent with _ | p
    · simp
    · obtain ⟨parent_time, ⟨parent_text, hptext, hptime⟩, hle⟩ := hfollows p rfl
      simp [PyVal.get_of_item hptext, hptime, not_lt.mpr hle]

/-- The rules a proof-of-work block follows on top of a chain. -/
structure PowFields.Valid (settings : PowSettings) (chain : List Block) (f : PowFields) : Prop where
  difficulty : get_difficulty settings chain = .ok f.difficulty
  time : TimeFollows f.time chain.getLast?
  hash : ∃ body_hash, calc_body_hash f.tran_body = .ok body_hash ∧
    calc_pow_tran_hash (.str f.prev_hash) body_hash f.nonce = .ok f.tran_hash
  work : meets_difficulty f.tran_hash f.difficulty = true

/-- `validate_block` accepts exactly the blocks that follow the rules. -/
theorem accepts_validate_block :
    Accepts (validate_block settings block chain) ↔
      ∃ f : PowFields, f.Of block ∧ f.Valid settings chain := by
  constructor
  · intro h
    simp only [validate_block, accepts_bind, pure_eq, accepts_guard, Bool.not_eq_false'] at h
    obtain ⟨header, hheader, ctype, hctype, heq, missing, hmissing, hnil, difficulty, hdiff, d, hd,
      h⟩ := h
    rw [PyVal.eq_str_iff] at heq
    subst heq
    have hctype := PyVal.item_of_get hctype (by simp)
    have hheader : block.item (lit "block_header") = .ok header := by
      refine PyVal.item_of_get hheader ?_
      rintro rfl
      simp [PyVal.item] at hctype
    rcases d with _ | declared
    · simp at h
    simp only [accepts_bind] at h
    obtain ⟨v, hv, n, hn, h⟩ := h
    rcases n with _ | nonce
    · simp at h
    simp only [accepts_bind] at h
    obtain ⟨expected, hexp, h⟩ := h
    by_cases hne : declared = expected
    swap
    · simp [hne] at h
    subst hne
    simp only [ne_eq, not_true_eq_false, if_false, accepts_bind] at h
    obtain ⟨time, htime, h⟩ := h
    by_cases hvalid : time.valid = true
    swap
    · simp [hvalid] at h
    simp only [hvalid, Bool.not_true, Bool.false_eq_true, if_false, accepts_bind, accepts_guard,
      Bool.not_eq_false', accepts_ok, ValidationResult.ok_valid, and_true,
      PyVal.eq_str_iff] at h
    obtain ⟨body, hbody, body_hash, hbody_hash, prev, hprev, tran, htran, _, hth, rfl, hwork⟩ := h
    obtain ⟨t, ht, hfollows⟩ := accepts_check_block_item.mp ⟨time, htime, hvalid⟩
    obtain ⟨prev, rfl⟩ : ∃ s, prev = .str s := by
      simp only [calc_pow_tran_hash, bind_eq_ok, concat_eq_ok] at htran
      obtain ⟨_, ⟨s, hs, -⟩, -⟩ := htran
      exact ⟨s, hs⟩
    refine ⟨⟨prev, body, nonce, declared, tran, t⟩, ?_, ?_⟩
    · exact ⟨⟨header, hheader, hctype⟩, ⟨header, hheader, hprev⟩, hbody,
        ⟨v, ⟨header, hheader, hv⟩, try_int_eq_some.mp hn⟩,
        ⟨difficulty, ⟨header, hheader, hdiff⟩, try_int_eq_some.mp hd⟩, ⟨header, hheader, hth⟩, ht⟩
    · exact ⟨hexp, hfollows, ⟨body_hash, hbody_hash, htran⟩, hwork⟩
  · rintro ⟨f, hof, hvalid⟩
    obtain ⟨⟨header, hheader, hctype⟩, ⟨h₁, hh₁, hprev⟩, hbody, ⟨v, ⟨h₂, hh₂, hv⟩, hn⟩,
      ⟨w, ⟨h₃, hh₃, hw⟩, hd⟩, ⟨h₄, hh₄, htran⟩, ht⟩ := hof
    obtain ⟨hexp, hfollows, ⟨body_hash, hbody_hash, hhash⟩, hwork⟩ := hvalid
    rw [hheader] at hh₁ hh₂ hh₃ hh₄
    obtain rfl := Except.ok.inj hh₁
    obtain rfl := Except.ok.inj hh₂
    obtain rfl := Except.ok.inj hh₃
    obtain rfl := Except.ok.inj hh₄
    have hmissing : missing_fields [(lit "nonce", header), (lit "difficulty", header),
        (lit "tran_body", block), (lit "prev_hash", header), (lit "tran_hash", header)]
        = .ok [] := by
      simp only [missing_fields_eq_nil, List.forall_mem_cons, PyVal.has_eq_true, List.not_mem_nil,
        false_implies, implies_true, and_true]
      exact ⟨⟨v, hv⟩, ⟨w, hw⟩, ⟨_, hbody⟩, ⟨_, hprev⟩, ⟨_, htran⟩⟩
    obtain ⟨time, htime, hok⟩ := accepts_check_block_item.mpr ⟨f.time, ht, hfollows⟩
    have htype : PyVal.eq (.str (lit "pow")) (.str (lit "pow")) = true := PyVal.eq_str_iff.mpr rfl
    have heq : PyVal.eq (.str f.tran_hash) (.str f.tran_hash) = true := PyVal.eq_str_iff.mpr rfl
    simp only [validate_block, PyVal.get_of_item hheader, PyVal.get_of_item hctype, ok_bind, htype,
      Bool.not_true, Bool.false_eq_true, if_false, hmissing, List.isEmpty_nil, hw,
      try_int_eq_some.mpr hd, hv, try_int_eq_some.mpr hn, hexp, ne_eq, not_true_eq_false, htime,
      hok, hbody, hbody_hash, hprev, hhash, htran, heq, hwork, pure_eq, accepts_ok,
      ValidationResult.ok_valid]

end Validator

/-! ## Fork choice -/

section ForkChoice

variable [Runtime] {settings : PowSettings} {block : Block} {chain : List Block}

/-- The body of the loop of `_is_chain_valid`. -/
def chain_valid_step (self : ProofOfWork) (_ : Unit) (seen : List Block) (block : Block) :
    PyM (Pass Unit Bool) := do
  let link ← validate_chain_link self.genesis_prev_hash block seen.getLast?
    (some self.genesis_prev_hash)
  if !link.valid then return .ret false
  let result ← validate_block self.settings block seen
  if !result.valid then return .ret false
  return .next ()

/-- `_is_chain_valid`. -/
def is_chain_valid (self : ProofOfWork) (chain : List Block) : PyM Bool := do
  match ← enumerate (chain_valid_step self) () [] chain with
  | .ret valid => return valid
  | .next _ => return true

/-- One summand of `_total_difficulty`. -/
def block_difficulty (block : Block) : PyM ℤ := do
  let header ← block.item (lit "block_header")
  let difficulty ← header.get (lit "difficulty") (.int 0)
  difficulty.toInt

/-- `_total_difficulty`. -/
def total_difficulty (chain : List Block) : PyM ℤ := do
  let difficulties ← mapPy block_difficulty chain
  return difficulties.sum

def score_chain (chain : List Block) : PyM (ℤ ×ₗ ℕ) := do
  let total ← total_difficulty chain
  return toLex (total, chain.length)

def select_canonical_chain (self : ProofOfWork) (chains : List (List Block)) :
    PyM (List Block) := do
  let valid_chains ← filterPy (is_chain_valid self) chains
  match ← maxBy score_chain valid_chains with
  | none => return []
  | some chain => return chain

omit [Runtime] in
/-- The declared difficulty is the one the score adds up. -/
theorem PowFields.Of.block_difficulty {f : PowFields} (h : f.Of block) :
    ProofOfWork.block_difficulty block = .ok f.difficulty := by
  obtain ⟨v, ⟨header, hheader, hv⟩, hint⟩ := h.difficulty
  simp [ProofOfWork.block_difficulty, hheader, PyVal.get_of_item hv, hint]

end ForkChoice

end ProofOfWork

end EasyBlockchain
