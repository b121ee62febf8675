/-
`consensus/pos.py`: stakes, proposer election, the validator and fork choice.

The stakes in force at a height are the genesis stakes with the rewards of the
blocks below it. The source has this twice, as a map updated along the chain
and as a recomputation (`compute_validators_from_chain`); `replay` is the value
both arrive at, and `find_replay` says what it is.
-/
import EasyBlockchain.Lib.Growth
import EasyBlockchain.Py.StrDict
import EasyBlockchain.Py.Builtins
import EasyBlockchain.ConsensusBase
import EasyBlockchain.Signature
import Mathlib.Data.Prod.Lex

set_option autoImplicit false

namespace EasyBlockchain

open Py Lib

/-- `dict[str, int]`: stakes by validator id. -/
abbrev StakeMap : Type := StrDict ℤ

structure ProofOfStake [Rsa] where
  settings : PosSettings
  node_validator_id : Option Str
  signature_manager : SignatureManager
  validators : StakeMap
  genesis_stakes : Option StakeMap
  validator_public_keys : StrDict Str
  genesis_prev_hash : Str

namespace ProofOfStake

/-! ## Rewards -/

section Rewards

/-- `(block.get("block_header") or {}).get("validator_id")`. -/
def block_validator_id (block : Block) : PyM PyVal := do
  let header ← block.get (lit "block_header") .none
  let header := if header.truthy then header else .dict []
  header.get (lit "validator_id") .none

theorem block_validator_id_of_header {block : Block} {id : Str}
    (h : HeaderIs block (lit "validator_id") (.str id)) :
    block_validator_id block = .ok (.str id) := by
  obtain ⟨header, hheader, hid⟩ := h
  obtain ⟨d, rfl, hfind⟩ := PyVal.item_eq_ok.mp hid
  have htruthy : (PyVal.dict d).truthy = true := by
    cases d with
    | nil => simp at hfind
    | cons p rest => rfl
  simp [block_validator_id, PyVal.get_of_item hheader, htruthy, hfind]

/-- `validator_id in stake_map`, which raises on a value that cannot be hashed. -/
def has_validator (stake_map : StakeMap) (validator_id : PyVal) : PyM Bool :=
  if validator_id.hashable then
    match validator_id with
    | .str id => .ok (stake_map.contains id)
    | _ => .ok false
  else .error .typeError

def apply_block_reward (settings : PosSettings) (validators : StakeMap) (block : Block) :
    PyM StakeMap := do
  let validator_id ← block_validator_id block
  if !validator_id.truthy then return validators
  let present ← has_validator validators validator_id
  match validator_id, present with
  | .str id, true => return validators.modify id (· + settings.block_reward)
  | _, _ => return validators

def compute_validators_from_chain (chain : List Block) (genesis_stakes : StakeMap)
    (settings : PosSettings) : PyM StakeMap :=
  chain.foldlM (apply_block_reward settings) genesis_stakes

/-- The validator a block rewards, if it names one. -/
def proposedBy (block : Block) : Option Str :=
  match block_validator_id block with
  | .ok (.str id) => if id.isEmpty then none else some id
  | _ => none

/-- The stakes after one more block. -/
def credit (settings : PosSettings) (validators : StakeMap) (block : Block) : StakeMap :=
  match proposedBy block with
  | some id => validators.modify id (· + settings.block_reward)
  | none => validators

/-- The stakes after a chain of blocks. -/
def replay (settings : PosSettings) (genesis_stakes : StakeMap) (chain : List Block) : StakeMap :=
  chain.foldl (credit settings) genesis_stakes

variable {settings : PosSettings}

theorem replay_snoc {genesis_stakes : StakeMap} {chain : List Block} {block : Block} :
    replay settings genesis_stakes (chain ++ [block])
      = credit settings (replay settings genesis_stakes chain) block := by
  simp [replay]

/-- The stake of `v` is its genesis stake and one reward for each of its blocks. -/
theorem find_replay (genesis_stakes : StakeMap) (chain : List Block) (v : Str) :
    (replay settings genesis_stakes chain).find v
      = (genesis_stakes.find v).map
          (· + settings.block_reward * chain.countP (fun b => proposedBy b = some v)) := by
  induction chain using List.reverseRecOn with
  | nil => simp [replay]
  | append_singleton chain block ih =>
      rw [replay_snoc, List.countP_append, List.countP_singleton]
      rcases hid : proposedBy block with _ | id
      · simp [credit, hid, ih]
      · simp only [credit, hid, StrDict.find_modify, ih]
        by_cases hv : v = id
        · subst hv
          simp only [if_true, Option.map_map, decide_true]
          congr 1
          funext stake
          simp only [Function.comp_apply]
          push_cast
          ring
        · simp [hv, Ne.symm hv]

@[simp] theorem contains_replay (genesis_stakes : StakeMap) (chain : List Block) (v : Str) :
    (replay settings genesis_stakes chain).contains v = genesis_stakes.contains v := by
  simp [StrDict.contains, find_replay]

/-- The reward of a block that names a validator in the map. -/
theorem apply_block_reward_of_id (settings : PosSettings) (validators : StakeMap) {block : Block}
    {id : Str}
    (hid : block_validator_id block = .ok (.str id)) :
    apply_block_reward settings validators block = .ok (credit settings validators block) := by
  rw [apply_block_reward, hid]
  simp only [ok_bind, PyVal.truthy, Bool.not_not, pure_eq, has_validator, PyVal.hashable, if_true]
  by_cases hempty : id.isEmpty = true
  · simp [hempty, credit, proposedBy, hid]
  · rw [if_neg hempty]
    rcases hc : validators.contains id with _ | _
    · -- a validator outside the map gets nothing, and `modify` changes nothing
      simp only [credit, proposedBy, hid, if_neg hempty, Except.ok.injEq]
      rw [StrDict.modify_of_not_contains hc]
    · simp [credit, proposedBy, hid, hempty]

/-- The recomputation arrives at the replayed stakes. -/
theorem compute_validators_eq_replay (settings : PosSettings) (genesis_stakes : StakeMap)
    {chain : List Block}
    (h : ∀ block ∈ chain, ∃ id, block_validator_id block = .ok (.str id)) :
    compute_validators_from_chain chain genesis_stakes settings
      = .ok (replay settings genesis_stakes chain) := by
  induction chain generalizing genesis_stakes with
  | nil => rfl
  | cons block chain ih =>
      obtain ⟨id, hid⟩ := h block List.mem_cons_self
      rw [compute_validators_from_chain, List.foldlM_cons,
        apply_block_reward_of_id settings genesis_stakes hid, ok_bind]
      exact ih _ fun b hb => h b (List.mem_cons_of_mem block hb)

/-- Rewards look at the validators that the blocks name. -/
theorem compute_validators_congr {xs ys : List Block}
    (h : List.Forall₂ (fun x y => block_validator_id x = block_validator_id y) xs ys)
    (genesis_stakes : StakeMap) :
    compute_validators_from_chain xs genesis_stakes settings
      = compute_validators_from_chain ys genesis_stakes settings := by
  induction h generalizing genesis_stakes with
  | nil => rfl
  | @cons x y xs ys hxy _ ih =>
      have hreward : apply_block_reward settings genesis_stakes x
          = apply_block_reward settings genesis_stakes y := by
        rw [apply_block_reward, hxy, apply_block_reward]
      rw [compute_validators_from_chain, compute_validators_from_chain, List.foldlM_cons,
        List.foldlM_cons, hreward]
      rcases apply_block_reward settings genesis_stakes y with e | validators
      · rfl
      · exact ih validators

end Rewards

/-! ## Proposer election -/

section Election

/-- The loop of `select_proposer`. -/
def pick_proposer (pick : ℤ) : ℤ → List (Str × ℤ) → Option Str
  | _, [] => none
  | cumulative, (validator_id, stake) :: rest =>
    if pick < cumulative + stake then some validator_id
    else pick_proposer pick (cumulative + stake) rest

theorem mem_of_pick_proposer {pick cumulative : ℤ} {entries : List (Str × ℤ)} {id : Str}
    (h : pick_proposer pick cumulative entries = some id) : id ∈ entries.map Prod.fst := by
  induction entries generalizing cumulative with
  | nil => cases h
  | cons entry rest ih =>
      rw [pick_proposer] at h
      split at h
      · obtain rfl := Option.some.inj h
        exact List.mem_cons_self
      · exact List.mem_cons_of_mem _ (ih h)

variable [Runtime]

def select_proposer (slot : ℤ) (stake_map : StakeMap) : PyM Str :=
  if stake_map.isEmpty then .error .valueError
  else do
    let slot ← orRaise .valueError (strOfInt slot)
    let bytes ← encode (lit "slot-" ++ slot)
    let seed := Runtime.sha256 bytes
    if stake_map.total = 0 then .error .zeroDivisionError
    else
      match pick_proposer (Int.fmod seed.toNat stake_map.total) 0 stake_map.sorted with
      | some validator_id => return validator_id
      | none => orRaise .indexError (stake_map.sorted.getLast?.map Prod.fst)

/-- A proposer is selected from every map of validators whose stakes do not add
up to zero; the height must have a text. -/
theorem select_proposer_isOk {slot : ℤ} {stake_map : StakeMap} :
    (∃ id, select_proposer slot stake_map = .ok id) ↔
      stake_map.isEmpty = false ∧ (strOfInt slot).isSome ∧ stake_map.total ≠ 0 := by
  unfold select_proposer
  by_cases hempty : stake_map.isEmpty = true
  · simp [hempty]
  rw [if_neg hempty]
  simp only [Bool.not_eq_true] at hempty
  rcases hdigits : strOfInt slot with _ | digits
  · simp [orRaise]
  have hslot : (lit "slot-").all (fun c => c.val < 0x80) = true := by decide
  have hascii : ∀ c ∈ lit "slot-" ++ digits, c.val < 0x80 := by
    intro c hc
    rcases List.mem_append.mp hc with hc | hc
    · exact of_decide_eq_true (List.all_eq_true.mp hslot c hc)
    · rw [strOfInt_eq_some hdigits] at hc
      exact ascii_intDigits hc
  obtain ⟨bytes, hbytes⟩ := Option.isSome_iff_exists.mp (utf8_isSome_of_ascii hascii)
  simp only [orRaise, ok_bind, encode, hbytes]
  by_cases htotal : stake_map.total = 0
  · simp [htotal]
  rw [if_neg htotal]
  simp only [hempty, Option.isSome_some, htotal, ne_eq, not_false_eq_true, and_self, iff_true]
  rcases pick_proposer (Int.fmod (Runtime.sha256 bytes).toNat stake_map.total) 0 stake_map.sorted
    with _ | validator_id
  · -- no stake reaches the pick: the last validator in order is selected
    have hsorted : stake_map.sorted ≠ [] := by
      intro hnil
      have hperm := List.perm_insertionSort (fun p q : Str × ℤ => p.1 ≤ q.1) stake_map.entries
      rw [← StrDict.sorted, hnil] at hperm
      rw [StrDict.isEmpty, hperm.nil_eq.symm] at hempty
      cases hempty
    obtain ⟨entry, hlast⟩ := Option.ne_none_iff_exists'.mp
      (mt List.getLast?_eq_none_iff.mp hsorted)
    refine ⟨entry.1, ?_⟩
    simp only [hlast, Option.map_some]
  · exact ⟨validator_id, rfl⟩

/-- The selected proposer is one of the validators. -/
theorem contains_of_select_proposer {slot : ℤ} {stake_map : StakeMap} {id : Str}
    (h : select_proposer slot stake_map = .ok id) : stake_map.contains id = true := by
  have hmem : ∀ id, id ∈ stake_map.sorted.map Prod.fst → stake_map.contains id = true := by
    intro id hid
    apply StrDict.mem_map_fst.mp
    exact ((List.perm_insertionSort _ stake_map.entries).map Prod.fst).mem_iff.mp hid
  unfold select_proposer at h
  split at h
  · cases h
  simp only [bind_eq_ok, orRaise_eq_ok] at h
  obtain ⟨_, -, _, -, h⟩ := h
  split at h
  · cases h
  split at h
  · rename_i hpick
    obtain rfl := Except.ok.inj h
    exact hmem _ (mem_of_pick_proposer hpick)
  · obtain ⟨entry, hlast, rfl⟩ := Option.map_eq_some_iff.mp (orRaise_eq_ok.mp h)
    exact hmem _ (List.mem_map_of_mem (List.mem_of_getLast? hlast))

end Election

/-! ## The validator -/

section Validator

variable [Runtime] [Rsa]

/-- `str(v)`, called only where `v` has been compared equal to a string. -/
def strOf (v : PyVal) : PyM Str :=
  match v with
  | .str s => .ok s
  | _ => .error .typeError

/-- The slot of a header that passes the test for missing fields. -/
def slot_of (validator_id slot : PyVal) : Option ℤ :=
  match slot with
  | .int slot => if !validator_id.truthy || slot < 0 then none else some slot
  | _ => none

/-- `isinstance(tran_body, dict)`, `isinstance(prev_hash, str)` and a `tran_hash`. -/
def has_hash_fields (tran_body prev_hash tran_hash : PyVal) : Bool :=
  match tran_body, prev_hash, tran_hash with
  | .dict _, .str _, .none => false
  | .dict _, .str _, _ => true
  | _, _, _ => false

def validate_block (self : ProofOfStake) (block : Block) (chain : List Block)
    (validators_at_state : Option StakeMap) (expected_height : Option ℕ) :
    PyM ValidationResult := do
  let validators := validators_at_state.getD self.validators
  let header ← block.get (lit "block_header") (.dict [])
  let consensus_type ← header.get (lit "consensus_type") .none
  if !consensus_type.eq (.str (lit "pos")) then return .fail (lit "consensus_type is not pos")
  let validator_id ← header.get (lit "validator_id") .none
  let slot ← header.get (lit "slot") .none
  match slot_of validator_id slot with
  | none => return .fail (lit "missing PoS fields")
  | some slot =>
  if validators.isEmpty then return .fail (lit "no validators registered")
  if slot ≠ expected_height.getD (chain.length + 1) then
    return .fail (lit "slot does not match block height")
  let known ← has_validator validators validator_id
  if !known then return .fail (lit "unknown validator")
  let tran_body ← block.get (lit "tran_body") .none
  let prev_hash ← header.get (lit "prev_hash") .none
  let tran_hash ← header.get (lit "tran_hash") .none
  if !has_hash_fields tran_body prev_hash tran_hash then
    return .fail (lit "missing PoS fields")
  let expected_proposer ← select_proposer slot validators
  if !validator_id.eq (.str expected_proposer) then
    return .fail (lit "invalid proposer for slot")
  let body_hash ← calc_body_hash tran_body
  let validator_id ← strOf validator_id
  let expected_hash ← calc_pos_tran_hash prev_hash body_hash validator_id slot
  if !tran_hash.eq (.str expected_hash) then return .fail (lit "tran_hash mismatch")
  let has_signature ← block.has (lit "signature")
  let has_public_key ← block.has (lit "public_key")
  if !has_signature || !has_public_key then return .fail (lit "missing validator signature")
  match self.validator_public_keys.find validator_id with
  | none => return .fail (lit "validator public key not registered")
  | some registered_key =>
  let public_key ← block.item (lit "public_key")
  if !public_key.eq (.str registered_key) then
    return .fail (lit "public key does not match validator_id")
  let verified ← verify_block_signature block
  if !verified then return .fail (lit "invalid validator signature")
  return .ok

/-- The values a proof-of-stake block is judged by. -/
structure PosFields where
  prev_hash : Str
  tran_body : Dict
  validator_id : Str
  slot : ℤ
  tran_hash : Str
  public_key : Str
  signature : Str
  /-- the signed bytes: the block without its signature fields, as JSON -/
  content : List UInt8

/-- The block holds these values where the validator looks for them. -/
structure PosFields.Of (f : PosFields) (block : Block) : Prop where
  consensus_type : HeaderIs block (lit "consensus_type") (.str (lit "pos"))
  prev_hash : HeaderIs block (lit "prev_hash") (.str f.prev_hash)
  tran_body : block.item (lit "tran_body") = .ok (.dict f.tran_body)
  validator_id : HeaderIs block (lit "validator_id") (.str f.validator_id)
  slot : HeaderIs block (lit "slot") (.int f.slot)
  tran_hash : HeaderIs block (lit "tran_hash") (.str f.tran_hash)
  public_key : block.item (lit "public_key") = .ok (.str f.public_key)
  signature : block.item (lit "signature") = .ok (.str f.signature)
  content : ∃ d, block = .dict d ∧ signed_bytes (unsigned d) = .ok f.content

/-- The rules a proof-of-stake block follows at a height, given the stakes. -/
structure PosFields.Valid (keys : StrDict Str) (validators : StakeMap) (height : ℕ)
    (f : PosFields) : Prop where
  named : f.validator_id ≠ []
  slot : f.slot = height
  known : validators.contains f.validator_id = true
  proposer : select_proposer height validators = .ok f.validator_id
  hash : ∃ body_hash, calc_body_hash (.dict f.tran_body) = .ok body_hash ∧
    calc_pos_tran_hash (.str f.prev_hash) body_hash f.validator_id f.slot = .ok f.tran_hash
  registered : keys.find f.validator_id = some f.public_key
  signed : SignedBy f.public_key f.signature f.content

omit [Runtime] [Rsa] in
theorem slot_of_eq_some {validator_id slot : PyVal} {i : ℤ} :
    slot_of validator_id slot = some i ↔
      slot = .int i ∧ validator_id.truthy = true ∧ 0 ≤ i := by
  unfold slot_of
  split
  · rename_i j
    split
    · rename_i h
      simp only [Bool.or_eq_true, Bool.not_eq_true', decide_eq_true_eq] at h
      constructor
      · simp
      · rintro ⟨hj, ht, hi⟩
        obtain rfl := PyVal.int.inj hj
        rcases h with h | h
        · rw [ht] at h; cases h
        · omega
    · rename_i h
      simp only [Bool.or_eq_true, Bool.not_eq_true', decide_eq_true_eq, not_or] at h
      constructor
      · intro hj
        obtain rfl := Option.some.inj hj
        exact ⟨rfl, by simpa using h.1, by omega⟩
      · rintro ⟨hj, -, -⟩
        obtain rfl := PyVal.int.inj hj
        rfl
  · rename_i h
    constructor
    · simp
    · rintro ⟨hj, -, -⟩
      exact absurd hj (h i)

omit [Runtime] [Rsa] in
theorem has_hash_fields_eq_true {tran_body prev_hash tran_hash : PyVal} :
    has_hash_fields tran_body prev_hash tran_hash = true ↔
      (∃ d, tran_body = .dict d) ∧ (∃ s, prev_hash = .str s) ∧ tran_hash ≠ .none := by
  cases tran_body <;> cases prev_hash <;> cases tran_hash <;> simp [has_hash_fields]

omit [Runtime] [Rsa] in
theorem has_validator_str {m : StakeMap} {id : Str} {b : Bool} :
    has_validator m (.str id) = .ok b ↔ m.contains id = b := by
  simp [has_validator, PyVal.hashable]

variable {block : Block}

/-- `validate_block` accepts exactly the blocks that follow the rules. -/
theorem accepts_validate_block (self : ProofOfStake) (block : Block) (chain : List Block)
    (validators : Option StakeMap) (height : Option ℕ) :
    Accepts (self.validate_block block chain validators height) ↔
      ∃ f : PosFields, f.Of block ∧ f.Valid self.validator_public_keys
        (validators.getD self.validators) (height.getD (chain.length + 1)) := by
  constructor
  · intro h
    simp only [validate_block, accepts_bind, pure_eq, accepts_guard, Bool.not_eq_false'] at h
    obtain ⟨header, hheader, ctype, hctype, heq, vid, hvid, slot, hslot, h⟩ := h
    rw [PyVal.eq_str_iff] at heq
    subst heq
    have hctype := PyVal.item_of_get hctype (by simp)
    have hheader : block.item (lit "block_header") = .ok header := by
      refine PyVal.item_of_get hheader ?_
      rintro rfl
      simp [PyVal.item] at hctype
    rcases hs : slot_of vid slot with _ | i
    · simp [hs] at h
    obtain ⟨rfl, htruthy, hi⟩ := slot_of_eq_some.mp hs
    simp only [hs, accepts_guard] at h
    obtain ⟨hnonempty, h⟩ := h
    by_cases hheight : i = ((height.getD (chain.length + 1) : ℕ) : ℤ)
    swap
    · simp [hheight] at h
    simp only [hheight, ne_eq, not_true_eq_false, if_false, accepts_bind, accepts_guard,
      Bool.not_eq_false', has_hash_fields_eq_true, PyVal.eq_str_iff] at h
    obtain ⟨known, hknown, rfl, body, hbody, prev, hprev, tran, htran, ⟨⟨d, rfl⟩, ⟨p, rfl⟩, -⟩, id,
      hproposer, rfl, body_hash, hbody_hash, _, hid, expected, hexpected, rfl, hsig, hhassig, hkey,
      hhaskey, h⟩ := h
    obtain rfl := Except.ok.inj hid
    simp only [Bool.or_eq_false_iff, Bool.not_eq_false'] at h
    obtain ⟨⟨rfl, rfl⟩, h⟩ := h
    rcases hreg : self.validator_public_keys.find id with _ | pem
    · simp [hreg] at h
    simp only [hreg, accepts_bind, accepts_guard, Bool.not_eq_false', PyVal.eq_str_iff] at h
    obtain ⟨_, hpem, rfl, verified, hverified, rfl, -⟩ := h
    obtain ⟨e, rfl, hfind⟩ := PyVal.item_eq_ok.mp hpem
    obtain ⟨signature, pem', content, hsignature, hpem', hcontent, hsigned⟩ :=
      verify_block_signature_eq_true.mp hverified
    rw [hfind] at hpem'
    obtain rfl := PyVal.str.inj (Option.some.inj hpem')
    refine ⟨⟨p, d, id, i, expected, pem, signature, content⟩, ?_, ?_⟩
    · exact ⟨⟨header, hheader, hctype⟩, ⟨header, hheader, PyVal.item_of_get hprev (by simp)⟩,
        PyVal.item_of_get hbody (by simp), ⟨header, hheader, PyVal.item_of_get hvid (by simp)⟩,
        ⟨header, hheader, PyVal.item_of_get hslot (by simp)⟩,
        ⟨header, hheader, PyVal.item_of_get htran (by simp)⟩, hpem, by simp [hsignature],
        ⟨e, rfl, hcontent⟩⟩
    · refine ⟨?_, hheight, has_validator_str.mp hknown, hproposer, ⟨body_hash, hbody_hash, ?_⟩,
        hreg, hsigned⟩
      · rintro rfl
        simp [PyVal.truthy] at htruthy
      · rw [hheight]
        exact hexpected
  · rintro ⟨f, hof, hvalid⟩
    obtain ⟨⟨header, hheader, hctype⟩, ⟨h₁, hh₁, hprev⟩, hbody, ⟨h₂, hh₂, hvid⟩, ⟨h₃, hh₃, hslot⟩,
      ⟨h₄, hh₄, htran⟩, hpem, hsig, ⟨d, rfl, hcontent⟩⟩ := hof
    obtain ⟨hnamed, hheight, hknown, hproposer, ⟨body_hash, hbody_hash, hhash⟩, hreg, hsigned⟩ :=
      hvalid
    rw [hheader] at hh₁ hh₂ hh₃ hh₄
    obtain rfl := Except.ok.inj hh₁
    obtain rfl := Except.ok.inj hh₂
    obtain rfl := Except.ok.inj hh₃
    obtain rfl := Except.ok.inj hh₄
    have hslot_of : slot_of (.str f.validator_id) (.int f.slot) = some f.slot := by
      refine slot_of_eq_some.mpr ⟨rfl, ?_, by omega⟩
      simpa [PyVal.truthy] using hnamed
    have hnonempty := StrDict.isEmpty_of_contains hknown
    have hhas : has_hash_fields (.dict f.tran_body) (.str f.prev_hash) (.str f.tran_hash) = true :=
      has_hash_fields_eq_true.mpr ⟨⟨_, rfl⟩, ⟨_, rfl⟩, by simp⟩
    have hverified : verify_block_signature (.dict d) = .ok true :=
      verify_block_signature_eq_true.mpr ⟨f.signature, f.public_key, f.content,
        by simpa using hsig, by simpa using hpem, hcontent, hsigned⟩
    have hrefl : ∀ s : Str, PyVal.eq (.str s) (.str s) = true := fun s => PyVal.eq_str_iff.mpr rfl
    simp only [validate_block, PyVal.get_of_item hheader, PyVal.get_of_item hctype,
      PyVal.get_of_item hvid, PyVal.get_of_item hslot, ok_bind, hrefl, Bool.not_true,
      Bool.false_eq_true, if_false, hslot_of, hnonempty]
    rw [if_neg (by simpa using hheight)]
    rw [hheight] at hhash ⊢
    simp only [has_validator_str.mpr hknown, ok_bind, Bool.not_true, Bool.false_eq_true, if_false,
      PyVal.get_of_item hbody, PyVal.get_of_item hprev, PyVal.get_of_item htran, hhas, hproposer,
      hrefl, hbody_hash, strOf, hhash, PyVal.has_eq_true.mpr ⟨_, hsig⟩,
      PyVal.has_eq_true.mpr ⟨_, hpem⟩, Bool.or_self, hreg, hpem, hverified, pure_eq, accepts_ok,
      ValidationResult.ok_valid]

omit [Rsa] in
/-- No block holds two different records of values. -/
theorem PosFields.Of.unique {f f' : PosFields} (h : f.Of block) (h' : f'.Of block) : f = f' := by
  obtain ⟨prev, body, id, slot, tran, pem, sig, content⟩ := f
  obtain ⟨prev', body', id', slot', tran', pem', sig', content'⟩ := f'
  obtain ⟨-, hprev, hbody, hid, hslot, htran, hpem, hsig, d, hd, hcontent⟩ := h
  obtain ⟨-, hprev', hbody', hid', hslot', htran', hpem', hsig', d', hd', hcontent'⟩ := h'
  obtain rfl := PyVal.str.inj (hprev.unique hprev')
  obtain rfl := PyVal.dict.inj (Except.ok.inj (hbody.symm.trans hbody'))
  obtain rfl := PyVal.str.inj (hid.unique hid')
  obtain rfl := PyVal.int.inj (hslot.unique hslot')
  obtain rfl := PyVal.str.inj (htran.unique htran')
  obtain rfl := PyVal.str.inj (Except.ok.inj (hpem.symm.trans hpem'))
  obtain rfl := PyVal.str.inj (Except.ok.inj (hsig.symm.trans hsig'))
  obtain rfl := PyVal.dict.inj (hd.symm.trans hd')
  obtain rfl := Except.ok.inj (hcontent.symm.trans hcontent')
  rfl

omit [Rsa] in
/-- The named validator is the one the reward goes to. -/
theorem PosFields.Of.block_validator_id {f : PosFields} (h : f.Of block) :
    ProofOfStake.block_validator_id block = .ok (.str f.validator_id) :=
  block_validator_id_of_header h.validator_id

end Validator

/-! ## Fork choice -/

section ForkChoice

variable [Runtime] [Rsa]

/-- The body of the loop of `_is_chain_valid`; `chain` is the whole chain. -/
def chain_valid_step (self : ProofOfStake) (chain : List Block) (_ : Unit) (seen : List Block)
    (block : Block) : PyM (Pass Unit Bool) := do
  let link ← validate_chain_link self.genesis_prev_hash block seen.getLast?
    (some self.genesis_prev_hash)
  if !link.valid then return .ret false
  let result ← self.validate_block block chain none none
  if !result.valid then return .ret false
  return .next ()

/-- `_is_chain_valid`. -/
def is_chain_valid (self : ProofOfStake) (chain : List Block) : PyM Bool := do
  match ← enumerate (self.chain_valid_step chain) () [] chain with
  | .ret valid => return valid
  | .next _ => return true

/-- The body of the loop of `validate_chain_with_genesis_stakes`. -/
def genesis_stakes_step (self : ProofOfStake) (chain : List Block) (expected_genesis : Str)
    (validators : StakeMap) (seen : List Block) (block : Block) : PyM (Pass StakeMap Bool) := do
  let link ← validate_chain_link self.genesis_prev_hash block seen.getLast? (some expected_genesis)
  if !link.valid then return .ret false
  let result ← self.validate_block block chain (some validators) (some (seen.length + 1))
  if !result.valid then return .ret false
  let validators ← apply_block_reward self.settings validators block
  return .next validators

def validate_chain_with_genesis_stakes (self : ProofOfStake) (chain : List Block)
    (genesis_stakes : StakeMap) (genesis_prev_hash : Option Str) : PyM Bool := do
  let expected_genesis := orDefault genesis_prev_hash self.genesis_prev_hash
  match ← enumerate (self.genesis_stakes_step chain expected_genesis) genesis_stakes [] chain with
  | .ret valid => return valid
  | .next _ => return true

/-- One summand of `_stake_weight`. -/
def block_weight (stake_map : StakeMap) (block : Block) : PyM ℤ := do
  let validator_id ← block_validator_id block
  if !validator_id.truthy then return 0
  let present ← has_validator stake_map validator_id
  match validator_id, present with
  | .str id, true => return (stake_map.find id).getD 0
  | _, _ => return 0

/-- `_stake_weight`. -/
def stake_weight (self : ProofOfStake) (chain : List Block) (validators : Option StakeMap) :
    PyM ℤ := do
  let weights ← mapPy (block_weight (validators.getD self.validators)) chain
  return weights.sum

/-- The hash at the tip of a chain, empty for the empty chain. Scores are taken
of validated chains only, whose hashes are strings. -/
def tip_hash (chain : List Block) : PyM Str :=
  match chain.getLast? with
  | none => .ok []
  | some tip => do
    let header ← tip.get (lit "block_header") .none
    let header := if header.truthy then header else .dict []
    let tran_hash ← header.get (lit "tran_hash") (.str [])
    strOf tran_hash

/-- `score` inside `select_canonical_chain`. -/
def canonical_score (self : ProofOfStake) (genesis_stakes : Option StakeMap)
    (chain : List Block) : PyM (ℕ ×ₗ ℤ ×ₗ Str) := do
  let tip_hash ← tip_hash chain
  match genesis_stakes with
  | some genesis_stakes =>
    let end_validators ← compute_validators_from_chain chain genesis_stakes self.settings
    let weight ← self.stake_weight chain (some end_validators)
    return toLex (chain.length, toLex (weight, tip_hash))
  | none =>
    let weight ← self.stake_weight chain none
    return toLex (chain.length, toLex (weight, tip_hash))

/-- The chains `select_canonical_chain` chooses from. -/
def candidate_valid (self : ProofOfStake) (genesis_stakes : Option StakeMap)
    (chain : List Block) : PyM Bool :=
  match genesis_stakes with
  | some genesis_stakes => self.validate_chain_with_genesis_stakes chain genesis_stakes none
  | none => self.is_chain_valid chain

def select_canonical_chain (self : ProofOfStake) (chains : List (List Block))
    (genesis_stakes : Option StakeMap) : PyM (List Block) := do
  let valid_chains ← filterPy (self.candidate_valid genesis_stakes) chains
  match ← maxBy (self.canonical_score genesis_stakes) valid_chains with
  | none => return []
  | some chain => return chain

def score_chain (self : ProofOfStake) (chain : List Block) : PyM (ℕ ×ₗ ℤ) := do
  let weight ← self.stake_weight chain none
  return toLex (chain.length, weight)

end ForkChoice

/-! ## State changes -/

section State

variable [Runtime] [Rsa]

def register_validator (self : ProofOfStake) (validator_id : Str) (stake : ℤ)
    (public_key_pem : Option Str) : PyM ProofOfStake :=
  if stake < self.settings.min_stake then .error .valueError
  else
    let self := { self with validators := self.validators.set validator_id stake }
    match public_key_pem with
    | some pem =>
      if pem.isEmpty then register_own self validator_id
      else .ok { self with validator_public_keys := self.validator_public_keys.set validator_id pem }
    | none => register_own self validator_id
where
  /-- The branch that registers the node's own key. -/
  register_own (self : ProofOfStake) (validator_id : Str) : PyM ProofOfStake :=
    match self.signature_manager.public_key with
    | some key =>
      if self.node_validator_id = some validator_id then
        .ok { self with
          validator_public_keys :=
            self.validator_public_keys.set validator_id (Rsa.public_bytes key) }
      else .ok self
    | none => .ok self

def sync_validators_from_chain (self : ProofOfStake) (chain : List Block)
    (genesis_stakes : StakeMap) : PyM ProofOfStake := do
  let validators ← compute_validators_from_chain chain genesis_stakes self.settings
  return { self with genesis_stakes := some genesis_stakes, validators := validators }

def on_block_added (self : ProofOfStake) (block : Block) : PyM ProofOfStake := do
  let validators ← apply_block_reward self.settings self.validators block
  return { self with validators := validators }

/-- The stakes `prepare_block` elects the proposer of the next block with. -/
def proposal_stakes (self : ProofOfStake) (chain : List Block) : PyM StakeMap :=
  match self.genesis_stakes with
  | some genesis_stakes => compute_validators_from_chain chain genesis_stakes self.settings
  | none => .ok self.validators

def prepare_block (self : ProofOfStake) (salt : List UInt8) (block : Dict) (chain : List Block) :
    PyM Block := do
  let slot := chain.length + 1
  let validators ← proposal_stakes self chain
  let proposer ← select_proposer slot validators
  if self.node_validator_id ≠ some proposer then .error .valueError
  else if self.signature_manager.private_key.isNone then .error .valueError
  else
    let header ← (PyVal.dict block).item (lit "block_header")
    let tran_body ← (PyVal.dict block).item (lit "tran_body")
    let body_hash ← calc_body_hash tran_body
    let header ← header.setItem (lit "validator_id") (.str proposer)
    let header ← header.setItem (lit "slot") (.int slot)
    let prev_hash ← header.item (lit "prev_hash")
    let tran_hash ← calc_pos_tran_hash prev_hash body_hash proposer slot
    let header ← header.setItem (lit "tran_hash") (.str tran_hash)
    let header ← header.setItem (lit "consensus_type") (.str (lit "pos"))
    let block := Dict.set block (lit "block_header") header
    let signed ← sign_block self.signature_manager salt block
    return .dict (Dict.update block signed)

end State

end ProofOfStake

end EasyBlockchain
