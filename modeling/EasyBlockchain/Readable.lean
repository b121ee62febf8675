/-
What the checks of a block read, and where they end with a verdict.

Each check reads its fields one after the other and raises where one is missing
or of a type it cannot use. What is read depends on the checks passed before,
so every condition below has the form "where the checks so far accept, the next
field is there": the link, and the content under proof of work and under proof
of stake.
-/
import EasyBlockchain.OwnChain
import EasyBlockchain.Py.Returns

set_option autoImplicit false

namespace EasyBlockchain

open Py Lib

section Readable

variable [Runtime] [Rsa] {block previous : Block} {seen chain : List Block} {g own t : Str}

/-! ## Links -/

omit [Runtime] [Rsa] in
/-- The header is an object with a `prev_hash`. -/
def HasPrev (block : Block) : Prop := ∃ p, HeaderIs block (lit "prev_hash") p

omit [Runtime] [Rsa] in
def HasIndex (block : Block) : Prop := ∃ index, block.item (lit "block_index") = .ok index

omit [Rsa] in
/-- What a link to the chain reads of its tip. -/
def Linkable (seen : List Block) : Prop :=
  ∀ last, seen.getLast? = some last → (∃ t, TranHashIs last t ∧ Scalars t) ∧
    ∃ index next, last.item (lit "block_index") = .ok index ∧ index.addOne = .ok next

omit [Runtime] [Rsa] in
theorem hashLinked_nil : HashLinked g [] block ↔ PrevHashIs block g := by
  simp [HashLinked, LinksTo]

omit [Runtime] [Rsa] in
theorem hashLinked_of_last {last : Block} (hlast : seen.getLast? = some last)
    (ht : TranHashIs last t) : HashLinked g seen block ↔ PrevHashIs block t := by
  simp only [HashLinked, LinksTo, TipIs, hlast]
  constructor
  · rintro ⟨p, hp, htip⟩
    obtain rfl := PyVal.str.inj (ht.unique htip)
    exact hp
  · intro h
    exact ⟨t, h, ht⟩

omit [Runtime] [Rsa] in
theorem returns_header_prev_hash : Returns (header_prev_hash block) ↔ HasPrev block := by
  simp only [Returns, header_prev_hash_eq_ok, HasPrev]

omit [Rsa] in
/-- The link of a first block reads the index before the hash. -/
theorem returns_first_link {g : Option Str} :
    Returns (validate_chain_link own block none g) ↔
      HasIndex block ∧ (IndexIs block 1 → HasPrev block) := by
  simp only [validate_chain_link, returns_bind, returns_ite, pure_eq, returns_ok, implies_true,
    and_true, true_and, returns_item]
  constructor
  · rintro ⟨hindex, h⟩
    refine ⟨hindex, ?_⟩
    rintro ⟨index, hitem, hone⟩
    obtain ⟨⟨header, hheader⟩, h⟩ := h index hitem (by simpa using hone)
    obtain ⟨prev, hprev⟩ := (h header hheader)
    exact ⟨prev, header, hheader, hprev⟩
  · rintro ⟨hindex, h⟩
    refine ⟨hindex, fun index hitem hone => ?_⟩
    obtain ⟨prev, header, hheader, hprev⟩ := h ⟨index, hitem, by simpa using hone⟩
    refine ⟨⟨header, hheader⟩, fun header' hheader' => ?_⟩
    rw [hheader, Except.ok.injEq] at hheader'
    rw [← hheader']
    exact ⟨prev, hprev⟩

omit [Rsa] in
/-- The link of a later block reads the hash before the index. -/
theorem returns_next_link {g : Option Str} (ht : TranHashIs previous t)
    (hindex : ∃ index next, previous.item (lit "block_index") = .ok index ∧
      index.addOne = .ok next) :
    Returns (validate_chain_link own block (some previous) g) ↔
      HasPrev block ∧ (PrevHashIs block t → HasIndex block) := by
  obtain ⟨last_header, hlast_header, htran⟩ := ht
  obtain ⟨last, next, hlast, hnext⟩ := hindex
  simp only [validate_chain_link, hlast_header, htran, hlast, hnext, ok_bind, returns_bind,
    returns_ite, pure_eq, returns_ok, implies_true, and_true, true_and, returns_item]
  constructor
  · rintro ⟨⟨header, hheader⟩, h⟩
    obtain ⟨⟨prev, hprev⟩, h⟩ := h header hheader
    refine ⟨⟨prev, header, hheader, hprev⟩, fun hlinked => ?_⟩
    obtain rfl := hlinked.unique ⟨header, hheader, hprev⟩
    exact h _ hprev (by simp [PyVal.eq_str_iff])
  · rintro ⟨⟨prev, header, hheader, hprev⟩, h⟩
    refine ⟨⟨header, hheader⟩, fun header' hheader' => ?_⟩
    rw [hheader, Except.ok.injEq] at hheader'
    subst hheader'
    refine ⟨⟨prev, hprev⟩, fun prev' hprev' heq => ?_⟩
    rw [hprev, Except.ok.injEq] at hprev'
    subst hprev'
    obtain rfl := PyVal.eq_str_iff.mp (by simpa using heq)
    exact h ⟨header, hheader, hprev⟩

/-- What the link checks of a verification read. -/
def VerifyLink (g : Str) (seen : List Block) (block : Block) : Prop :=
  HasPrev block ∧ (HashLinked g seen block → HasIndex block)

omit [Runtime] [Rsa] in
/-- A first hash that is compared before the rest of the check. -/
theorem returns_genesis_first {rest : PyM ValidationResult} {reason : Str} :
    Returns (do
      let prev_hash ← header_prev_hash block
      if !prev_hash.eq (.str g) then return .fail reason
      rest) ↔ HasPrev block ∧ (HashLinked g [] block → Returns rest) := by
  rw [hashLinked_nil, returns_bind, returns_header_prev_hash]
  refine and_congr_right fun _ => ?_
  simp only [header_prev_hash_eq_ok, returns_ite, pure_eq, returns_ok, implies_true, true_and]
  constructor
  · intro h hlinked
    exact h _ hlinked (by simp [PyVal.eq_str_iff])
  · intro h prev hprev heq
    obtain rfl := PyVal.eq_str_iff.mp (by simpa using heq)
    exact h hprev

/-- Without consensus a later block is read in the same order. -/
theorem returns_legacy_link (ht : TranHashIs previous t)
    (hindex : ∃ index next, previous.item (lit "block_index") = .ok index ∧
      index.addOne = .ok next) :
    Returns (link_check none g (some previous) block) ↔
      HasPrev block ∧ (PrevHashIs block t → HasIndex block) := by
  obtain ⟨last_header, hlast_header, htran⟩ := ht
  obtain ⟨last, next, hlast, hnext⟩ := hindex
  simp only [link_check, hlast_header, htran, hlast, hnext, ok_bind]
  rw [returns_bind, returns_header_prev_hash]
  refine and_congr_right fun _ => ?_
  simp only [header_prev_hash_eq_ok, returns_ite, returns_bind, pure_eq, returns_ok, implies_true,
    and_true, true_and, returns_item]
  constructor
  · intro h hlinked
    exact h _ hlinked (by simp [PyVal.eq_str_iff])
  · intro h prev hprev heq
    obtain rfl := PyVal.eq_str_iff.mp (by simpa using heq)
    exact h hprev

theorem returns_link_check {consensus : Option Consensus} (hseen : Linkable seen) :
    Returns (link_check consensus g seen.getLast? block) ↔ VerifyLink g seen block := by
  rcases hlast : seen.getLast? with _ | last
  · obtain rfl := List.getLast?_eq_none_iff.mp hlast
    refine returns_genesis_first.trans ?_
    refine and_congr_right fun hprev => imp_congr_right fun _ => ?_
    simp only [returns_bind, returns_item, returns_ite, pure_eq, returns_ok, implies_true, true_and]
    constructor
    · exact fun h => h.1
    · intro hindex
      refine ⟨hindex, fun index hitem hone => ?_⟩
      rcases consensus with _ | consensus
      · exact returns_ok
      · exact returns_first_link.mpr ⟨hindex, fun _ => hprev⟩
  · obtain ⟨⟨t, ht, -⟩, hindex⟩ := hseen last hlast
    rw [VerifyLink, hashLinked_of_last hlast ht]
    rcases consensus with _ | consensus
    · exact returns_legacy_link ht hindex
    · exact @returns_next_link _ _ _ consensus.genesis_prev_hash _ (some g) ht hindex

theorem returns_pos_link_check {pos : ProofOfStake} (hseen : Linkable seen) :
    Returns (pos_link_check pos g seen.getLast? block) ↔ VerifyLink g seen block := by
  rcases hlast : seen.getLast? with _ | last
  · obtain rfl := List.getLast?_eq_none_iff.mp hlast
    refine returns_genesis_first.trans ?_
    refine and_congr_right fun hprev => imp_congr_right fun _ => ?_
    rw [returns_first_link]
    exact and_iff_left fun _ => hprev
  · obtain ⟨⟨t, ht, -⟩, hindex⟩ := hseen last hlast
    rw [VerifyLink, hashLinked_of_last hlast ht]
    exact @returns_next_link _ _ _ pos.genesis_prev_hash _ (some g) ht hindex

/-! ## The content of a proof-of-work block -/

omit [Runtime] [Rsa] in
/-- A comparison of an entry with a string, null where it is missing. -/
theorem getD_ne_str {o : Option PyVal} {s : Str} :
    (!(o.getD .none).eq (.str s)) = true ↔ ¬ o = some (.str s) := by
  rw [Bool.not_eq_true', ← Bool.not_eq_true, PyVal.eq_str_iff]
  cases o <;> simp

omit [Rsa] in
/-- A hash is computed of a body that `json.dumps` writes. -/
def Hashes (tran_body : PyVal) : Prop := ∃ body_hash, calc_body_hash tran_body = .ok body_hash

omit [Rsa] in
/-- What is left to read of a proof-of-work block whose difficulty and time are
right: a body, a nonce and a `prev_hash` to be hashed. -/
def PowHashes (block : Block) (tran_body : PyVal) (nonce : ℤ) : Prop :=
  Hashes tran_body ∧ (strOfInt nonce).isSome ∧ ∀ h, PrevHashIs block h → Scalars h

omit [Rsa] in
/-- A proof-of-work block that has all its fields, with numbers as nonce and as
difficulty, needs a difficulty of the chain to compare with; where that and the
time are right, the block has to be hashed. -/
def PowReadable (settings : PowSettings) (seen : List Block) (block : Block) : Prop :=
  ∀ nonce difficulty tran_hash tran_body n d,
    HeaderIs block (lit "consensus_type") (.str (lit "pow")) →
    HeaderIs block (lit "nonce") nonce → nonce.toInt = .ok n →
    HeaderIs block (lit "difficulty") difficulty → difficulty.toInt = .ok d →
    block.item (lit "tran_body") = .ok tran_body → HeaderIs block (lit "tran_hash") tran_hash →
    ∃ expected, ProofOfWork.get_difficulty settings seen = .ok expected ∧
      (d = expected → ∀ time, ProofOfWork.HasTime block time →
        ProofOfWork.TimeFollows time seen.getLast? → PowHashes block tran_body n)

omit [Runtime] [Rsa] in
theorem try_int_of_error {v : PyVal} {e : PyErr} (h : v.toInt = .error e) :
    ProofOfWork.try_int v = .ok none := by
  unfold ProofOfWork.try_int
  rw [h]
  exact if_pos (toInt_error h)

omit [Runtime] [Rsa] in
theorem returns_missing_fields {fields : List (Str × PyVal)} (h : ∀ p ∈ fields, ∃ d, p.2 = .dict d) :
    Returns (ProofOfWork.missing_fields fields) := by
  induction fields with
  | nil => exact returns_ok
  | cons p rest ih =>
      obtain ⟨d, hd⟩ := h p List.mem_cons_self
      obtain ⟨missing, hmissing⟩ := ih fun q hq => h q (List.mem_cons_of_mem p hq)
      rw [ProofOfWork.missing_fields, hd, PyVal.has_dict, ok_bind, hmissing]
      exact returns_ok

omit [Runtime] [Rsa] in
/-- The times of two objects are compared without an exception. -/
theorem returns_check_block_item {parent : Option Block} (hblock : ∃ d, block = .dict d)
    (hparent : ∀ p, parent = some p → ∃ d, p = .dict d) :
    Returns (ProofOfWork.check_block_item block parent) := by
  obtain ⟨d, rfl⟩ := hblock
  rw [ProofOfWork.check_block_item, PyVal.get_dict, ok_bind]
  split
  · split
    · exact returns_ok
    · split
      · exact returns_ok
      · rename_i p
        obtain ⟨e, rfl⟩ := hparent p rfl
        rw [PyVal.get_dict, ok_bind]
        dsimp only
        split
        · exact returns_ok
        · rw [returns_ite]
          exact ⟨fun _ => returns_ok, fun _ => returns_ok⟩
  · exact returns_ok

omit [Rsa] in
theorem scalars_of_calc_body_hash {tran_body : PyVal} {body_hash : Str}
    (h : calc_body_hash tran_body = .ok body_hash) : Scalars body_hash := by
  simp only [calc_body_hash, bind_eq_ok] at h
  obtain ⟨_, -, _, -, h⟩ := h
  exact (scalars_of_sha256_hex h).2

omit [Rsa] in
theorem returns_calc_pow_tran_hash {h body_hash : Str} {nonce : ℤ} (hbody : Scalars body_hash) :
    Returns (calc_pow_tran_hash (.str h) body_hash nonce) ↔ (strOfInt nonce).isSome ∧ Scalars h := by
  simp only [calc_pow_tran_hash, concat, ok_bind, returns_bind, returns_orRaise, orRaise_eq_ok,
    returns_sha256_hex, scalars_append, hbody, and_true]
  constructor
  · rintro ⟨hsome, h⟩
    obtain ⟨text, htext⟩ := Option.isSome_iff_exists.mp hsome
    exact ⟨hsome, (h text htext).1⟩
  · rintro ⟨hsome, h⟩
    exact ⟨hsome, fun text htext => ⟨h, scalars_strOfInt htext⟩⟩

omit [Rsa] in
/-- The verdict on a proof-of-work block that names a string. -/
theorem returns_pow {settings : PowSettings} {h : Str} (hprev : PrevHashIs block h)
    (hseen : ∀ p, seen.getLast? = some p → ∃ d, p = .dict d) :
    Returns (ProofOfWork.validate_block settings block seen) ↔ PowReadable settings seen block := by
  obtain ⟨header, hheader, hitem⟩ := id hprev
  obtain ⟨d, rfl, hfind⟩ := PyVal.item_eq_ok.mp hheader
  obtain ⟨hd, rfl, -⟩ := PyVal.item_eq_ok.mp hitem
  rw [ProofOfWork.validate_block]
  simp only [PyVal.get_dict, hfind, Option.getD_some, ok_bind]
  by_cases hctype : Dict.find hd (lit "consensus_type") = some (.str (lit "pow"))
  swap
  · refine iff_of_true ?_ ?_
    · rw [if_pos (getD_ne_str.mpr hctype)]
      exact returns_ok
    · intro _ _ _ _ _ _ hpow
      exact absurd ((headerIs_dict hfind).mp hpow) hctype
  simp only [hctype, Option.getD_some]
  rw [if_neg (by simp [PyVal.eq_str_iff])]
  obtain ⟨missing, hmissing⟩ := @returns_missing_fields [(lit "nonce", .dict hd),
    (lit "difficulty", .dict hd), (lit "tran_body", .dict d), (lit "prev_hash", .dict hd),
    (lit "tran_hash", .dict hd)] (by simp)
  rw [hmissing, ok_bind]
  by_cases hnil : missing = []
  swap
  · refine iff_of_true ?_ ?_
    · rw [if_pos (by simpa using hnil)]
      exact returns_ok
    · intro nonce difficulty tran_hash tran_body n i _ hnonce _ hdiff _ hbody htran
      rw [headerIs_dict hfind] at hnonce hdiff htran
      refine absurd (Except.ok.inj (hmissing.symm.trans ?_)) hnil
      rw [PyVal.item_dict, orRaise_eq_ok] at hbody
      rw [ProofOfWork.missing_fields_eq_nil]
      simp [hnonce, hdiff, htran, hbody, (headerIs_dict hfind).mp hprev]
  subst hnil
  have hpresent := ProofOfWork.missing_fields_eq_nil.mp hmissing
  simp only [List.forall_mem_cons, PyVal.has_dict, Except.ok.injEq, Option.isSome_iff_exists,
    List.not_mem_nil, false_implies, implies_true, and_true] at hpresent
  obtain ⟨⟨nonce, hnonce⟩, ⟨difficulty, hdiff⟩, ⟨tran_body, hbody⟩, -, tran_hash, htran⟩ := hpresent
  rw [if_neg (by simp)]
  -- all fields are there, so the condition is about their values
  have hread : PowReadable settings seen (.dict d) ↔ ∀ n i, nonce.toInt = .ok n →
      difficulty.toInt = .ok i →
      ∃ expected, ProofOfWork.get_difficulty settings seen = .ok expected ∧
        (i = expected → ∀ time, ProofOfWork.HasTime (.dict d) time →
          ProofOfWork.TimeFollows time seen.getLast? → PowHashes (.dict d) tran_body n) := by
    constructor
    · intro h n i hn hi
      exact h nonce difficulty tran_hash tran_body n i ((headerIs_dict hfind).mpr hctype)
        ((headerIs_dict hfind).mpr hnonce) hn ((headerIs_dict hfind).mpr hdiff) hi
        (by rw [PyVal.item_dict, hbody, orRaise_some]) ((headerIs_dict hfind).mpr htran)
    · intro h nonce' difficulty' tran_hash' tran_body' n i _ hnonce' hn hdiff' hi hbody' _
      rw [headerIs_dict hfind] at hnonce' hdiff'
      rw [PyVal.item_dict, orRaise_eq_ok] at hbody'
      obtain rfl := Option.some.inj (hnonce.symm.trans hnonce')
      obtain rfl := Option.some.inj (hdiff.symm.trans hdiff')
      obtain rfl := Option.some.inj (hbody.symm.trans hbody')
      exact h n i hn hi
  rw [hread]
  simp only [PyVal.item_dict, hdiff, orRaise_some, ok_bind]
  rcases hi : difficulty.toInt with e | i
  · rw [try_int_of_error hi, ok_bind]
    exact iff_of_true returns_ok (by simp)
  rw [ProofOfWork.try_int_eq_some.mpr hi, ok_bind]
  simp only [hnonce, orRaise_some, ok_bind]
  rcases hn : nonce.toInt with e | n
  · rw [try_int_of_error hn, ok_bind]
    exact iff_of_true returns_ok (by simp)
  rw [ProofOfWork.try_int_eq_some.mpr hn, ok_bind]
  simp only [Except.ok.injEq, forall_eq', forall_apply_eq_imp_iff]
  rcases hexp : ProofOfWork.get_difficulty settings seen with e | expected
  · simp
  simp only [ok_bind, Except.ok.injEq, exists_eq_left']
  by_cases heq : i = expected
  swap
  · rw [if_pos heq]
    exact iff_of_true returns_ok fun h => absurd h heq
  rw [if_neg (not_not.mpr heq)]
  simp only [heq, forall_const]
  obtain ⟨time, htime⟩ := @returns_check_block_item (.dict d) _ ⟨d, rfl⟩ hseen
  rw [htime, ok_bind]
  by_cases hvalid : time.valid = true
  swap
  · rw [if_pos (by simpa using hvalid)]
    refine iff_of_true returns_ok fun t ht hfollows => ?_
    obtain ⟨time', htime', hvalid'⟩ := ProofOfWork.accepts_check_block_item.mpr ⟨t, ht, hfollows⟩
    rw [htime, Except.ok.injEq] at htime'
    rw [htime'] at hvalid
    exact absurd hvalid' hvalid
  rw [if_neg (by simp [hvalid])]
  obtain ⟨t, ht, hfollows⟩ := ProofOfWork.accepts_check_block_item.mp ⟨time, htime, hvalid⟩
  have hhashes : (∀ time, ProofOfWork.HasTime (.dict d) time →
      ProofOfWork.TimeFollows time seen.getLast? → PowHashes (.dict d) tran_body n) ↔
        Hashes tran_body ∧ (strOfInt n).isSome ∧ Scalars h := by
    constructor
    · intro hall
      obtain ⟨hbody, hnonce, hscalars⟩ := hall t ht hfollows
      exact ⟨hbody, hnonce, hscalars h hprev⟩
    · rintro ⟨hbody, hnonce, hscalars⟩ _ _ _
      refine ⟨hbody, hnonce, fun h' hprev' => ?_⟩
      obtain rfl := PyVal.str.inj (hprev.unique hprev')
      exact hscalars
  rw [hhashes]
  simp only [hbody, (headerIs_dict hfind).mp hprev, htran, orRaise_some, ok_bind]
  rcases hb : calc_body_hash tran_body with e | body_hash
  · refine iff_of_false not_returns_error ?_
    rintro ⟨⟨_, hok⟩, -⟩
    rw [hb] at hok
    cases hok
  · rw [ok_bind, returns_bind, returns_calc_pow_tran_hash (scalars_of_calc_body_hash hb)]
    simp only [returns_ite, pure_eq, returns_ok, implies_true, and_true]
    exact (and_iff_right ⟨_, hb⟩).symm

/-! ## The content of a proof-of-stake block -/

omit [Rsa] in
/-- A proof-of-stake block for the slot of the height needs a validator id that
can be looked up; for a validator of the map, a proposer to compare with; and
where that validator is the proposer, a body, an id and a `prev_hash` to be
hashed. -/
def PosReadable (validators : StakeMap) (height : ℕ) (block : Block) : Prop :=
  ∀ validator_id, HeaderIs block (lit "consensus_type") (.str (lit "pos")) →
    HeaderIs block (lit "validator_id") validator_id → validator_id.truthy = true →
    HeaderIs block (lit "slot") (.int height) → validators.isEmpty = false →
    validator_id.hashable = true ∧
      ∀ id tran_body tran_hash, validator_id = .str id → validators.contains id = true →
        block.item (lit "tran_body") = .ok (.dict tran_body) →
        HeaderIs block (lit "tran_hash") tran_hash → tran_hash ≠ .none →
        (validators.total ≠ 0 ∧ (strOfInt height).isSome) ∧
          (ProofOfStake.select_proposer height validators = .ok id →
            Hashes (.dict tran_body) ∧ Scalars id ∧ ∀ h, PrevHashIs block h → Scalars h)

omit [Runtime] [Rsa] in
theorem has_validator_of_not_hashable {m : StakeMap} {v : PyVal} (h : ¬ v.hashable = true) :
    ProofOfStake.has_validator m v = .error .typeError := by
  unfold ProofOfStake.has_validator
  rw [if_neg h]

omit [Runtime] [Rsa] in
theorem has_validator_of_not_str {m : StakeMap} {v : PyVal} (h : v.hashable = true)
    (hstr : ¬ ∃ id, v = .str id) : ProofOfStake.has_validator m v = .ok false := by
  unfold ProofOfStake.has_validator
  rw [if_pos h]
  split
  · rename_i id
    exact absurd ⟨id, rfl⟩ hstr
  · rfl

omit [Runtime] [Rsa] in
theorem returns_falseOnError {r : PyM Bool}
    (h : ∀ e, r = .error e → e.isValueError = true ∨ e = .typeError) : Returns (falseOnError r) := by
  rcases r with e | b
  · rw [falseOnError, if_pos]
    · exact returns_ok
    · simpa using h e rfl
  · exact returns_ok

omit [Runtime] [Rsa] in
theorem encode_error {text : Str} {e : PyErr} (h : encode text = .error e) :
    e = .unicodeEncodeError := by
  unfold encode orRaise at h
  split at h
  · cases h
  · exact (Except.error.inj h).symm

/-- The signature of an object is verified, or it is wrong. -/
theorem returns_verify_block_signature (d : Dict) : Returns (verify_block_signature (.dict d)) := by
  simp only [verify_block_signature]
  rcases Dict.find d (lit "signature") with _ | signature_hex
  · exact returns_ok
  rcases Dict.find d (lit "public_key") with _ | public_key
  · exact returns_ok
  apply returns_falseOnError
  intro e he
  unfold verify_block_signature_body at he
  split at he
  swap
  · cases he
  rename_i signature_hex public_key
  rcases hpem : encode public_key with e' | pem
  · rw [hpem] at he
    obtain rfl := Except.error.inj he
    obtain rfl := encode_error hpem
    exact Or.inl rfl
  rw [hpem, ok_bind] at he
  rcases hsig : fromHex signature_hex with _ | signature
  · rw [hsig] at he
    obtain rfl := Except.error.inj he
    exact Or.inl rfl
  rw [hsig, orRaise_some, ok_bind] at he
  rcases hkey : import_public_key pem with _ | key
  · rw [hkey] at he
    obtain rfl := Except.error.inj he
    exact Or.inl rfl
  rw [hkey, orRaise_some, ok_bind, verify_signature] at he
  split at he
  · cases he
  rcases hbytes : signed_bytes (unsigned d) with e' | bytes
  · rw [hbytes] at he
    obtain rfl := Except.error.inj he
    rw [signed_bytes] at hbytes
    rcases htext : dumps sortedAscii (.dict (unsigned d)) with e'' | text
    · rw [htext] at hbytes
      obtain rfl := Except.error.inj hbytes
      rcases dumpsAt_error _ htext with rfl | rfl
      · exact Or.inr rfl
      · exact Or.inl rfl
    · rw [htext, ok_bind] at hbytes
      obtain rfl := encode_error hbytes
      exact Or.inl rfl
  · rw [hbytes] at he
    cases he

omit [Rsa] in
theorem returns_calc_pos_tran_hash {h body_hash id : Str} {slot : ℤ} (hbody : Scalars body_hash)
    (hslot : (strOfInt slot).isSome) :
    Returns (calc_pos_tran_hash (.str h) body_hash id slot) ↔ Scalars id ∧ Scalars h := by
  obtain ⟨text, htext⟩ := Option.isSome_iff_exists.mp hslot
  simp only [calc_pos_tran_hash, concat, ok_bind, htext, orRaise_some, returns_sha256_hex,
    scalars_append, hbody, scalars_strOfInt htext, and_true]
  exact and_comm

/-- The verdict on a proof-of-stake block that names a string. -/
theorem returns_pos (self : ProofOfStake) {h : Str} (hprev : PrevHashIs block h)
    (validators_at_state : Option StakeMap) (expected_height : Option ℕ) :
    Returns (self.validate_block block chain validators_at_state expected_height) ↔
      PosReadable (validators_at_state.getD self.validators)
        (expected_height.getD (chain.length + 1)) block := by
  obtain ⟨header, hheader, hitem⟩ := id hprev
  obtain ⟨d, rfl, hfind⟩ := PyVal.item_eq_ok.mp hheader
  obtain ⟨hd, rfl, -⟩ := PyVal.item_eq_ok.mp hitem
  rw [ProofOfStake.validate_block]
  set validators := validators_at_state.getD self.validators
  set height := expected_height.getD (chain.length + 1)
  simp only [PyVal.get_dict, hfind, Option.getD_some, ok_bind]
  by_cases hctype : Dict.find hd (lit "consensus_type") = some (.str (lit "pos"))
  swap
  · refine iff_of_true ?_ ?_
    · rw [if_pos (getD_ne_str.mpr hctype)]
      exact returns_ok
    · intro _ hpos
      exact absurd ((headerIs_dict hfind).mp hpos) hctype
  simp only [hctype, Option.getD_some]
  rw [if_neg (by simp [PyVal.eq_str_iff])]
  rcases hslot : ProofOfStake.slot_of ((Dict.find hd (lit "validator_id")).getD .none)
    ((Dict.find hd (lit "slot")).getD .none) with _ | slot
  · refine iff_of_true returns_ok ?_
    intro validator_id _ hid htruthy hheight
    rw [headerIs_dict hfind] at hid hheight
    rw [hid, hheight, Option.getD_some, Option.getD_some] at hslot
    have hsome := ProofOfStake.slot_of_eq_some.mpr ⟨rfl, htruthy, Int.natCast_nonneg height⟩
    rw [hslot] at hsome
    cases hsome
  dsimp only
  obtain ⟨hslot_value, htruthy, -⟩ := ProofOfStake.slot_of_eq_some.mp hslot
  obtain ⟨validator_id, hid⟩ : ∃ v, Dict.find hd (lit "validator_id") = some v := by
    rcases hf : Dict.find hd (lit "validator_id") with _ | v
    · rw [hf] at htruthy
      cases htruthy
    · exact ⟨v, rfl⟩
  have hslot_find : Dict.find hd (lit "slot") = some (.int slot) := by
    rcases hf : Dict.find hd (lit "slot") with _ | v
    · rw [hf] at hslot_value
      cases hslot_value
    · rw [hf] at hslot_value
      exact congrArg some hslot_value
  rw [hid, Option.getD_some] at htruthy ⊢
  have hread : PosReadable validators height (.dict d) ↔ (slot = height → validators.isEmpty = false →
      validator_id.hashable = true ∧
      ∀ id tran_body tran_hash, validator_id = .str id → validators.contains id = true →
        Dict.find d (lit "tran_body") = some (.dict tran_body) →
        Dict.find hd (lit "tran_hash") = some tran_hash → tran_hash ≠ .none →
        (validators.total ≠ 0 ∧ (strOfInt height).isSome) ∧
          (ProofOfStake.select_proposer height validators = .ok id →
            Hashes (.dict tran_body) ∧ Scalars id ∧ Scalars h)) := by
    constructor
    · intro hall hheight hempty
      obtain ⟨hhash, hall⟩ := hall validator_id ((headerIs_dict hfind).mpr hctype)
        ((headerIs_dict hfind).mpr hid) htruthy ((headerIs_dict hfind).mpr (hheight ▸ hslot_find))
        hempty
      refine ⟨hhash, fun id tran_body tran_hash hvalidator hknown hbody htran hne => ?_⟩
      obtain ⟨hproposer, hall⟩ := hall id tran_body tran_hash hvalidator hknown
        (by rw [PyVal.item_dict, hbody, orRaise_some]) ((headerIs_dict hfind).mpr htran) hne
      refine ⟨hproposer, fun hselected => ?_⟩
      obtain ⟨hhashes, hid, hscalars⟩ := hall hselected
      exact ⟨hhashes, hid, hscalars h hprev⟩
    · intro hall validator_id' _ hid' _ hheight hempty
      rw [headerIs_dict hfind] at hid' hheight
      obtain rfl := Option.some.inj (hid.symm.trans hid')
      obtain rfl := PyVal.int.inj (Option.some.inj (hslot_find.symm.trans hheight))
      obtain ⟨hhash, hall⟩ := hall rfl hempty
      refine ⟨hhash, fun id tran_body tran_hash hvalidator hknown hbody htran hne => ?_⟩
      rw [PyVal.item_dict, orRaise_eq_ok] at hbody
      obtain ⟨hproposer, hall⟩ := hall id tran_body tran_hash hvalidator hknown hbody
        ((headerIs_dict hfind).mp htran) hne
      refine ⟨hproposer, fun hselected => ?_⟩
      obtain ⟨hhashes, hid, hscalars⟩ := hall hselected
      refine ⟨hhashes, hid, fun h' hprev' => ?_⟩
      obtain rfl := PyVal.str.inj (hprev.unique hprev')
      exact hscalars
  rw [hread]
  by_cases hempty : validators.isEmpty = true
  · rw [if_pos hempty]
    refine iff_of_true returns_ok fun _ hne => ?_
    rw [hempty] at hne
    cases hne
  rw [if_neg hempty]
  by_cases hheight : slot = height
  swap
  · rw [if_pos hheight]
    exact iff_of_true returns_ok fun h => absurd h hheight
  rw [if_neg (not_not.mpr hheight)]
  subst hheight
  simp only [Bool.not_eq_true] at hempty
  simp only [hempty, forall_const]
  by_cases hhash : validator_id.hashable = true
  swap
  · refine iff_of_false ?_ fun h => hhash h.1
    rw [has_validator_of_not_hashable hhash]
    exact not_returns_error
  simp only [hhash, true_and]
  by_cases hstr : ∃ id, validator_id = .str id
  swap
  · refine iff_of_true ?_ fun id _ _ hvalidator => absurd ⟨id, hvalidator⟩ hstr
    rw [has_validator_of_not_str hhash hstr]
    exact returns_ok
  obtain ⟨id, rfl⟩ := hstr
  rcases hknown : validators.contains id with _ | _
  · rw [ProofOfStake.has_validator_str.mpr hknown]
    refine iff_of_true returns_ok fun id' _ _ hvalidator hcontains => ?_
    obtain rfl := PyVal.str.inj hvalidator
    rw [hknown] at hcontains
    cases hcontains
  rw [ProofOfStake.has_validator_str.mpr hknown, ok_bind, if_neg (by simp)]
  simp only [(headerIs_dict hfind).mp hprev, Option.getD_some]
  rcases hfields : ProofOfStake.has_hash_fields ((Dict.find d (lit "tran_body")).getD .none) (.str h)
    ((Dict.find hd (lit "tran_hash")).getD .none) with _ | _
  · refine iff_of_true returns_ok fun _ tran_body tran_hash _ _ hbody htran hne => ?_
    rw [hbody, htran, Option.getD_some, Option.getD_some,
      ProofOfStake.has_hash_fields_eq_true.mpr ⟨⟨_, rfl⟩, ⟨_, rfl⟩, hne⟩] at hfields
    cases hfields
  obtain ⟨⟨tran_body, hbody⟩, -, hne⟩ := ProofOfStake.has_hash_fields_eq_true.mp hfields
  obtain ⟨tran_hash, htran⟩ : ∃ v, Dict.find hd (lit "tran_hash") = some v := by
    rcases hf : Dict.find hd (lit "tran_hash") with _ | v
    · rw [hf] at hne
      exact absurd rfl hne
    · exact ⟨v, rfl⟩
  have hbody_find : Dict.find d (lit "tran_body") = some (.dict tran_body) := by
    rcases hf : Dict.find d (lit "tran_body") with _ | v
    · rw [hf] at hbody
      cases hbody
    · rw [hf] at hbody
      exact congrArg some hbody
  rw [htran, Option.getD_some] at hne
  -- the fields are all there: the proposer is compared and the block hashed
  have hhashes : (∀ id' tran_body tran_hash, PyVal.str id = .str id' →
      validators.contains id' = true → Dict.find d (lit "tran_body") = some (.dict tran_body) →
      Dict.find hd (lit "tran_hash") = some tran_hash → tran_hash ≠ .none →
      (validators.total ≠ 0 ∧ (strOfInt height).isSome) ∧
        (ProofOfStake.select_proposer height validators = .ok id' →
          Hashes (.dict tran_body) ∧ Scalars id' ∧ Scalars h)) ↔
      (validators.total ≠ 0 ∧ (strOfInt height).isSome) ∧
        (ProofOfStake.select_proposer height validators = .ok id →
          Hashes (.dict tran_body) ∧ Scalars id ∧ Scalars h) := by
    constructor
    · exact fun hall => hall id tran_body tran_hash rfl hknown hbody_find htran hne
    · rintro hall id' tran_body' _ hid' - hbody' - -
      obtain rfl := PyVal.str.inj hid'
      obtain rfl := PyVal.dict.inj (Option.some.inj (hbody_find.symm.trans hbody'))
      exact hall
  rw [hhashes]
  simp only [Bool.not_true, Bool.false_eq_true, if_false, hbody, htran, Option.getD_some]
  rcases hselect : ProofOfStake.select_proposer height validators with e | proposer
  · refine iff_of_false not_returns_error ?_
    rintro ⟨⟨htotal, hsome⟩, -⟩
    obtain ⟨id', hid'⟩ := ProofOfStake.select_proposer_isOk.mpr ⟨hempty, hsome, htotal⟩
    rw [hselect] at hid'
    cases hid'
  obtain ⟨-, hsome, htotal⟩ := ProofOfStake.select_proposer_isOk.mp ⟨proposer, hselect⟩
  simp only [ok_bind, htotal, hsome, ne_eq, not_false_eq_true, and_self, true_and, Except.ok.injEq]
  by_cases hown : proposer = id
  swap
  · refine iff_of_true ?_ fun h => absurd h hown
    rw [if_pos]
    · exact returns_ok
    · rw [Bool.not_eq_true', ← Bool.not_eq_true, PyVal.eq_str_iff]
      exact fun heq => hown (PyVal.str.inj heq).symm
  subst hown
  rw [if_neg (by simp [PyVal.eq_str_iff])]
  simp only [forall_const]
  rcases hb : calc_body_hash (.dict tran_body) with e | body_hash
  · refine iff_of_false not_returns_error ?_
    rintro ⟨⟨_, hok⟩, -⟩
    rw [hb] at hok
    cases hok
  simp only [ok_bind, ProofOfStake.strOf]
  rw [returns_bind, returns_calc_pos_tran_hash (scalars_of_calc_body_hash hb) hsome]
  rw [and_iff_right (show Hashes (.dict tran_body) from ⟨_, hb⟩), and_iff_left_iff_imp]
  -- with the hash computed, nothing that follows raises
  intro _ expected _
  rw [returns_ite]
  refine ⟨fun _ => returns_ok, fun _ => ?_⟩
  simp only [PyVal.has_dict, ok_bind]
  rw [returns_ite]
  refine ⟨fun _ => returns_ok, fun hsigned => ?_⟩
  split
  · exact returns_ok
  · simp only [Bool.or_eq_true, Bool.not_eq_true', not_or, Bool.not_eq_false] at hsigned
    obtain ⟨key, hkey⟩ := Option.isSome_iff_exists.mp hsigned.2
    obtain ⟨verified, hverified⟩ := returns_verify_block_signature d
    simp only [PyVal.item_dict, hkey, orRaise_some, ok_bind, hverified]
    rw [returns_ite]
    refine ⟨fun _ => returns_ok, fun _ => ?_⟩
    rw [returns_ite]
    exact ⟨fun _ => returns_ok, fun _ => returns_ok⟩

end Readable

end EasyBlockchain
