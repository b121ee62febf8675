/-
The hash at the tip of an accepted chain commits to the whole chain.

The hashed texts have no separators: `prev_hash + body_hash`, then nothing, the
nonce, or `validator_id + slot`. The two hashes have 64 characters, so they are
read back from the left; the slot is the height, so the validator is read back
from the right once the heights are known to agree. `Lib.HashChain` does the
induction from the tip down.
-/
import EasyBlockchain.ForkAttribution
import EasyBlockchain.PowAcceptance
import EasyBlockchain.Py.CPython

set_option autoImplicit false

namespace EasyBlockchain

open Py Lib

section Commitment

variable [Runtime] [Rsa]

/-! ## The hashed texts -/

omit [Rsa] in
/-- The text `calc_body_hash` hashes. -/
def body_text (transaction : PyVal) : PyM Str := do
  let text ← dumps sortedAscii transaction
  let tran_string ← encode text
  return reprBytes tran_string

/-- What a transaction hash covers after the two hashes. -/
def sealed_text (consensus : Option Consensus) (block : Block) : PyM Str :=
  match consensus with
  | none => .ok []
  | some (.pow _) => do
    let header ← block.item (lit "block_header")
    let nonce ← header.item (lit "nonce")
    let nonce ← nonce.toInt
    orRaise .valueError (strOfInt nonce)
  | some (.pos _) => do
    let header ← block.item (lit "block_header")
    let validator_id ← header.item (lit "validator_id")
    let validator_id ← ProofOfStake.strOf validator_id
    let slot ← header.item (lit "slot")
    let slot ← slot.toInt
    let slot ← orRaise .valueError (strOfInt slot)
    return validator_id ++ slot

/-- The strings given to `sha256_hex` when a block is validated. -/
def hashed_texts (consensus : Option Consensus) (block : Block) : PyM (List Str) := do
  let tran_body ← block.item (lit "tran_body")
  let body_text ← body_text tran_body
  let body_hash ← sha256_hex body_text
  let prev_hash ← header_prev_hash block
  let hashes ← concat prev_hash body_hash
  let sealed ← sealed_text consensus block
  return [body_text, hashes ++ sealed]

/-- The strings hashed when a chain is validated. -/
def HashedIn (consensus : Option Consensus) (chain : List Block) : Set Str :=
  {text | ∃ block ∈ chain, ∃ texts, hashed_texts consensus block = .ok texts ∧ text ∈ texts}

/-- No two of the texts have one hash, and none has the genesis hash. -/
structure NoCollision (texts : Set Str) (g : Str) : Prop where
  inj : ∀ s ∈ texts, ∀ t ∈ texts, ∀ h, sha256_hex s = .ok h → sha256_hex t = .ok h → s = t
  genesis : ∀ s ∈ texts, sha256_hex s ≠ .ok g

/-- `json.dumps(..., sort_keys=True)` is injective on these values, up to the
order of keys. -/
def DumpsInjective (json : Set PyVal) : Prop :=
  ∀ a ∈ json, ∀ b ∈ json, ∀ text, dumps sortedAscii a = .ok text →
    dumps sortedAscii b = .ok text → JsonEq a b

omit [Rsa] in
theorem calc_body_hash_eq_ok {transaction : PyVal} {h : Str} :
    calc_body_hash transaction = .ok h ↔
      ∃ text, body_text transaction = .ok text ∧ sha256_hex text = .ok h := by
  simp only [calc_body_hash, body_text, bind_eq_ok, pure_eq, Except.ok.injEq]
  constructor
  · rintro ⟨text, htext, bytes, hbytes, h⟩
    exact ⟨_, ⟨text, htext, bytes, hbytes, rfl⟩, h⟩
  · rintro ⟨_, ⟨text, htext, bytes, hbytes, rfl⟩, h⟩
    exact ⟨text, htext, bytes, hbytes, h⟩

omit [Rsa] in
/-- Bodies with the same hashed text have the same JSON text. -/
theorem dumps_of_body_text {a b : PyVal} {text : Str} (hta : body_text a = .ok text)
    (htb : body_text b = .ok text) :
    ∃ s, dumps sortedAscii a = .ok s ∧ dumps sortedAscii b = .ok s := by
  simp only [body_text, bind_eq_ok, pure_eq, Except.ok.injEq, encode, orRaise_eq_ok] at hta htb
  obtain ⟨s, hs, bytes, hbytes, rfl⟩ := hta
  obtain ⟨t, ht, bytes', hbytes', heq⟩ := htb
  obtain rfl := reprBytes_injective heq
  obtain rfl := utf8_inj hbytes hbytes'
  exact ⟨s, hs, ht⟩

omit [Rsa] in
/-- Bodies with the same hashed text are the same JSON value. -/
theorem jsonEq_of_body_text {json : Set PyVal} (hjson : DumpsInjective json) {a b : PyVal}
    (ha : a ∈ json) (hb : b ∈ json) {text : Str} (hta : body_text a = .ok text)
    (htb : body_text b = .ok text) : JsonEq a b := by
  obtain ⟨s, hs, ht⟩ := dumps_of_body_text hta htb
  exact hjson a ha b hb s hs ht

/-! ## What an accepted block commits to -/

/-- The values that enter the hash of a block. -/
structure Commitment where
  prev_hash : Str
  tran_body : PyVal
  body_text : Str
  body_hash : Str
  sealed : Str
  tran_hash : Str

/-- The block holds these values, and its hash is made of them. -/
structure Commitment.Of (consensus : Option Consensus) (c : Commitment) (block : Block) : Prop where
  prev_hash : PrevHashIs block c.prev_hash
  tran_body : block.item (lit "tran_body") = .ok c.tran_body
  body_text : EasyBlockchain.body_text c.tran_body = .ok c.body_text
  body_hash : sha256_hex c.body_text = .ok c.body_hash
  sealed : sealed_text consensus block = .ok c.sealed
  hash : sha256_hex (c.prev_hash ++ c.body_hash ++ c.sealed) = .ok c.tran_hash
  tran_hash : TranHashIs block c.tran_hash

/-- Under proof of stake, the slot of a block is its height. -/
def SlotIs (consensus : Option Consensus) (height : ℕ) (block : Block) : Prop :=
  match consensus with
  | some (.pos _) => HeaderIs block (lit "slot") (.int height)
  | _ => True

/-- A block may follow a chain, as far as hashes are concerned. -/
def CommitStep (consensus : Option Consensus) (g : Str) (seen : List Block) (block : Block) : Prop :=
  HashLinked g seen block ∧ SlotIs consensus (seen.length + 1) block ∧
    ∃ c : Commitment, c.Of consensus block

/-- The two texts of a block. -/
theorem Commitment.Of.hashed_texts {consensus : Option Consensus} {c : Commitment} {block : Block}
    (h : c.Of consensus block) : EasyBlockchain.hashed_texts consensus block
      = .ok [c.body_text, c.prev_hash ++ c.body_hash ++ c.sealed] := by
  simp [EasyBlockchain.hashed_texts, h.tran_body, h.body_text, h.body_hash,
    header_prev_hash_eq_ok.mpr h.prev_hash, concat, h.sealed]

theorem Commitment.Of.body_mem {consensus : Option Consensus} {c : Commitment} {block : Block}
    {chain : List Block} (h : c.Of consensus block) (hblock : block ∈ chain) :
    c.body_text ∈ HashedIn consensus chain :=
  ⟨block, hblock, _, h.hashed_texts, by simp⟩

theorem Commitment.Of.text_mem {consensus : Option Consensus} {c : Commitment} {block : Block}
    {chain : List Block} (h : c.Of consensus block) (hblock : block ∈ chain) :
    c.prev_hash ++ c.body_hash ++ c.sealed ∈ HashedIn consensus chain :=
  ⟨block, hblock, _, h.hashed_texts, by simp⟩

/-! ## Acceptance implies the step, mode by mode -/

/-- Without consensus. -/
theorem commitStep_legacy {g : Str} {seen : List Block} {block : Block}
    (h : VerifyStep none g seen block) : CommitStep none g seen block := by
  obtain ⟨hlink, hcontent⟩ := h
  simp only [content_check, accepts_bind] at hcontent
  obtain ⟨header, hheader, ctype, hctype, hcontent⟩ := hcontent
  split at hcontent
  swap
  · simp at hcontent
  simp only [accepts_bind, pure_eq, accepts_guard, Bool.not_eq_false', PyVal.eq_str_iff] at hcontent
  obtain ⟨body, hbody, body_hash, hbody_hash, prev, hprev, expected, hexpected, _, htran, rfl, -⟩ :=
    hcontent
  have hheader : block.item (lit "block_header") = .ok header := by
    refine PyVal.item_of_get hheader ?_
    rintro rfl
    simp [PyVal.item] at hprev
  simp only [calc_legacy_tran_hash, bind_eq_ok, concat_eq_ok] at hexpected
  obtain ⟨_, ⟨p, rfl, rfl⟩, hhash⟩ := hexpected
  obtain ⟨text, htext, hsha⟩ := calc_body_hash_eq_ok.mp hbody_hash
  have hp : PrevHashIs block p := ⟨header, hheader, hprev⟩
  refine ⟨?_, trivial, ⟨p, body, text, body_hash, [], expected⟩,
    ⟨hp, hbody, htext, hsha, rfl, by simpa using hhash,
      header, hheader, PyVal.item_of_get htran (by simp)⟩⟩
  rcases hlast : seen.getLast? with _ | previous
  · rw [hlast] at hlink
    simp only [link_check, accepts_bind, pure_eq, accepts_guard, Bool.not_eq_false',
      PyVal.eq_str_iff, header_prev_hash_eq_ok] at hlink
    obtain ⟨_, hg, rfl, -⟩ := hlink
    exact ⟨g, hg, by simp [TipIs, hlast]⟩
  · rw [hlast] at hlink
    simp only [link_check, accepts_bind, pure_eq, accepts_guard, Bool.not_eq_false',
      header_prev_hash_eq_ok] at hlink
    obtain ⟨ph, hph, tran, htran, prev, hprev', heq, -⟩ := hlink
    obtain rfl := hprev'.unique hp
    rw [PyVal.str_eq_iff] at heq
    subst heq
    refine ⟨p, hp, ?_⟩
    simp only [TipIs, hlast]
    exact ⟨ph, hph, htran⟩

/-- The values of an accepted proof-of-work block. -/
theorem commitment_of_pow {pow : ProofOfWork} {f : ProofOfWork.PowFields} {block : Block}
    {seen : List Block} (hof : f.Of block) (hvalid : f.Valid pow.settings seen) :
    ∃ c : Commitment, c.Of (some (.pow pow)) block := by
  obtain ⟨body_hash, hbody, hhash⟩ := hvalid.hash
  obtain ⟨text, htext, hsha⟩ := calc_body_hash_eq_ok.mp hbody
  simp only [calc_pow_tran_hash, bind_eq_ok, concat_eq_ok, PyVal.str.injEq, exists_eq_left'] at hhash
  obtain ⟨nonce, hnonce, hhash⟩ := hhash
  obtain ⟨v, ⟨header, hheader, hv⟩, hint⟩ := hof.nonce
  refine ⟨⟨f.prev_hash, f.tran_body, text, body_hash, nonce, f.tran_hash⟩,
    ⟨hof.prev_hash, hof.tran_body, htext, hsha, ?_, hhash, hof.tran_hash⟩⟩
  simp [sealed_text, hheader, hv, hint, hnonce]

/-- The values of an accepted proof-of-stake block. -/
theorem commitment_of_pos {pos : ProofOfStake} {f : ProofOfStake.PosFields} {block : Block}
    {validators : StakeMap} {height : ℕ} (hof : f.Of block)
    (hvalid : f.Valid pos.validator_public_keys validators height) :
    ∃ c : Commitment, c.Of (some (.pos pos)) block := by
  obtain ⟨body_hash, hbody, hhash⟩ := hvalid.hash
  obtain ⟨text, htext, hsha⟩ := calc_body_hash_eq_ok.mp hbody
  simp only [calc_pos_tran_hash, bind_eq_ok, concat_eq_ok, PyVal.str.injEq, exists_eq_left'] at hhash
  obtain ⟨slot, hslot, hhash⟩ := hhash
  obtain ⟨header, hheader, hid⟩ := hof.validator_id
  obtain ⟨header', hheader', hs⟩ := hof.slot
  rw [hheader] at hheader'
  obtain rfl := Except.ok.inj hheader'
  refine ⟨⟨f.prev_hash, .dict f.tran_body, text, body_hash, f.validator_id ++ slot, f.tran_hash⟩,
    ⟨hof.prev_hash, hof.tran_body, htext, hsha, ?_, by simpa using hhash, hof.tran_hash⟩⟩
  simp [sealed_text, hheader, hid, ProofOfStake.strOf, hs, PyVal.toInt, hslot]

/-- A verified chain is linked by its hashes, and every block commits to its
content. -/
theorem commits_of_verifies {consensus : Option Consensus} {genesis_stakes : Option StakeMap}
    {g : Str} (hg : g ≠ []) {chain : List Block}
    (h : Verifies (verify_chain_integrity chain consensus g genesis_stakes)) :
    Grows (CommitStep consensus g) chain := by
  have horDefault : ∀ own, orDefault (some g) own = g := by
    intro own
    simp [orDefault, hg]
  rcases consensus with _ | ⟨pow | pos⟩
  · -- no consensus: the other loop
    have hgrows := (loop_verification none g chain rfl).1.mp h
    exact hgrows.imp fun pre x _ hx => commitStep_legacy hx
  · have hgrows := (pow_verification (horDefault _)).1.mp h
    refine hgrows.imp fun pre x _ hx => ?_
    obtain ⟨hlink, haccept⟩ := hx
    obtain ⟨f, hof, hvalid⟩ := ProofOfWork.accepts_validate_block.mp haccept
    exact ⟨((accepts_chain_link (horDefault _) ⟨_, hof.prev_hash⟩).mp hlink).1, trivial,
      commitment_of_pow hof hvalid⟩
  · rcases genesis_stakes with _ | genesis_stakes
    · -- without genesis stakes the current ones are used at every height
      have hgrows := (loop_verification (some (.pos pos)) g chain rfl).1.mp h
      refine hgrows.imp fun pre x _ hx => ?_
      obtain ⟨hlink, hcontent⟩ := hx
      rw [accepts_link_check (horDefault _)] at hlink
      rw [accepts_content_check] at hcontent
      obtain ⟨f, hof, hvalid⟩ :=
        (ProofOfStake.accepts_validate_block pos x pre none none).mp hcontent
      have hslot := hof.slot
      rw [hvalid.slot] at hslot
      exact ⟨((accepts_chain_link (horDefault _) ⟨_, hof.prev_hash⟩).mp hlink).1, hslot,
        commitment_of_pos hof hvalid⟩
    · have hgrows := (pos_verification (horDefault _) genesis_stakes chain).1.mp h
      refine hgrows.imp fun pre x _ hx => ?_
      obtain ⟨hlink, f, hof, hvalid⟩ := hx
      have hslot := hof.slot
      rw [hvalid.slot] at hslot
      exact ⟨((accepts_chain_link (horDefault _) ⟨_, hof.prev_hash⟩).mp hlink).1, hslot,
        commitment_of_pos hof hvalid⟩

/-! ## Reading a hash back -/

omit [Runtime] [Rsa] in
/-- The parts of a hashed text. -/
theorem parts_of_text {p p' b b' s s' : Str} (hp : p.length = 64) (hp' : p'.length = 64)
    (hb : b.length = 64) (hb' : b'.length = 64) (h : p ++ b ++ s = p' ++ b' ++ s') :
    p = p' ∧ b = b' ∧ s = s' := by
  rw [List.append_assoc, List.append_assoc] at h
  obtain ⟨hpp, hrest⟩ := List.append_inj h (hp.trans hp'.symm)
  obtain ⟨hbb, hss⟩ := List.append_inj hrest (hb.trans hb'.symm)
  exact ⟨hpp, hbb, hss⟩

/-- In a linked chain every named hash has 64 characters. -/
theorem prev_hash_length {consensus : Option Consensus} {g : Str} (hg : g.length = 64)
    {chain : List Block} (h : Grows (CommitStep consensus g) chain) {block : Block}
    (hblock : block ∈ chain) {p : Str} (hp : PrevHashIs block p) : p.length = 64 := by
  obtain ⟨pre, post, rfl⟩ := List.append_of_mem hblock
  obtain ⟨hlinked, -⟩ := grows_iff_split.mp h pre block post rfl
  obtain ⟨q, hq, hfrom⟩ := LinksTo.prev hlinked
  obtain rfl := PyVal.str.inj (hp.unique hq)
  rcases hfrom with rfl | ⟨y, hy, hhash⟩
  · exact hg
  · -- the predecessor's hash is one the program computed
    obtain ⟨pre', post', rfl⟩ := List.append_of_mem hy
    obtain ⟨-, -, c, hc⟩ := grows_iff_split.mp h pre' y (post' ++ block :: post) (by simp)
    obtain rfl := PyVal.str.inj (hhash.unique hc.tran_hash)
    exact sha256_hex_length hc.hash

/-- The values under a hash, but for the ones told apart by the height. -/
structure SameContent (consensus : Option Consensus) (x y : Block) : Prop where
  prev_hash : ∃ h, PrevHashIs x h ∧ PrevHashIs y h
  tran_hash : ∃ h, TranHashIs x h ∧ TranHashIs y h
  tran_body : ∃ a b, x.item (lit "tran_body") = .ok a ∧ y.item (lit "tran_body") = .ok b ∧ JsonEq a b
  sealed : ∃ text, sealed_text consensus x = .ok text ∧ sealed_text consensus y = .ok text

/-- Two accepted blocks with the same hash have the same content. -/
theorem sameContent_of_tran_hash {consensus : Option Consensus} {g : Str} (hg : g.length = 64)
    {C D : List Block} (hC : Grows (CommitStep consensus g) C)
    (hD : Grows (CommitStep consensus g) D) {json : Set PyVal} (hjson : DumpsInjective json)
    (hbodies : ∀ block ∈ C ++ D, ∀ body, block.item (lit "tran_body") = .ok body → body ∈ json)
    (hcoll : NoCollision (HashedIn consensus (C ++ D)) g) {x y : Block} (hx : x ∈ C) (hy : y ∈ D)
    {c d : Commitment} (hc : c.Of consensus x) (hd : d.Of consensus y)
    (hhash : c.tran_hash = d.tran_hash) :
    c.prev_hash = d.prev_hash ∧ SameContent consensus x y := by
  have hx' := List.mem_append_left D hx
  have hy' := List.mem_append_right C hy
  have htext := hcoll.inj _ (hc.text_mem hx') _ (hd.text_mem hy') _ hc.hash (hhash ▸ hd.hash)
  obtain ⟨hprev, hbody_hash, hsealed⟩ := parts_of_text (prev_hash_length hg hC hx hc.prev_hash)
    (prev_hash_length hg hD hy hd.prev_hash) (sha256_hex_length hc.body_hash)
    (sha256_hex_length hd.body_hash) htext
  have hbody_text := hcoll.inj _ (hc.body_mem hx') _ (hd.body_mem hy') _ hc.body_hash
    (hbody_hash ▸ hd.body_hash)
  have hbody : JsonEq c.tran_body d.tran_body :=
    jsonEq_of_body_text hjson (hbodies x hx' _ hc.tran_body) (hbodies y hy' _ hd.tran_body)
      hc.body_text (hbody_text ▸ hd.body_text)
  exact ⟨hprev, ⟨_, hc.prev_hash, hprev ▸ hd.prev_hash⟩, ⟨_, hc.tran_hash, hhash ▸ hd.tran_hash⟩,
    ⟨_, _, hc.tran_body, hd.tran_body, hbody⟩, ⟨_, hc.sealed, hsealed ▸ hd.sealed⟩⟩

/-! ## The tip commits to the chain -/

/-- The nonce, or the validator and the slot, of two blocks are the same. -/
def SameSeal (consensus : Option Consensus) (x y : Block) : Prop :=
  match consensus with
  | none => True
  | some (.pow _) => ∃ v w nonce, HeaderIs x (lit "nonce") v ∧ HeaderIs y (lit "nonce") w ∧
      v.toInt = .ok nonce ∧ w.toInt = .ok nonce
  | some (.pos _) => ∃ (validator_id : Str) (slot : ℤ),
      HeaderIs x (lit "validator_id") (.str validator_id) ∧
      HeaderIs y (lit "validator_id") (.str validator_id) ∧
      HeaderIs x (lit "slot") (.int slot) ∧ HeaderIs y (lit "slot") (.int slot)

/-- What the hash at the tip fixes of the blocks at one height. -/
structure SameCommitment (consensus : Option Consensus) (x y : Block) : Prop where
  prev_hash : ∃ h, PrevHashIs x h ∧ PrevHashIs y h
  tran_hash : ∃ h, TranHashIs x h ∧ TranHashIs y h
  tran_body : ∃ a b, x.item (lit "tran_body") = .ok a ∧ y.item (lit "tran_body") = .ok b ∧ JsonEq a b
  sealed : SameSeal consensus x y

omit [Runtime] in
/-- At one height the sealed text is read back. -/
theorem sameSeal_of_text {consensus : Option Consensus} {height : ℕ} {x y : Block} {text : Str}
    (hx : sealed_text consensus x = .ok text) (hy : sealed_text consensus y = .ok text)
    (hsx : SlotIs consensus height x) (hsy : SlotIs consensus height y) :
    SameSeal consensus x y := by
  rcases consensus with _ | ⟨pow | pos⟩
  · trivial
  · simp only [sealed_text, bind_eq_ok, orRaise_eq_ok] at hx hy
    obtain ⟨header, hheader, v, hv, n, hn, htext⟩ := hx
    obtain ⟨header', hheader', w, hw, m, hm, htext'⟩ := hy
    obtain rfl := strOfInt_inj htext htext'
    exact ⟨v, w, n, ⟨header, hheader, hv⟩, ⟨header', hheader', hw⟩, hn, hm⟩
  · simp only [sealed_text, bind_eq_ok, orRaise_eq_ok, pure_eq, Except.ok.injEq] at hx hy
    obtain ⟨header, hheader, v, hv, id, hid, s, hs, i, hi, digits, hdigits, rfl⟩ := hx
    obtain ⟨header', hheader', w, hw, id', hid', t, ht, j, hj, digits', hdigits', htext⟩ := hy
    -- both slots are the height, so the texts end in the same digits
    obtain rfl := hsx.unique ⟨header, hheader, hs⟩
    obtain rfl := hsy.unique ⟨header', hheader', ht⟩
    obtain rfl := Except.ok.inj hi
    obtain rfl := Except.ok.inj hj
    obtain rfl := Option.some.inj (hdigits.symm.trans hdigits')
    obtain rfl := List.append_cancel_right htext
    cases v <;> simp only [ProofOfStake.strOf, reduceCtorEq, Except.ok.injEq] at hid
    subst hid
    cases w <;> simp only [ProofOfStake.strOf, reduceCtorEq, Except.ok.injEq] at hid'
    subst hid'
    exact ⟨_, _, ⟨header, hheader, hv⟩, ⟨header', hheader', hw⟩, hsx, hsy⟩

/-- Two accepted chains on the same genesis hash with the same hash at their
tips are the same chain, height by height, in all that is hashed. -/
theorem tip_hash_commits {consensus : Option Consensus} {genesis_stakes : Option StakeMap}
    {g : Str} (hg : g.length = 64) {C D : List Block}
    (hC : Verifies (verify_chain_integrity C consensus g genesis_stakes))
    (hD : Verifies (verify_chain_integrity D consensus g genesis_stakes))
    {x y : Block} (hx : C.getLast? = some x) (hy : D.getLast? = some y)
    {h : Str} (hxh : TranHashIs x h) (hyh : TranHashIs y h)
    {json : Set PyVal} (hjson : DumpsInjective json)
    (hbodies : ∀ block ∈ C ++ D, ∀ body, block.item (lit "tran_body") = .ok body → body ∈ json)
    (hcoll : NoCollision (HashedIn consensus (C ++ D)) g) :
    C.length = D.length ∧
      ∀ (i : ℕ) (hi : i < C.length) (hj : i < D.length), SameCommitment consensus C[i] D[i] := by
  have hne : g ≠ [] := by
    rintro rfl
    simp at hg
  have hgC := commits_of_verifies hne hC
  have hgD := commits_of_verifies hne hD
  have hcommits : ∀ {chain : List Block}, Grows (CommitStep consensus g) chain →
      ∀ block ∈ chain, ∃ c : Commitment, c.Of consensus block := by
    intro chain hgrows block hblock
    obtain ⟨pre, post, rfl⟩ := List.append_of_mem hblock
    exact (grows_iff_split.mp hgrows pre block post rfl).2.2
  -- no block has the genesis hash
  have hgenesis : ∀ {chain : List Block}, Grows (CommitStep consensus g) chain →
      (∀ block ∈ chain, block ∈ C ++ D) → ∀ block ∈ chain, ¬ TranHashIs block g := by
    intro chain hgrows hsub block hblock htran
    obtain ⟨c, hc⟩ := hcommits hgrows block hblock
    obtain rfl := PyVal.str.inj (htran.unique hc.tran_hash)
    exact hcoll.genesis _ (hc.text_mem (hsub block hblock)) hc.hash
  have hrel : List.Forall₂ (SameContent consensus) C D := by
    refine forall₂_of_same_tip (hgC.imp fun _ _ _ hstep => hstep.1)
      (hgD.imp fun _ _ _ hstep => hstep.1) (fun b p q hp hq => PyVal.str.inj (hp.unique hq)) ?_
      (hgenesis hgC fun b hb => List.mem_append_left D hb)
      (hgenesis hgD fun b hb => List.mem_append_right C hb) (h := h) ?_ ?_
    · intro u hu v hv h hhu hhv
      obtain ⟨c, hc⟩ := hcommits hgC u hu
      obtain ⟨d, hd⟩ := hcommits hgD v hv
      have hhash : c.tran_hash = d.tran_hash :=
        (PyVal.str.inj (hhu.unique hc.tran_hash)).symm.trans
          (PyVal.str.inj (hhv.unique hd.tran_hash))
      obtain ⟨hprev, hsame⟩ :=
        sameContent_of_tran_hash hg hgC hgD hjson hbodies hcoll hu hv hc hd hhash
      refine ⟨fun p hp => ?_, hsame⟩
      obtain rfl := PyVal.str.inj (hp.unique hc.prev_hash)
      exact hprev ▸ hd.prev_hash
    · simpa only [TipIs, hx] using hxh
    · simpa only [TipIs, hy] using hyh
  rw [List.forall₂_iff_get] at hrel
  obtain ⟨hlen, hat⟩ := hrel
  refine ⟨hlen, fun i hi hj => ?_⟩
  have hsame : SameContent consensus C[i] D[i] := hat i hi hj
  obtain ⟨text, htx, hty⟩ := hsame.sealed
  have hsx := (hgC.getElem hi).2.1
  have hsy := (hgD.getElem hj).2.1
  rw [List.length_take_of_le hi.le] at hsx
  rw [List.length_take_of_le hj.le] at hsy
  exact ⟨hsame.prev_hash, hsame.tran_hash, hsame.tran_body, sameSeal_of_text htx hty hsx hsy⟩

end Commitment

/-! ## Two chains with one tip

The chains differ in `block_item`, which is not hashed, and in the order of the
keys of `tran_body`, which `sort_keys` removes. -/

namespace OneTip

attribute [local instance] cpython letterRsa

def pow : ProofOfWork := ⟨⟨1, 10, .fin 2, 1000, 10⟩, DEFAULT_GENESIS_PREV_HASH⟩

def tran_hash : Str := lit "0047b0c18dd14038eae51744cd0740fb9501a73dfabaa0c2ec40b34b2ecb12cd"

def body : Dict := [(.str (lit "input_data"), .str (lit "w")), (.str (lit "output_data"), .str (lit "b"))]

/-- A mined block, with its time and its body. -/
def block (block_item : String) (tran_body : Dict) : Block := .dict
  [(.str (lit "block_index"), .int 1),
    (.str (lit "block_item"), .str (lit block_item)),
    (.str (lit "block_header"), .dict
      [(.str (lit "prev_hash"), .str DEFAULT_GENESIS_PREV_HASH),
        (.str (lit "consensus_type"), .str (lit "pow")),
        (.str (lit "tran_hash"), .str tran_hash),
        (.str (lit "nonce"), .int 0),
        (.str (lit "difficulty"), .int 1)]),
    (.str (lit "tran_counter"), .int 2),
    (.str (lit "tran_body"), .dict tran_body)]

def blockA : Block := block "2024-01-01 00:00:00" body

def blockB : Block := block "2025-01-01 00:00:00" body.reverse

def chainA : List Block := [blockA]

def chainB : List Block := [blockB]

theorem mem_chains {b : Block} (h : b ∈ chainA ++ chainB) : b = blockA ∨ b = blockB := by
  simpa [chainA, chainB] using h

def json : Set PyVal := {.dict body, .dict body.reverse}

theorem dumpsInjective : DumpsInjective json := by
  rintro a (rfl | rfl) b (rfl | rfl) - - - <;> rfl

/-- The two texts hashed for either block. -/
def texts : List Str := (hashed_texts (some (.pow pow)) blockA).toOption.getD []

theorem hashedIn_subset {text : Str}
    (h : text ∈ HashedIn (some (.pow pow)) (chainA ++ chainB)) : text ∈ texts := by
  have hA : hashed_texts (some (.pow pow)) blockA = .ok texts := by decide +kernel
  have hB : hashed_texts (some (.pow pow)) blockB = .ok texts := by decide +kernel
  obtain ⟨b, hb, ts, hts, htext⟩ := h
  rcases mem_chains hb with rfl | rfl
  · rw [hA] at hts
    exact Except.ok.inj hts ▸ htext
  · rw [hB] at hts
    exact Except.ok.inj hts ▸ htext

theorem noCollision :
    NoCollision (HashedIn (some (.pow pow)) (chainA ++ chainB)) DEFAULT_GENESIS_PREV_HASH := by
  have hinj : ∀ s ∈ texts, ∀ t ∈ texts, sha256_hex s = sha256_hex t → s = t := by decide +kernel
  have hgen : ∀ s ∈ texts, sha256_hex s ≠ .ok DEFAULT_GENESIS_PREV_HASH := by decide +kernel
  constructor
  · intro s hs t ht h hsh hth
    exact hinj s (hashedIn_subset hs) t (hashedIn_subset ht) (hsh.trans hth.symm)
  · exact fun s hs => hgen s (hashedIn_subset hs)

theorem verifies_chainA : Verifies (verify_chain_integrity chainA (some (.pow pow))
    DEFAULT_GENESIS_PREV_HASH none) :=
  ⟨.ok, by decide +kernel, rfl⟩

theorem verifies_chainB : Verifies (verify_chain_integrity chainB (some (.pow pow))
    DEFAULT_GENESIS_PREV_HASH none) :=
  ⟨.ok, by decide +kernel, rfl⟩

theorem bodies_mem (b : Block) (hb : b ∈ chainA ++ chainB) (v : PyVal)
    (hv : b.item (lit "tran_body") = .ok v) : v ∈ json := by
  rcases mem_chains hb with rfl | rfl
  · exact Or.inl (Except.ok.inj hv).symm
  · exact Or.inr (Except.ok.inj hv).symm

theorem tranHashIs_block (block_item : String) (tran_body : Dict) :
    TranHashIs (block block_item tran_body) tran_hash :=
  ⟨_, rfl, rfl⟩

/-- The theorem on the two chains. -/
theorem one_tip_commits :
    chainA.length = chainB.length ∧
      ∀ (i : ℕ) (hi : i < chainA.length) (hj : i < chainB.length),
        SameCommitment (some (.pow pow)) (chainA.get ⟨i, hi⟩) (chainB.get ⟨i, hj⟩) :=
  tip_hash_commits (by decide) verifies_chainA verifies_chainB rfl rfl (tranHashIs_block _ _)
    (tranHashIs_block _ _) dumpsInjective bodies_mem noCollision

end OneTip

end EasyBlockchain
