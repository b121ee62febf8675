/-
`blockchain.py`: the chain of a `BlockChain(enable_signature=True)` without a
consensus protocol.

Its blocks carry a signature, which is what protects them: anyone can compute the
hashes. A signature covers a block with its index, and the keys in use may change
from block to block. So an owner's ledger can be checked by anyone who knows its
public keys, and of what passes the checks nothing is changed: it can only be cut.
-/
import EasyBlockchain.AllOrNothing
import EasyBlockchain.BlockStructure
import EasyBlockchain.NodeInit
import EasyBlockchain.PosNetwork
import EasyBlockchain.Readable

set_option autoImplicit false

namespace EasyBlockchain

open Py Lib

section SignedLedger

variable [Runtime] [Rsa]

/-! ## The methods for signatures -/

namespace BlockChain

omit [Runtime] in
/-- `BlockChain(enable_signature=True, genesis_prev_hash=...)`. -/
def signing (genesis_prev_hash : Str) : BlockChain :=
  ⟨[], true, none, genesis_prev_hash, some ⟨none, none⟩⟩

omit [Runtime] in
/-- `generate_key_pair`; which key is drawn is an input. -/
def generate_key_pair (self : BlockChain) (key : Rsa.PrivateKey) :
    Option (Rsa.PrivateKey × Rsa.PublicKey) × BlockChain :=
  match self.enable_signature, self.signature_manager with
  | true, some _ =>
    (some (key, Rsa.public_key key), { self with signature_manager := some (.of_key key) })
  | _, _ => (none, self)

/-- The value `verify_all_signatures` reports for a block. -/
def signature_entry (block : Block) : PyM (Option Bool) := do
  if ← block.has (lit "signature") then
    let verified ← EasyBlockchain.verify_block_signature block
    return some verified
  else return none

omit [Runtime] [Rsa] in
/-- `f"block_{i}"`. -/
def block_key (i : ℕ) : Str := lit "block_" ++ natDigits i

/-- The loop of `verify_all_signatures`. -/
def signature_entries : ℕ → StrDict (Option Bool) → List Block → PyM (StrDict (Option Bool))
  | _, results, [] => .ok results
  | i, results, block :: rest => do
    let entry ← signature_entry block
    signature_entries (i + 1) (results.set (block_key i) entry) rest

def verify_all_signatures (self : BlockChain) : PyM (StrDict (Option Bool)) :=
  match self.enable_signature, self.signature_manager with
  | true, some _ => signature_entries 1 .empty self.chain
  | _, _ => .ok .empty

/-- `verify_block_signature` of `BlockChain`. -/
def verify_block_signature (self : BlockChain) (block_index : ℤ) : PyM Bool :=
  match self.enable_signature, self.signature_manager with
  | true, some _ =>
    if block_index < 1 ∨ self.chain.length < block_index then .ok false
    else
      match self.chain[(block_index - 1).toNat]? with
      | none => .error .indexError
      | some block => do
        if ← block.has (lit "signature") then EasyBlockchain.verify_block_signature block
        else return false
  | _, _ => .ok false

end BlockChain

/-! ## The ledger and its copies -/

/-- A signing chain, the public keys it had, and the blocks it made, each with the
length of the chain it was made on. -/
structure SignedLedger [Rsa] where
  blockchain : BlockChain
  public_keys : List Str
  signed : List (ℕ × Block)

/-- What the owner of a ledger does. -/
inductive LedgerOp [Rsa]
  | generate_key_pair (key : Rsa.PrivateKey)
  | add_new_block (input : BlockChain.LocalInput)
  /-- a block of someone else is appended -/
  | add_block (block : Block)

namespace SignedLedger

omit [Runtime] in
def start (genesis_prev_hash : Str) : SignedLedger := ⟨.signing genesis_prev_hash, [], []⟩

def step (self : SignedLedger) : LedgerOp → SignedLedger
  | .generate_key_pair key => { self with
      blockchain := (self.blockchain.generate_key_pair key).2
      public_keys := self.public_keys ++ [Rsa.public_bytes (Rsa.public_key key)] }
  | .add_new_block input =>
    let (added, blockchain) := self.blockchain.add_new_block input
    match added with
    | .ok block => { self with
        blockchain := blockchain
        signed := self.signed ++ [(self.blockchain.chain.length, block)] }
    | .error _ => { self with blockchain := blockchain }
  | .add_block block => { self with blockchain := (self.blockchain.add_block block true none).2 }

/-- What can happen: a key that is drawn verifies what it signs, and the floats of
a local transaction are read as they are written. -/
def Allows (_ : SignedLedger) : LedgerOp → Prop
  | .generate_key_pair key => Signs (.of_key key) (Rsa.public_bytes (Rsa.public_key key))
  | .add_new_block input => FloatsRead input.transaction
  | .add_block _ => True

/-- What someone holds as a copy of the ledger, of whatever origin: a chain that
verifies, whose signatures are all reported as right, each under a public key of
the ledger. -/
structure PassesAs (ledger : SignedLedger) (copy : BlockChain) : Prop where
  consensus : copy.consensus = none
  enabled : copy.enable_signature = true ∧ copy.signature_manager.isSome
  readable : ∀ block ∈ copy.chain, Readable block
  verifies : Verifies (copy.verify_chain none)
  signatures : ∃ results, copy.verify_all_signatures = .ok results ∧
    ∀ entry ∈ results.entries, entry.2 = some true
  keys : ∀ block ∈ copy.chain, ∃ pem ∈ ledger.public_keys,
    block.item (lit "public_key") = .ok (.str pem)

/-- No signature under a key of the ledger was forged for a block of the chain:
the ledger signed its content. -/
def Unforged (ledger : SignedLedger) (chain : List Block) : Prop :=
  ∀ block ∈ chain, verify_block_signature block = .ok true →
    (∃ pem ∈ ledger.public_keys, block.item (lit "public_key") = .ok (.str pem)) →
    ∃ p ∈ ledger.signed, signed_content p.2 = signed_content block

end SignedLedger

/-! ## What is reported -/

section Reports

omit [Runtime] [Rsa] in
theorem block_key_inj {i j : ℕ} (h : BlockChain.block_key i = BlockChain.block_key j) : i = j :=
  natDigits_injective (List.append_cancel_left h)

/-- The loop reports one value for each block, in order, under the key of its
number. -/
theorem signature_entries_eq_ok {i : ℕ} {results after : StrDict (Option Bool)}
    {blocks : List Block}
    (hfresh : ∀ j, i ≤ j → BlockChain.block_key j ∉ results.entries.map Prod.fst)
    (h : BlockChain.signature_entries i results blocks = .ok after) :
    ∃ entries : List (Option Bool),
      List.Forall₂ (fun block entry => BlockChain.signature_entry block = .ok entry) blocks
          entries ∧
        after.entries = results.entries ++
          entries.mapIdx fun k entry => (BlockChain.block_key (i + k), entry) := by
  induction blocks generalizing i results with
  | nil =>
      obtain rfl := Except.ok.inj h
      exact ⟨[], .nil, by simp⟩
  | cons block rest ih =>
      obtain ⟨entry, hentry, hrest⟩ := bind_eq_ok.mp h
      have hset : (results.set (BlockChain.block_key i) entry).entries
          = results.entries ++ [(BlockChain.block_key i, entry)] :=
        StrDict.setEntries_of_not_mem (hfresh i le_rfl)
      have hfresh' : ∀ j, i + 1 ≤ j → BlockChain.block_key j
          ∉ (results.set (BlockChain.block_key i) entry).entries.map Prod.fst := by
        intro j hj hmem
        rw [hset, List.map_append, List.mem_append] at hmem
        rcases hmem with hmem | hmem
        · exact hfresh j (by omega) hmem
        · have heq := block_key_inj (List.mem_singleton.mp hmem)
          omega
      obtain ⟨entries, hall, hafter⟩ := ih hfresh' hrest
      refine ⟨entry :: entries, .cons hentry hall, ?_⟩
      rw [hafter, hset, List.append_assoc, List.mapIdx_cons]
      simp only [List.singleton_append, Nat.add_zero, Nat.add_assoc, Nat.add_comm 1]

/-- The values are there for blocks that are objects. -/
theorem returns_signature_entry (d : Dict) : Returns (BlockChain.signature_entry (.dict d)) := by
  rw [BlockChain.signature_entry, PyVal.has, ok_bind]
  split
  · exact (returns_bind_iff fun _ => returns_ok).mpr (returns_verify_block_signature d)
  · exact returns_ok

theorem returns_signature_entries {i : ℕ} {results : StrDict (Option Bool)} {blocks : List Block}
    (hobjects : ∀ block ∈ blocks, ∃ d, block = .dict d) :
    Returns (BlockChain.signature_entries i results blocks) := by
  induction blocks generalizing i results with
  | nil => exact returns_ok
  | cons block rest ih =>
      obtain ⟨d, rfl⟩ := hobjects block List.mem_cons_self
      rw [BlockChain.signature_entries, returns_bind]
      exact ⟨returns_signature_entry d,
        fun _ _ => ih fun b hb => hobjects b (List.mem_cons_of_mem _ hb)⟩

/-- `True` is reported for the blocks whose signature verifies. -/
theorem signature_entry_eq_true {block : Block} :
    BlockChain.signature_entry block = .ok (some true) ↔
      verify_block_signature block = .ok true := by
  cases block with
  | dict d =>
      rw [BlockChain.signature_entry, PyVal.has, ok_bind]
      rcases hfind : Dict.find d (lit "signature") with _ | signature
      · simp [verify_block_signature, hfind]
      · simp only [Option.isSome_some, if_true, bind_eq_ok, pure_eq, Except.ok.injEq,
          Option.some.injEq, exists_eq_right]
  | _ => simp [BlockChain.signature_entry, PyVal.has, verify_block_signature]

variable {self : BlockChain}

/-- What `verify_all_signatures` reports, block by block. -/
theorem verify_all_signatures_eq_ok (henabled : self.enable_signature = true)
    (hmanager : self.signature_manager.isSome) {results : StrDict (Option Bool)}
    (h : self.verify_all_signatures = .ok results) :
    ∃ entries : List (Option Bool),
      List.Forall₂ (fun block entry => BlockChain.signature_entry block = .ok entry)
        self.chain entries ∧
      results.entries = entries.mapIdx fun k entry => (BlockChain.block_key (k + 1), entry) := by
  obtain ⟨manager, hmanager⟩ := Option.isSome_iff_exists.mp hmanager
  rw [BlockChain.verify_all_signatures, henabled, hmanager] at h
  obtain ⟨entries, hall, hentries⟩ := signature_entries_eq_ok (fun _ _ => by simp [StrDict.empty]) h
  refine ⟨entries, hall, ?_⟩
  rw [hentries]
  simp only [StrDict.empty, List.nil_append, Nat.add_comm 1]

/-- If all that is reported is `True`, all signatures verify. -/
theorem verified_of_all_true (henabled : self.enable_signature = true)
    (hmanager : self.signature_manager.isSome) {results : StrDict (Option Bool)}
    (h : self.verify_all_signatures = .ok results)
    (hall : ∀ entry ∈ results.entries, entry.2 = some true) :
    ∀ block ∈ self.chain, verify_block_signature block = .ok true := by
  obtain ⟨entries, hforall, hentries⟩ := verify_all_signatures_eq_ok henabled hmanager h
  intro block hblock
  obtain ⟨k, hk, rfl⟩ := List.mem_iff_getElem.mp hblock
  have hk' : k < entries.length := by rwa [← hforall.length_eq]
  have hentry : BlockChain.signature_entry self.chain[k] = .ok entries[k] :=
    (List.forall₂_iff_get.mp hforall).2 k hk hk'
  have hmem : (BlockChain.block_key (k + 1), entries[k]) ∈ results.entries := by
    rw [hentries, List.mem_iff_getElem]
    exact ⟨k, by simpa using hk', by simp⟩
  have htrue : entries[k] = some true := hall _ hmem
  rw [htrue] at hentry
  exact signature_entry_eq_true.mp hentry

/-- The signature of one block, by its number. -/
theorem verify_block_signature_of_verified (henabled : self.enable_signature = true)
    {manager : SignatureManager} (hmanager : self.signature_manager = some manager) {n : ℕ}
    {block : Block} (hblock : self.chain[n]? = some block)
    (hverified : verify_block_signature block = .ok true) :
    self.verify_block_signature (n + 1 : ℕ) = .ok true := by
  obtain ⟨hlt, -⟩ := List.getElem?_eq_some_iff.mp hblock
  have hrange : ¬ (((n + 1 : ℕ) : ℤ) < 1 ∨ (self.chain.length : ℤ) < (n + 1 : ℕ)) := by omega
  have hindex : (((n + 1 : ℕ) : ℤ) - 1).toNat = n := by omega
  have hentry := signature_entry_eq_true.mpr hverified
  obtain ⟨signed, hhas, hreport⟩ := bind_eq_ok.mp hentry
  simp only [BlockChain.verify_block_signature, henabled, hmanager, if_neg hrange, hindex, hblock,
    hhas, ok_bind]
  cases signed with
  | false => cases hreport
  | true => exact hverified

end Reports

/-! ## The owner's blocks -/

section Own

variable {self : BlockChain}

/-- The block that a signing chain makes. -/
theorem signed_local_block (hlegacy : self.consensus = none)
    (henabled : self.enable_signature = true)
    {manager : SignatureManager} (hmanager : self.signature_manager = some manager)
    {input : BlockChain.LocalInput} {block : Block}
    (h : (self.draft_block input >>= self.complete_block input) = .ok block) :
    ∃ key pem content prev_hash tran_hash, ∃ m n : ℕ, manager.private_key = some key ∧
      export_public_key manager = .ok pem ∧ input.input_data.len = .ok m ∧
      input.output_data.len = .ok n ∧
      signed_bytes (local_entries (self.chain.length + 1) (m + n) (strftime input.clock)
        [(.str (lit "prev_hash"), .str prev_hash), (.str (lit "tran_hash"), .str tran_hash)]
        input.transaction) = .ok content ∧
      block = .dict (local_entries (self.chain.length + 1) (m + n) (strftime input.clock)
        [(.str (lit "prev_hash"), .str prev_hash), (.str (lit "tran_hash"), .str tran_hash)]
        input.transaction ++ [(.str (lit "signature"), .str (toHex (Rsa.sign key input.salt content))),
          (.str (lit "public_key"), .str pem)]) := by
  obtain ⟨draft, hdraft, hcomplete⟩ := bind_eq_ok.mp h
  simp only [BlockChain.draft_block, BlockChain.draft_header, hlegacy, bind_eq_ok, pure_eq,
    Except.ok.injEq] at hdraft
  obtain ⟨prev, -, body_hash, -, _, ⟨tran_hash, htran, rfl⟩, m, hm, n, hn, rfl⟩ := hdraft
  -- the hash of a value that is not a string would have raised
  obtain ⟨prev_hash, rfl⟩ : ∃ s, prev = .str s := by
    simp only [calc_legacy_tran_hash, bind_eq_ok, concat_eq_ok] at htran
    obtain ⟨_, ⟨s, hs, -⟩, -⟩ := htran
    exact ⟨s, hs⟩
  simp only [BlockChain.complete_block, hlegacy, henabled, hmanager] at hcomplete
  split at hcomplete
  · cases hcomplete
  · simp only [sign_block, bind_eq_ok, pure_eq, Except.ok.injEq, orRaise_eq_ok] at hcomplete
    obtain ⟨_, ⟨key, hkey, content, hcontent, pem, hpem, rfl⟩, rfl⟩ := hcomplete
    exact ⟨key, pem, content, prev_hash, tran_hash, m, n, hkey, hpem, hm, hn, hcontent, rfl⟩

/-- A block that was made on a chain of so many blocks: its index says so, and its
signature verifies. -/
structure OwnBlock (n : ℕ) (block : Block) : Prop where
  legible : Legible block
  index : block.item (lit "block_index") = .ok (.int (n + 1 : ℕ))
  verified : verify_block_signature block = .ok true

theorem ownBlock_of_made (hlegacy : self.consensus = none) (henabled : self.enable_signature = true)
    {manager : SignatureManager} (hmanager : self.signature_manager = some manager)
    (hsigns : manager.private_key = none ∨ ∃ pem, Signs manager pem)
    {input : BlockChain.LocalInput} (hfloats : FloatsRead input.transaction) {block : Block}
    (h : (self.draft_block input >>= self.complete_block input) = .ok block) :
    OwnBlock self.chain.length block := by
  obtain ⟨key, pem, content, prev_hash, tran_hash, m, n, hkey, hpem, hm, hn, hcontent, rfl⟩ :=
    signed_local_block hlegacy henabled hmanager h
  have hheader : Record [(.str (lit "prev_hash"), .str prev_hash),
      (.str (lit "tran_hash"), .str tran_hash)] :=
    record_of_keys [lit "prev_hash", lit "tran_hash"] rfl (by decide) (by decide)
  have hform : LocalForm self input (m + n) _ _ :=
    local_form _ hm hn (Or.inr ⟨toHex (Rsa.sign key input.salt content), pem, rfl⟩) hheader
      (by simp [Atom]) (by simp)
  refine ⟨⟨_, _, rfl, hform.built.record.object, hform.built.has_header,
    hform.built.header_record.object, hform.built.floatsRead hfloats⟩, rfl, ?_⟩
  have hsigned : SignedBy pem (toHex (Rsa.sign key input.salt content)) content := by
    rcases hsigns with hnone | ⟨pem', key', hkey', hpem', hsigned⟩
    · rw [hkey] at hnone
      cases hnone
    · rw [hkey, Option.some.injEq] at hkey'
      rw [hpem, Except.ok.injEq] at hpem'
      rw [hkey', hpem']
      exact hsigned input.salt content
  exact verify_block_signature_eq_true.mpr ⟨_, pem, content, rfl, rfl, hcontent, hsigned⟩

end Own

/-! ## The invariant -/

namespace SignedLedger

/-- Nothing but the chain and the keys changes; what can be verified can be read;
and the blocks that were made stand where they were put. -/
structure Sound (ledger : SignedLedger) : Prop where
  consensus : ledger.blockchain.consensus = none
  enabled : ledger.blockchain.enable_signature = true
  manager : ∃ manager, ledger.blockchain.signature_manager = some manager ∧
    (manager.private_key = none ∨ ∃ pem, Signs manager pem)
  objects : ∀ block ∈ ledger.blockchain.chain, ∃ d, block = .dict d
  own : ∀ p ∈ ledger.signed, ledger.blockchain.chain[p.1]? = some p.2 ∧ OwnBlock p.1 p.2

theorem Sound.start (genesis_prev_hash : Str) : (start genesis_prev_hash).Sound where
  consensus := rfl
  enabled := rfl
  manager := ⟨⟨none, none⟩, rfl, Or.inl rfl⟩
  objects _ h := by cases h
  own _ h := by cases h

variable {ledger : SignedLedger}

/-- One more block leaves the others where they are. -/
theorem Sound.append (h : ledger.Sound) {block : Block} (hblock : ∃ d, block = .dict d) :
    ({ ledger with blockchain := ledger.blockchain.appended block } : SignedLedger).Sound where
  consensus := by simp [BlockChain.appended, h.consensus]
  enabled := h.enabled
  manager := h.manager
  objects b hb := by
    rcases List.mem_append.mp hb with hb | hb
    · exact h.objects b hb
    · rw [List.mem_singleton.mp hb]
      exact hblock
  own p hp := by
    obtain ⟨hplace, hown⟩ := h.own p hp
    exact ⟨List.getElem?_append_left (List.getElem?_eq_some_iff.mp hplace).1 ▸ hplace, hown⟩

/-- What an operation can do to a ledger. -/
theorem Sound.step_cases (h : ledger.Sound) (op : LedgerOp) :
    ledger.step op = ledger ∨
    (∃ key, op = .generate_key_pair key ∧ ledger.step op = { ledger with
      blockchain := { ledger.blockchain with signature_manager := some (.of_key key) }
      public_keys := ledger.public_keys ++ [Rsa.public_bytes (Rsa.public_key key)] }) ∨
    (∃ input block, op = .add_new_block input ∧
      (ledger.blockchain.draft_block input >>= ledger.blockchain.complete_block input) = .ok block ∧
      ledger.step op = { ledger with
        blockchain := ledger.blockchain.appended block
        signed := ledger.signed ++ [(ledger.blockchain.chain.length, block)] }) ∨
    ∃ block, op = .add_block block ∧ ledger.blockchain.received_checks block none = .ok true ∧
      ledger.step op = { ledger with blockchain := ledger.blockchain.appended block } := by
  obtain ⟨manager, hmanager, -⟩ := h.manager
  cases op with
  | generate_key_pair key =>
      refine Or.inr (Or.inl ⟨key, rfl, ?_⟩)
      simp only [SignedLedger.step, BlockChain.generate_key_pair, h.enabled, hmanager]
  | add_new_block input =>
      rcases hmade : ledger.blockchain.draft_block input >>= ledger.blockchain.complete_block input
        with e | block
      · refine Or.inl ?_
        simp only [SignedLedger.step, add_new_block_raises hmade]
      · refine Or.inr (Or.inr (Or.inl ⟨input, block, rfl, hmade, ?_⟩))
        simp only [SignedLedger.step, add_new_block_ok hmade]
  | add_block block =>
      rcases hchecks : ledger.blockchain.received_checks block none with e | _ | _
      · refine Or.inl ?_
        simp only [SignedLedger.step, add_block_error hchecks]
      · refine Or.inl ?_
        simp only [SignedLedger.step, add_block_false hchecks]
      · refine Or.inr (Or.inr (Or.inr ⟨block, rfl, hchecks, ?_⟩))
        simp only [SignedLedger.step, add_block_true hchecks]

/-- The step lemma. -/
theorem Sound.step (h : ledger.Sound) {op : LedgerOp} (hallowed : ledger.Allows op) :
    (ledger.step op).Sound := by
  rcases h.step_cases op with hstep | ⟨key, rfl, hstep⟩ | ⟨input, block, rfl, hmade, hstep⟩
      | ⟨block, rfl, hchecks, hstep⟩
  · rwa [hstep]
  · rw [hstep]
    exact ⟨h.consensus, h.enabled, ⟨_, rfl, Or.inr ⟨_, hallowed⟩⟩, h.objects, h.own⟩
  · obtain ⟨manager, hmanager, hsigns⟩ := h.manager
    have hown := ownBlock_of_made h.consensus h.enabled hmanager hsigns hallowed hmade
    obtain ⟨d, header, rfl, -⟩ := hown.legible
    have happended := h.append ⟨d, rfl⟩
    rw [hstep]
    refine ⟨happended.consensus, happended.enabled, happended.manager, happended.objects, ?_⟩
    intro p hp
    -- the new block stands at the length of the chain it was made on
    rcases List.mem_append.mp hp with hp | hp
    · exact happended.own p hp
    · rw [List.mem_singleton.mp hp]
      exact ⟨by simp [BlockChain.appended], hown⟩
  · -- a block of someone else passed the checks, which read its index
    obtain ⟨index, hindex, -⟩ := (checked_of_received hchecks).index
    obtain ⟨d, hd, -⟩ := PyVal.item_eq_ok.mp hindex
    rw [hstep]
    exact h.append ⟨d, hd⟩

/-- The run lemma. -/
theorem Sound.run_take (h : ledger.Sound) {ops : List LedgerOp}
    (hallowed : AlwaysMeets Allows SignedLedger.step ledger ops) (k : ℕ) :
    (run SignedLedger.step ledger (ops.take k)).Sound :=
  run_invariant_take (fun _ _ hsound hop => hsound.step hop) h hallowed k

/-- What is reported about the ledger. -/
theorem Sound.reports (h : ledger.Sound) :
    ∃ results, ledger.blockchain.verify_all_signatures = .ok results ∧
      results.keys = (List.range ledger.blockchain.chain.length).map
        (fun n => BlockChain.block_key (n + 1)) ∧
      ∀ p ∈ ledger.signed, ledger.blockchain.chain[p.1]? = some p.2 ∧
        results.find (BlockChain.block_key (p.1 + 1)) = some (some true) ∧
        ledger.blockchain.verify_block_signature (p.1 + 1 : ℕ) = .ok true := by
  obtain ⟨manager, hmanager, -⟩ := h.manager
  have hsome : ledger.blockchain.signature_manager.isSome := by rw [hmanager]; rfl
  obtain ⟨results, hresults⟩ : Returns ledger.blockchain.verify_all_signatures := by
    rw [BlockChain.verify_all_signatures, h.enabled, hmanager]
    exact returns_signature_entries h.objects
  obtain ⟨entries, hall, hentries⟩ := verify_all_signatures_eq_ok h.enabled hsome hresults
  refine ⟨results, hresults, ?_, ?_⟩
  · rw [StrDict.keys, hentries, hall.length_eq]
    apply List.ext_getElem
    · simp
    · intro n _ _
      simp
  · intro p hp
    obtain ⟨hplace, hown⟩ := h.own p hp
    obtain ⟨hlt, hblock⟩ := List.getElem?_eq_some_iff.mp hplace
    have hlt' : p.1 < entries.length := by rwa [← hall.length_eq]
    have hentry : BlockChain.signature_entry ledger.blockchain.chain[p.1] = .ok entries[p.1] :=
      (List.forall₂_iff_get.mp hall).2 p.1 hlt hlt'
    rw [hblock, signature_entry_eq_true.mpr hown.verified, Except.ok.injEq] at hentry
    refine ⟨hplace, ?_, ?_⟩
    · rw [StrDict.find, StrDict.lookup_eq_some_iff_mem results.nodup, hentries,
        List.mem_iff_getElem]
      exact ⟨p.1, by simpa using hlt', by simp [hentry]⟩
    · exact verify_block_signature_of_verified h.enabled hmanager hplace hown.verified

/-! ## Copies -/

omit [Rsa] in
/-- Indices that are integers and follow each other are the heights. -/
theorem heightIs_of_ints {g expected : Str} {chain : List Block}
    (h : Grows (Checked g expected) chain)
    (hints : ∀ block ∈ chain, ∃ i : ℤ, block.item (lit "block_index") = .ok (.int i)) :
    ∀ (k : ℕ) (hk : k < chain.length), Consensus.HeightIs chain[k] (k + 1) := by
  induction chain using List.reverseRecOn with
  | nil =>
      intro k hk
      simp at hk
  | append_singleton chain block ih =>
      obtain ⟨hgrows, hchecked⟩ := grows_snoc.mp h
      have hseen := ih hgrows fun b hb => hints b (List.mem_append_left _ hb)
      have hlast : ∀ last, chain.getLast? = some last → Consensus.HeightIs last chain.length := by
        intro last hlast
        obtain ⟨hlt, rfl⟩ := List.getElem?_eq_some_iff.mp
          (List.getLast?_eq_getElem? (l := chain) ▸ hlast)
        have hheight := hseen _ hlt
        rwa [Nat.sub_add_cancel (by omega)] at hheight
      intro k hk
      rcases Nat.lt_or_ge k chain.length with hlt | hge
      · rw [List.getElem_append_left hlt]
        exact hseen k hlt
      · obtain rfl : k = chain.length := by
          rw [List.length_append, List.length_singleton] at hk
          omega
        rw [List.getElem_concat_length rfl]
        exact Consensus.heightIs_of_indexFollows hchecked.index
          (hints block (List.mem_append_right _ List.mem_cons_self)) hlast

/-- What passes as a copy is a beginning of the ledger, as the bytes that were
signed. -/
theorem Sound.prefix_of_passes (h : ledger.Sound) {copy : BlockChain} (hcopy : ledger.PassesAs copy)
    (hunforged : ledger.Unforged copy.chain) :
    copy.chain.map signed_content <+: ledger.blockchain.chain.map signed_content := by
  have hverifies := hcopy.verifies
  rw [BlockChain.verify_chain, hcopy.consensus] at hverifies
  have hchecked := checked_of_verifies hverifies
  obtain ⟨results, hresults, hall⟩ := hcopy.signatures
  have hverified := verified_of_all_true hcopy.enabled.1 hcopy.enabled.2 hresults hall
  -- each block has the content, and so the index, of a block of the owner
  have hown : ∀ (k : ℕ) (hk : k < copy.chain.length), ∃ p ∈ ledger.signed,
      signed_content p.2 = signed_content copy.chain[k] ∧
        copy.chain[k].item (lit "block_index") = .ok (.int (p.1 + 1 : ℕ)) := by
    intro k hk
    have hmem := List.getElem_mem hk
    obtain ⟨p, hp, hcontent⟩ := hunforged _ hmem (hverified _ hmem) (hcopy.keys _ hmem)
    obtain ⟨-, hownblock⟩ := h.own p hp
    have hstep := hchecked.getElem hk
    have hlegible : Legible copy.chain[k] := by
      rcases hstep.link with ⟨prev, hprev, -⟩ | ⟨prev, hprev, -⟩
      · exact legible_of_readable (hcopy.readable _ hmem) hprev
      · exact legible_of_readable (hcopy.readable _ hmem) hprev
    obtain ⟨index, hindex, -⟩ := hstep.index
    obtain ⟨d, -, hd, -⟩ := hownblock.legible
    have hsome : (signed_content p.2).isSome := by
      have hown_verified := hownblock.verified
      rw [hd] at hown_verified ⊢
      obtain ⟨_, _, content, -, -, hbytes, -⟩ := verify_block_signature_eq_true.mp hown_verified
      simp [signed_content, hbytes, Except.toOption]
    have hread := item_of_content hlegible hownblock.legible hcontent.symm (hcontent ▸ hsome)
      (plain_of_all (by decide)) (by decide) (by decide) hindex hownblock.index
    exact ⟨p, hp, hcontent, by rw [hindex, eq_int_of_reread hread]⟩
  have hints : ∀ block ∈ copy.chain, ∃ i : ℤ, block.item (lit "block_index") = .ok (.int i) := by
    intro block hblock
    obtain ⟨k, hk, rfl⟩ := List.mem_iff_getElem.mp hblock
    obtain ⟨p, -, -, hindex⟩ := hown k hk
    exact ⟨_, hindex⟩
  rw [List.prefix_iff_getElem?]
  intro k hk
  rw [List.length_map] at hk
  obtain ⟨p, hp, hcontent, hindex⟩ := hown k hk
  rw [heightIs_of_ints hchecked hints k hk, Except.ok.injEq, PyVal.int.injEq] at hindex
  have hplace := (h.own p hp).1
  obtain rfl : p.1 = k := by omega
  rw [List.getElem?_map, hplace, List.getElem_map, Option.map_some, hcontent]

/-! ## Runs -/

/-- No operation takes a block back. -/
theorem chain_prefix_step (h : ledger.Sound) (op : LedgerOp) :
    ledger.blockchain.chain <+: (ledger.step op).blockchain.chain := by
  rcases h.step_cases op with hstep | ⟨_, -, hstep⟩ | ⟨_, block, -, -, hstep⟩
      | ⟨block, -, -, hstep⟩
  · rw [hstep]
  · rw [hstep]
  · rw [hstep]
    exact List.prefix_append _ _
  · rw [hstep]
    exact List.prefix_append _ _

/-- The ledger after some operations. -/
def after (genesis_prev_hash : Str) (ops : List LedgerOp) (k : ℕ) : SignedLedger :=
  run SignedLedger.step (start genesis_prev_hash) (ops.take k)

section Run

variable {genesis_prev_hash : Str} {ops : List LedgerOp}
  (hallowed : AlwaysMeets Allows SignedLedger.step (start genesis_prev_hash) ops)
include hallowed

theorem chain_prefix_after {j k : ℕ} (hjk : j ≤ k) :
    (after genesis_prev_hash ops j).blockchain.chain
      <+: (after genesis_prev_hash ops k).blockchain.chain := by
  induction k, hjk using Nat.le_induction with
  | base => exact List.prefix_rfl
  | succ k _ ih =>
      refine ih.trans ?_
      rcases hop : ops[k]? with _ | op
      · -- the run is over
        have hlength : ops.length ≤ k := List.getElem?_eq_none_iff.mp hop
        rw [after, after, List.take_of_length_le hlength, List.take_of_length_le (by omega)]
      · have hsucc : after genesis_prev_hash ops (k + 1)
            = (after genesis_prev_hash ops k).step op := run_take_succ _ _ hop
        rw [hsucc]
        exact chain_prefix_step ((Sound.start genesis_prev_hash).run_take hallowed k) op

/-- A signed ledger cannot be rewritten. At every time of every run, each block its
owner made stands where it was put and is reported as signed, with whatever key it
was made; and whatever passed as a copy of the ledger, then or before, is a
beginning of it, unless a signature was forged. -/
theorem cannot_be_rewritten (k : ℕ) :
    (∃ results, (after genesis_prev_hash ops k).blockchain.verify_all_signatures = .ok results ∧
      results.keys = (List.range (after genesis_prev_hash ops k).blockchain.chain.length).map
        (fun n => BlockChain.block_key (n + 1)) ∧
      ∀ p ∈ (after genesis_prev_hash ops k).signed,
        (after genesis_prev_hash ops k).blockchain.chain[p.1]? = some p.2 ∧
        results.find (BlockChain.block_key (p.1 + 1)) = some (some true) ∧
        (after genesis_prev_hash ops k).blockchain.verify_block_signature (p.1 + 1 : ℕ)
          = .ok true) ∧
    ∀ (j : ℕ) (copy : BlockChain), j ≤ k → (after genesis_prev_hash ops j).PassesAs copy →
      (after genesis_prev_hash ops j).Unforged copy.chain →
      copy.chain.map signed_content
        <+: (after genesis_prev_hash ops k).blockchain.chain.map signed_content := by
  have hsound : ∀ j, (after genesis_prev_hash ops j).Sound :=
    (Sound.start genesis_prev_hash).run_take hallowed
  constructor
  · exact (hsound k).reports
  · intro j copy hjk hcopy hunforged
    exact ((hsound j).prefix_of_passes hcopy hunforged).trans
      ((chain_prefix_after hallowed hjk).map signed_content)

end Run

end SignedLedger

end SignedLedger

/-! ## A ledger of one block -/

namespace OneEntry

attribute [local instance] cpython letterRsa

/-- The key `A` is drawn, and a block is made. -/
def ops : List LedgerOp := [.generate_key_pair (0 : Fin 26), .add_new_block Proposals.input]

/-- The chain with its key. -/
def keyed : BlockChain :=
  ((BlockChain.signing DEFAULT_GENESIS_PREV_HASH).generate_key_pair (0 : Fin 26)).2

@[irreducible] def made : Block :=
  (keyed.draft_block Proposals.input >>= keyed.complete_block Proposals.input).toOption.getD .none

theorem made_eq :
    (keyed.draft_block Proposals.input >>= keyed.complete_block Proposals.input) = .ok made := by
  have hok : (keyed.draft_block Proposals.input
      >>= keyed.complete_block Proposals.input).toOption.isSome = true := by
    decide +kernel
  unfold made
  rcases hmade : keyed.draft_block Proposals.input >>= keyed.complete_block Proposals.input
    with e | block
  · rw [hmade] at hok
    cases hok
  · rfl

theorem ledger_eq : SignedLedger.after DEFAULT_GENESIS_PREV_HASH ops 2
    = ⟨keyed.appended made, [lit "-----A"], [(0, made)]⟩ := by
  have hpem : Rsa.public_bytes (Rsa.public_key (0 : Fin 26)) = lit "-----A" := by decide +kernel
  have hkeyed : SignedLedger.step (.start DEFAULT_GENESIS_PREV_HASH) (.generate_key_pair (0 : Fin 26))
      = ⟨keyed, [Rsa.public_bytes (Rsa.public_key (0 : Fin 26))], []⟩ := rfl
  rw [SignedLedger.after, ops, List.take_of_length_le (by simp), run, List.foldl_cons,
    List.foldl_cons, List.foldl_nil, hkeyed, hpem, SignedLedger.step, add_new_block_ok made_eq]
  rfl

theorem allowed :
    AlwaysMeets SignedLedger.Allows SignedLedger.step (.start DEFAULT_GENESIS_PREV_HASH) ops :=
  ⟨Proposals.signs, ⟨trivial, trivial, trivial⟩, trivial⟩

/-- What a reader has who got the block. -/
def copy : BlockChain := { BlockChain.signing DEFAULT_GENESIS_PREV_HASH with chain := [made] }

theorem verified : verify_block_signature made = .ok true := by
  have hfloats : FloatsRead Proposals.input.transaction := ⟨trivial, trivial, trivial⟩
  exact (ownBlock_of_made rfl rfl rfl (Or.inr ⟨_, Proposals.signs⟩) hfloats made_eq).verified

theorem readable_and_keyed :
    Readable made ∧ made.item (lit "public_key") = .ok (.str (lit "-----A")) := by
  obtain ⟨_, pem, _, _, _, _, _, -, hpem, -, -, -, hshape⟩ := signed_local_block rfl rfl rfl made_eq
  obtain rfl := Except.ok.inj hpem
  rw [hshape]
  refine ⟨?_, rfl⟩
  -- every value is a string, a number or an object; what is left is that the keys differ
  refine ⟨trivial, ?_, trivial, ?_, ⟨trivial, ?_, trivial, ?_, trivial⟩, ?_, trivial, ?_,
    ⟨trivial, ?_, trivial, ?_, trivial⟩, ?_, trivial, ?_, trivial, ?_, trivial⟩
  all_goals rfl

theorem passes : (SignedLedger.after DEFAULT_GENESIS_PREV_HASH ops 2).PassesAs copy where
  consensus := rfl
  enabled := ⟨rfl, rfl⟩
  readable block hblock := by
    rw [List.mem_singleton.mp hblock]
    exact readable_and_keyed.1
  verifies := by
    have hstep : VerifyStep none DEFAULT_GENESIS_PREV_HASH [] made :=
      (legacy_local_step_iff rfl made_eq).mpr fun tip htip => by cases htip
    exact legacy_verifies_iff.mpr ⟨hstep, trivial⟩
  signatures := by
    refine ⟨.single (BlockChain.block_key 1) (some true), ?_, ?_⟩
    · have hentry := signature_entry_eq_true.mpr verified
      rw [BlockChain.verify_all_signatures]
      change BlockChain.signature_entries 1 .empty [made] = _
      rw [BlockChain.signature_entries, hentry]
      rfl
    · intro entry hentry
      rw [List.mem_singleton.mp hentry]
  keys block hblock := by
    rw [List.mem_singleton.mp hblock, ledger_eq]
    exact ⟨_, List.mem_cons_self, readable_and_keyed.2⟩

theorem unforged : (SignedLedger.after DEFAULT_GENESIS_PREV_HASH ops 2).Unforged copy.chain := by
  intro block hblock _ _
  rw [List.mem_singleton.mp hblock, ledger_eq]
  exact ⟨(0, made), List.mem_cons_self, rfl⟩

/-- The block is reported as signed, and what the reader has is a beginning of the
ledger. -/
theorem entry_not_rewritten :
    (keyed.appended made).verify_block_signature 1 = .ok true ∧
      [signed_content made] <+: (keyed.appended made).chain.map signed_content := by
  have hrun := SignedLedger.cannot_be_rewritten allowed 2
  rw [ledger_eq] at hrun
  obtain ⟨⟨_, -, -, hreports⟩, -⟩ := hrun
  have hcopy := (SignedLedger.cannot_be_rewritten allowed 2).2 2 copy le_rfl passes unforged
  rw [ledger_eq] at hcopy
  exact ⟨(hreports (0, made) List.mem_cons_self).2.2, hcopy⟩

end OneEntry

end EasyBlockchain
