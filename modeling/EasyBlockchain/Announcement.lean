/-
A local block at another node.

The producer hashes and signs Python objects; the other node hashes and verifies
what `decode_message` makes of their JSON text. The block itself is built of
records with plain keys, so whether the other node accepts it depends on the
transaction alone: on whether its sorted text survives the round trip.
-/
import EasyBlockchain.HashCommitment
import EasyBlockchain.Messages
import EasyBlockchain.PosProducer
import EasyBlockchain.Py.JsonRecord

set_option autoImplicit false

namespace EasyBlockchain

open Py Lib

section Announcement

variable [Runtime] [Rsa]

/-! ## Blocks as records -/

/-- A string or an integer. -/
def Atom (v : PyVal) : Prop := (∃ s, v = .str s) ∨ ∃ i, v = .int i

/-- A block that consists of records, around its transaction. -/
structure BuiltBlock (d header : Dict) (body : PyVal) : Prop where
  record : Record d
  header_record : Record header
  has_header : Dict.find d (lit "block_header") = some (.dict header)
  has_body : Dict.find d (lit "tran_body") = some body
  entries : ∀ p ∈ d, p.2 = .dict header ∨ p.2 = body ∨ Atom p.2
  header_entries : ∀ p ∈ header, Atom p.2

/-- The block that another node gets. -/
def transmitted (block : Block) : Block := reread sortedAscii block

variable {d header : Dict} {body : PyVal}

omit [Rsa] in
theorem transmitted_str {s : Str} (h : Scalars s) : transmitted (.str s) = .str s := by
  rw [transmitted, reread, rereadStr_of_scalars _ h]

omit [Rsa] in
theorem BuiltBlock.item (h : BuiltBlock d header body) {key : Str} {v : PyVal}
    (hv : Dict.find d key = some v) : (transmitted (.dict d)).item key = .ok (transmitted v) := by
  rw [transmitted, h.record.reread_eq rfl, PyVal.item_dict, find_rereadRecord, hv]
  rfl

omit [Rsa] in
theorem BuiltBlock.headerIs (h : BuiltBlock d header body) {key : Str} {v : PyVal}
    (hv : HeaderIs (.dict d) key v) : HeaderIs (transmitted (.dict d)) key (transmitted v) := by
  rw [headerIs_dict h.has_header] at hv
  refine ⟨transmitted (.dict header), h.item h.has_header, ?_⟩
  rw [transmitted, h.header_record.reread_eq rfl, PyVal.item_dict, find_rereadRecord, hv]
  rfl

omit [Rsa] in
theorem BuiltBlock.headerIs_str (h : BuiltBlock d header body) {key s : Str} (hs : Scalars s)
    (hv : HeaderIs (.dict d) key (.str s)) : HeaderIs (transmitted (.dict d)) key (.str s) := by
  rw [← transmitted_str hs]
  exact h.headerIs hv

omit [Rsa] in
/-- Whether the keys of a block are stable depends on its transaction. -/
theorem BuiltBlock.keysStable (h : BuiltBlock d header body) (hbody : KeysStable true body) :
    ∀ p ∈ d, KeysStable true p.2 := by
  have hatom : ∀ v, Atom v → KeysStable true v := by
    rintro v (⟨s, rfl⟩ | ⟨i, rfl⟩)
    · trivial
    · trivial
  intro p hp
  rcases h.entries p hp with hv | hv | hv
  · rw [hv, h.header_record.keysStable]
    exact fun q hq => hatom q.2 (h.header_entries q hq)
  · rw [hv]
    exact hbody
  · exact hatom p.2 hv

omit [Rsa] in
theorem BuiltBlock.floatsRead (h : BuiltBlock d header body) (hbody : FloatsRead body) :
    FloatsRead (.dict d) := by
  have hatom : ∀ v, Atom v → FloatsRead v := by
    rintro v (⟨s, rfl⟩ | ⟨i, rfl⟩)
    · trivial
    · trivial
  rw [FloatsRead, floatsReadDict_iff]
  intro p hp
  rcases h.entries p hp with hv | hv | hv
  · rw [hv, FloatsRead, floatsReadDict_iff]
    exact fun q hq => hatom q.2 (h.header_entries q hq)
  · rw [hv]
    exact hbody
  · exact hatom p.2 hv

omit [Rsa] in
/-- A block can be written when its integers and its transaction can. -/
theorem BuiltBlock.dumps_isOk (h : BuiltBlock d header body)
    (hbody : ∃ text, dumps sortedAscii body = .ok text) :
    (∃ text, dumps sortedAscii (.dict d) = .ok text) ↔
      ∀ p ∈ d ++ header, ∀ i, p.2 = .int i → (strOfInt i).isSome := by
  have hatom : ∀ v level, Atom v → ((∃ text, dumpsAt sortedAscii level v = .ok text) ↔
      ∀ i, v = .int i → (strOfInt i).isSome) := by
    rintro v level (⟨s, rfl⟩ | ⟨i, rfl⟩)
    · exact iff_of_true ⟨_, rfl⟩ (by simp)
    · simp [dumpsAt, orRaise_eq_ok, Option.isSome_iff_exists]
  have hheader : (∃ text, dumpsAt sortedAscii 1 (.dict header) = .ok text) ↔
      ∀ p ∈ header, ∀ i, p.2 = .int i → (strOfInt i).isSome := by
    rw [h.header_record.dumps_isOk rfl]
    exact forall₂_congr fun p hp => hatom p.2 _ (h.header_entries p hp)
  obtain ⟨text, htext⟩ := hbody
  have hbody : dumpsAt sortedAscii 1 body = .ok text := by
    rw [dumpsAt_level rfl body 1 0]
    exact htext
  rw [dumps, h.record.dumps_isOk rfl]
  constructor
  · intro hall p hp i hi
    rcases List.mem_append.mp hp with hp | hp
    · exact (hatom p.2 1 (Or.inr ⟨i, hi⟩)).mp (hall p hp) i hi
    · have hmem : (PyKey.str (lit "block_header"), PyVal.dict header) ∈ d := by
        obtain ⟨before, after, hd, -⟩ := List.lookup_eq_some_iff.mp h.has_header
        rw [hd]
        simp
      exact hheader.mp (hall _ hmem) p hp i hi
  · intro hall p hp
    rcases h.entries p hp with hv | hv | hv
    · rw [hv]
      exact hheader.mpr fun q hq => hall q (List.mem_append_right d hq)
    · rw [hv]
      exact ⟨text, hbody⟩
    · exact (hatom p.2 1 hv).mpr fun i hi => hall p (List.mem_append_left header hp) i hi

/-! ## What a local block consists of -/

omit [Runtime] [Rsa] in
/-- A dictionary with different plain keys. -/
theorem record_of_keys (keys : List Str) (h : d.map Prod.fst = keys.map PyKey.str)
    (hkeys : keys.all (fun k => !k.any isSurrogate) = true) (hnodup : keys.Nodup) : Record d where
  str p hp := by
    have hmem : p.1 ∈ keys.map PyKey.str := h ▸ List.mem_map_of_mem hp
    obtain ⟨k, hk, heq⟩ := List.mem_map.mp hmem
    exact ⟨k, heq.symm, scalars_of_any (by simpa using List.all_eq_true.mp hkeys k hk)⟩
  nodup := by
    rw [h]
    exact hnodup.map fun _ _ => PyKey.str.inj

/-- The block that is built from an input on a chain. The integers in its header
are its height or have a text. -/
structure LocalForm (blockchain : BlockChain) (input : BlockChain.LocalInput) (counter : ℕ)
    (d header : Dict) : Prop where
  built : BuiltBlock d header input.transaction
  index : Dict.find d (lit "block_index") = some (.int (blockchain.chain.length + 1 : ℕ))
  item : Dict.find d (lit "block_item") = some (.str (strftime input.clock))
  counted : Dict.find d (lit "tran_counter") = some (.int counter)
  counts : ∃ m n, input.input_data.len = .ok m ∧ input.output_data.len = .ok n ∧ counter = m + n
  ints : ∀ p ∈ d ++ header, ∀ i, p.2 = .int i →
    i = (blockchain.chain.length + 1 : ℕ) ∨ i = counter ∨ (strOfInt i).isSome

omit [Runtime] in
/-- Entries with a header of strings and integers, and the strings of a signature. -/
theorem local_form {blockchain : BlockChain} {input : BlockChain.LocalInput} (header : Dict) {m n : ℕ}
    (hm : input.input_data.len = .ok m) (hn : input.output_data.len = .ok n) {signed : Dict}
    (hsigned : signed = [] ∨ ∃ s k, signed = [(.str (lit "signature"), .str s),
      (.str (lit "public_key"), .str k)])
    (hheader : Record header) (hatoms : ∀ p ∈ header, Atom p.2)
    (hints : ∀ p ∈ header, ∀ i, p.2 = .int i →
      i = (blockchain.chain.length + 1 : ℕ) ∨ (strOfInt i).isSome) :
    LocalForm blockchain input (m + n) (local_entries (blockchain.chain.length + 1) (m + n)
      (strftime input.clock) header input.transaction ++ signed) header := by
  have hstr : ∀ p ∈ signed, ∃ s, p.2 = .str s := by
    intro p hp
    rcases hsigned with rfl | ⟨s, k, rfl⟩
    · cases hp
    · rcases List.mem_cons.mp hp with rfl | hp
      · exact ⟨s, rfl⟩
      · obtain rfl := List.mem_singleton.mp hp
        exact ⟨k, rfl⟩
  refine ⟨⟨?_, hheader, by rfl, by rfl, ?_, hatoms⟩, by rfl, by rfl, by rfl, ⟨m, n, hm, hn, rfl⟩, ?_⟩
  · rcases hsigned with rfl | ⟨s, k, rfl⟩
    · exact record_of_keys [lit "block_index", lit "block_item", lit "block_header",
        lit "tran_counter", lit "tran_body"] rfl (by decide) (by decide)
    · exact record_of_keys [lit "block_index", lit "block_item", lit "block_header",
        lit "tran_counter", lit "tran_body", lit "signature", lit "public_key"] rfl (by decide)
        (by decide)
  · intro p hp
    rcases List.mem_append.mp hp with hp | hp
    · simp only [local_entries, List.mem_cons, List.not_mem_nil, or_false] at hp
      rcases hp with rfl | rfl | rfl | rfl | rfl
      · exact Or.inr (Or.inr (Or.inr ⟨_, rfl⟩))
      · exact Or.inr (Or.inr (Or.inl ⟨_, rfl⟩))
      · exact Or.inl rfl
      · exact Or.inr (Or.inr (Or.inr ⟨_, rfl⟩))
      · exact Or.inr (Or.inl rfl)
    · exact Or.inr (Or.inr (Or.inl (hstr p hp)))
  · intro p hp i hi
    rcases List.mem_append.mp hp with hp | hp
    · rcases List.mem_append.mp hp with hp | hp
      · simp only [local_entries, List.mem_cons, List.not_mem_nil, or_false] at hp
        rcases hp with rfl | rfl | rfl | rfl | rfl
        · exact Or.inl (PyVal.int.inj hi).symm
        · cases hi
        · cases hi
        · exact Or.inr (Or.inl (PyVal.int.inj hi).symm)
        · cases hi
      · obtain ⟨s, hs⟩ := hstr p hp
        rw [hs] at hi
        cases hi
    · exact (hints p hp i hi).imp_right Or.inr

omit [Rsa] in
/-- The difficulty that a hash meets has a text. -/
theorem isSome_of_meets_difficulty {data hash_hex : Str} (hhash : sha256_hex data = .ok hash_hex)
    {difficulty : ℤ} (h : meets_difficulty hash_hex difficulty = true) :
    (strOfInt difficulty).isSome := by
  obtain ⟨hpos, hle⟩ := meets_difficulty_iff.mp h
  have hzeros : leading_zeros hash_hex ≤ 64 := by
    rw [← sha256_hex_length hhash]
    exact (List.takeWhile_sublist _).length_le
  obtain ⟨n, rfl⟩ := Int.eq_ofNat_of_zero_le hpos.le
  have hall : ∀ n : Fin 65, (strOfInt (n.val : ℤ)).isSome := by decide
  exact hall ⟨n, by omega⟩

theorem mined_form {blockchain : BlockChain} {pow : ProofOfWork}
    (hpow : blockchain.consensus = some (.pow pow)) {input : BlockChain.LocalInput} {block : Block}
    (h : (blockchain.draft_block input >>= blockchain.complete_block input) = .ok block) :
    ∃ d header counter, block = .dict d ∧ LocalForm blockchain input counter d header ∧
      (∃ nonce, Dict.find header (lit "nonce") = some (.int nonce)) ∧
      ∃ difficulty, Dict.find header (lit "difficulty") = some (.int difficulty) := by
  obtain ⟨draft, hdraft, hmine⟩ := bind_eq_ok.mp h
  simp only [BlockChain.draft_block, BlockChain.draft_header, hpow, bind_eq_ok, pure_eq,
    Except.ok.injEq, exists_eq_left'] at hdraft
  obtain ⟨prev, hprev, _, -, m, hm, n, hn, rfl⟩ := hdraft
  simp only [BlockChain.complete_block, hpow, Consensus.prepare_block] at hmine
  obtain ⟨prev_hash, tran_body, body_hash, difficulty, tran_hash, nonce, hfprev, -, -, -, hhash, hwork,
    rfl⟩ := mine_block_eq_ok (by rfl) hmine
  obtain rfl : prev = .str prev_hash := Option.some.inj hfprev
  simp only [calc_pow_tran_hash, bind_eq_ok, orRaise_eq_ok] at hhash
  obtain ⟨_, -, text, htext, hhash⟩ := hhash
  have hdifficulty := isSome_of_meets_difficulty hhash hwork
  have hnonce : (strOfInt (nonce : ℤ)).isSome := Option.isSome_of_eq_some htext
  refine ⟨_, _, m + n, rfl, local_form [(.str (lit "prev_hash"), .str prev_hash),
    (.str (lit "consensus_type"), .str (lit "pow")), (.str (lit "tran_hash"), .str tran_hash),
    (.str (lit "nonce"), .int nonce), (.str (lit "difficulty"), .int difficulty)] hm hn (Or.inl rfl)
    ?_ ?_ ?_, ⟨_, by rfl⟩, _, by rfl⟩
  · exact record_of_keys [lit "prev_hash", lit "consensus_type", lit "tran_hash", lit "nonce",
      lit "difficulty"] rfl (by decide) (by decide)
  · intro p hp
    simp only [List.mem_cons, List.not_mem_nil, or_false] at hp
    rcases hp with rfl | rfl | rfl | rfl | rfl
    · exact Or.inl ⟨_, rfl⟩
    · exact Or.inl ⟨_, rfl⟩
    · exact Or.inl ⟨_, rfl⟩
    · exact Or.inr ⟨_, rfl⟩
    · exact Or.inr ⟨_, rfl⟩
  · intro p hp i hi
    simp only [List.mem_cons, List.not_mem_nil, or_false] at hp
    rcases hp with rfl | rfl | rfl | rfl | rfl
    · cases hi
    · cases hi
    · cases hi
    · exact Or.inr (PyVal.int.inj hi ▸ hnonce)
    · exact Or.inr (PyVal.int.inj hi ▸ hdifficulty)

theorem proposed_form {blockchain : BlockChain} {pos : ProofOfStake}
    (hpos : blockchain.consensus = some (.pos pos)) {input : BlockChain.LocalInput} {block : Block}
    (h : (blockchain.draft_block input >>= blockchain.complete_block input) = .ok block) :
    ∃ d header counter, block = .dict d ∧ LocalForm blockchain input counter d header := by
  obtain ⟨validators, key, prev_hash, proposer, body_hash, tran_hash, pem, content, m, n, -, -, -, -,
    hm, hn, -, -, -, -, -, rfl⟩ := proposed_block_eq hpos h
  refine ⟨_, _, m + n, rfl, local_form (proposed_header prev_hash tran_hash proposer
    (blockchain.chain.length + 1)) hm hn (Or.inr ⟨_, _, rfl⟩) ?_ ?_ ?_⟩
  · exact record_of_keys [lit "prev_hash", lit "consensus_type", lit "tran_hash",
      lit "validator_id", lit "slot"] rfl (by decide) (by decide)
  · intro p hp
    simp only [proposed_header, List.mem_cons, List.not_mem_nil, or_false] at hp
    rcases hp with rfl | rfl | rfl | rfl | rfl
    · exact Or.inl ⟨_, rfl⟩
    · exact Or.inl ⟨_, rfl⟩
    · exact Or.inl ⟨_, rfl⟩
    · exact Or.inl ⟨_, rfl⟩
    · exact Or.inr ⟨_, rfl⟩
  · intro p hp i hi
    simp only [proposed_header, List.mem_cons, List.not_mem_nil, or_false] at hp
    rcases hp with rfl | rfl | rfl | rfl | rfl
    · cases hi
    · cases hi
    · cases hi
    · cases hi
    · exact Or.inl (PyVal.int.inj hi).symm

/-! ## The message -/

/-- A block, announced by a node, is accepted by another: `NEW_BLOCK` is encoded,
decoded, and the block in it passes `add_block`. -/
def Arrives (node : Node) (verifier : BlockChain) (stakes : StakeMap) (block : Block) : Prop :=
  ∃ raw payload arrived, encode_message .new_block (node.announcement block) = .ok raw ∧
    decode_message raw = .ok (.new_block, payload) ∧
    Dict.find payload (lit "block") = some arrived ∧
    (verifier.add_block arrived true (some stakes)).1 = .ok true

/-- The other node gets what JSON makes of the block, if the block can be written. -/
theorem arrives_iff {node : Node} {verifier : BlockChain} {stakes : StakeMap} {block : Block}
    (hfloats : FloatsRead block) : Arrives node verifier stakes block ↔
      (∃ text, dumps sortedAscii block = .ok text) ∧
        (verifier.add_block (transmitted block) true (some stakes)).1 = .ok true := by
  set message : Dict := [(.str (lit "block"), block), (.str (lit "node_id"), .str node.node_id),
    (.str (lit "type"), .str (lit "NEW_BLOCK"))] with hmessage
  have hbody : message_body .new_block (node.announcement block) = message := by rfl
  have hrecord : Record message :=
    record_of_keys [lit "block", lit "node_id", lit "type"] rfl (by decide) (by decide)
  have hread : FloatsRead (.dict message) := ⟨hfloats, trivial, trivial, trivial⟩
  have hencodes : (∃ raw, encode_message .new_block (node.announcement block) = .ok raw) ↔
      ∃ text, dumps sortedAscii block = .ok text := by
    have hlevel : dumps sortedAscii block = dumpsAt sortedAscii (0 + 1) block :=
      dumpsAt_level rfl block 0 (0 + 1)
    rw [encode_message, hbody, dumps, hrecord.dumps_isOk rfl, hlevel, hmessage,
      List.forall_mem_cons]
    apply and_iff_left
    rw [List.forall_mem_cons, List.forall_mem_cons]
    exact ⟨⟨_, rfl⟩, ⟨_, rfl⟩, by simp⟩
  -- what is decoded is the message, read again
  have hdecode : ∀ raw, encode_message .new_block (node.announcement block) = .ok raw →
      decode_message raw = .ok (.new_block, Dict.without (rereadRecord sortedAscii message)
        (lit "type")) := by
    intro raw hraw
    rw [encode_message, hbody] at hraw
    have hloads := loads_reread hread hraw
    rw [hrecord.reread_eq rfl] at hloads
    have htype : Dict.find (rereadRecord sortedAscii message) (lit "type")
        = some (.str (lit "NEW_BLOCK")) := by
      rw [find_rereadRecord]
      exact congrArg some (transmitted_str (scalars_of_any (by decide)))
    have hvalue : MessageType.of_value (.str (lit "NEW_BLOCK")) = some .new_block := by rfl
    simp only [decode_message, hloads, Except.mapError, ok_bind, htype, orRaise_some, hvalue, pure_eq]
  have hblock : Dict.find (Dict.without (rereadRecord sortedAscii message) (lit "type"))
      (lit "block") = some (transmitted block) := by
    rw [Dict.find_without, if_neg (by decide), find_rereadRecord]
    rfl
  rw [← hencodes]
  constructor
  · rintro ⟨raw, payload, arrived, hraw, hpayload, harrived, hadd⟩
    rw [hdecode raw hraw, Except.ok.injEq, Prod.mk.injEq] at hpayload
    rw [← hpayload.2, hblock, Option.some.injEq] at harrived
    rw [harrived]
    exact ⟨⟨raw, hraw⟩, hadd⟩
  · rintro ⟨⟨raw, hraw⟩, hadd⟩
    exact ⟨raw, _, _, hraw, hdecode raw hraw, hblock, hadd⟩

/-! ## What the other node makes of the block -/

omit [Rsa] in
/-- The link of a block depends on its previous hash and its index only. -/
theorem accepts_link_congr {block block' : Block} {own_genesis g prev_hash : Str} {index : PyVal}
    {parent : Option Block} (hprev : PrevHashIs block prev_hash)
    (hprev' : PrevHashIs block' prev_hash) (hindex : block.item (lit "block_index") = .ok index)
    (hindex' : block'.item (lit "block_index") = .ok index)
    (h : Accepts (validate_chain_link own_genesis block parent (some g))) :
    Accepts (validate_chain_link own_genesis block' parent (some g)) := by
  rcases parent with _ | previous
  · rw [accepts_first_link] at h ⊢
    obtain ⟨⟨i, hi, hone⟩, hexpected⟩ := h
    obtain rfl := Except.ok.inj (hindex.symm.trans hi)
    rw [← hprev.unique hexpected]
    exact ⟨⟨index, hindex', hone⟩, hprev'⟩
  · rw [accepts_next_link] at h ⊢
    obtain ⟨⟨tran, prev, htran, hblock, heq⟩, i, last, next, hi, hlast, hnext, hone⟩ := h
    obtain rfl := Except.ok.inj (hindex.symm.trans hi)
    obtain rfl := hprev.unique hblock
    exact ⟨⟨tran, _, htran, hprev', heq⟩, index, last, next, hindex', hlast, hnext, hone⟩

omit [Rsa] in
/-- A transaction whose keys are stable has the hash it had. -/
theorem calc_body_hash_transmitted (hstable : KeysStable true body) {body_hash : Str}
    (h : calc_body_hash body = .ok body_hash) :
    calc_body_hash (transmitted body) = .ok body_hash := by
  simp only [calc_body_hash, bind_eq_ok] at h
  obtain ⟨text, htext, bytes, hbytes, hhash⟩ := h
  have hsame : dumps sortedAscii (transmitted body) = .ok text :=
    dumps_reread_of_stable rfl rfl body hstable htext
  simp only [calc_body_hash, hsame, hbytes, ok_bind, hhash]

variable {blockchain : BlockChain} {input : BlockChain.LocalInput} {counter : ℕ}

theorem LocalForm.index_transmitted (h : LocalForm blockchain input counter d header) :
    (transmitted (.dict d)).item (lit "block_index") = .ok (.int (blockchain.chain.length + 1 : ℕ)) :=
  h.built.item h.index

omit [Runtime] in
theorem LocalForm.body_of_item (h : LocalForm blockchain input counter d header)
    (hbody : (PyVal.dict d).item (lit "tran_body") = .ok body) : body = input.transaction := by
  rw [PyVal.item_dict, h.built.has_body] at hbody
  exact (Except.ok.inj hbody).symm

omit [Runtime] [Rsa] in
theorem scalars_strftime (t : DateTime) : Scalars (strftime t) := by
  have hdigit : ∀ n, (digit n).val < 0x80 := by
    intro n
    have hsmall : ∀ i : Fin 16, (digit i.val).val < 0x80 := by decide
    rcases Nat.lt_or_ge n 16 with hn | hn
    · exact hsmall ⟨n, hn⟩
    · have hstar : Nat.digitChar n = '*' := by
        unfold Nat.digitChar
        simp (disch := omega) only [if_neg]
      rw [digit, hstar]
      decide
  have hpad : ∀ n, ∀ c ∈ pad2 n, c.val < 0x80 := by
    intro n c hc
    simp only [pad2, List.mem_cons, List.not_mem_nil, or_false] at hc
    rcases hc with rfl | rfl
    · exact hdigit _
    · exact hdigit _
  have hpad2 : ∀ n, Scalars (pad2 n) := fun n => scalars_of_ascii (hpad n)
  have hdash : Scalars (lit "-") := scalars_of_any (by decide)
  have hspace : Scalars (lit " ") := scalars_of_any (by decide)
  have hcolon : Scalars (lit ":") := scalars_of_any (by decide)
  simp only [strftime, pad4, scalars_append, hpad2, hdash, hspace, hcolon, and_self]

omit [Runtime] [Rsa] in
/-- A hexadecimal text has no surrogates. -/
theorem scalars_of_fromHex {s : Str} {bytes : List UInt8} (h : fromHex s = some bytes) :
    Scalars s := by
  have hspace : ∀ c, isAsciiSpace c = true → isSurrogate c = false := by
    intro c hc
    simp only [isAsciiSpace, List.mem_cons, List.not_mem_nil, or_false, decide_eq_true_eq] at hc
    simp only [isSurrogate, Bool.and_eq_false_iff, decide_eq_false_iff_not]
    omega
  have hhex : ∀ c n, hexValue c = some n → isSurrogate c = false := by
    intro c n hc
    simp only [isSurrogate, Bool.and_eq_false_iff, decide_eq_false_iff_not]
    unfold hexValue at hc
    simp only at hc
    split_ifs at hc <;> omega
  fun_induction fromHex s generalizing bytes with
  | case1 => exact scalars_nil
  | case2 c hc => exact List.forall_mem_cons.mpr ⟨hspace c hc, by simp⟩
  | case3 c hc => cases h
  | case4 c d rest hc ih => exact List.forall_mem_cons.mpr ⟨hspace c hc, ih h⟩
  | case5 c d rest hc hi lo bs hrest hlo hhi ih =>
      exact List.forall_mem_cons.mpr ⟨hhex c _ hhi, List.forall_mem_cons.mpr ⟨hhex d _ hlo, ih hrest⟩⟩
  | case6 => cases h

/-- The strings and integers of a mined block stay as they are. -/
theorem pow_fields_transmitted (h : LocalForm blockchain input counter d header)
    {f : ProofOfWork.PowFields} (hof : f.Of (.dict d)) (hprev : Scalars f.prev_hash)
    (htran : Scalars f.tran_hash) {nonce difficulty : ℤ}
    (hnonce : Dict.find header (lit "nonce") = some (.int nonce))
    (hdifficulty : Dict.find header (lit "difficulty") = some (.int difficulty)) :
    ProofOfWork.PowFields.Of { f with tran_body := transmitted f.tran_body }
      (transmitted (.dict d)) := by
  have hnonce := (headerIs_dict h.built.has_header).mpr hnonce
  have hdifficulty := (headerIs_dict h.built.has_header).mpr hdifficulty
  obtain ⟨v, hv, hn⟩ := hof.nonce
  obtain rfl := hnonce.unique hv
  obtain ⟨w, hw, hd⟩ := hof.difficulty
  obtain rfl := hdifficulty.unique hw
  obtain ⟨text, htext, htime⟩ := hof.time
  rw [PyVal.item_dict, h.item] at htext
  obtain rfl := PyVal.str.inj (Except.ok.inj htext)
  have hbody := hof.tran_body
  rw [PyVal.item_dict, orRaise_eq_ok] at hbody
  refine ⟨?_, ?_, h.built.item hbody, ⟨_, h.built.headerIs hnonce, hn⟩,
    ⟨_, h.built.headerIs hdifficulty, hd⟩, ?_, ?_⟩
  · exact h.built.headerIs_str (scalars_of_any (by decide)) hof.consensus_type
  · exact h.built.headerIs_str hprev hof.prev_hash
  · exact h.built.headerIs_str htran hof.tran_hash
  · refine ⟨strftime input.clock, ?_, htime⟩
    rw [← transmitted_str (scalars_strftime input.clock)]
    exact h.built.item h.item

omit [Rsa] in
/-- The signed bytes of a block whose keys are stable stay as they are. -/
theorem signed_bytes_transmitted (h : BuiltBlock d header body) (hbody : KeysStable true body)
    {content : List UInt8} (hcontent : signed_bytes (unsigned d) = .ok content) :
    signed_bytes (unsigned (rereadRecord sortedAscii d)) = .ok content := by
  have hrecord := (h.record.without (lit "signature")).without (lit "public_key")
  have hstable : KeysStable true (.dict (unsigned d)) := by
    rw [unsigned, hrecord.keysStable]
    intro p hp
    exact h.keysStable hbody p (List.mem_of_mem_filter (List.mem_of_mem_filter hp))
  simp only [signed_bytes, bind_eq_ok] at hcontent ⊢
  obtain ⟨text, htext, hbytes⟩ := hcontent
  refine ⟨text, ?_, hbytes⟩
  have hsame : dumps sortedAscii (reread sortedAscii (.dict (unsigned d))) = .ok text :=
    dumps_reread_of_stable rfl rfl _ hstable htext
  rw [unsigned, hrecord.reread_eq rfl,
    (h.record.without (lit "signature")).rereadRecord_without,
    h.record.rereadRecord_without] at hsame
  exact hsame

/-- The strings and integers of a proposed block stay as they are, and so does
what is signed. -/
theorem pos_fields_transmitted (h : LocalForm blockchain input counter d header)
    {f : ProofOfStake.PosFields} (hof : f.Of (.dict d)) (hprev : Scalars f.prev_hash)
    (hid : Scalars f.validator_id) (htran : Scalars f.tran_hash) (hkey : Scalars f.public_key)
    (hsignature : Scalars f.signature) (hstable : KeysStable true input.transaction)
    {tran_body : Dict} (htransmitted : transmitted (.dict f.tran_body) = .dict tran_body) :
    ProofOfStake.PosFields.Of { f with tran_body := tran_body } (transmitted (.dict d)) := by
  have hitem : ∀ {key s : Str}, Scalars s → (PyVal.dict d).item key = .ok (.str s) →
      (transmitted (.dict d)).item key = .ok (.str s) := by
    intro key s hs hv
    rw [← transmitted_str hs]
    rw [PyVal.item_dict, orRaise_eq_ok] at hv
    exact h.built.item hv
  have hbody := hof.tran_body
  rw [PyVal.item_dict, orRaise_eq_ok] at hbody
  refine ⟨?_, ?_, ?_, ?_, h.built.headerIs hof.slot, ?_, hitem hkey hof.public_key,
    hitem hsignature hof.signature, ?_⟩
  · exact h.built.headerIs_str (scalars_of_any (by decide)) hof.consensus_type
  · exact h.built.headerIs_str hprev hof.prev_hash
  · rw [← htransmitted]
    exact h.built.item hbody
  · exact h.built.headerIs_str hid hof.validator_id
  · exact h.built.headerIs_str htran hof.tran_hash
  · obtain ⟨e, he, hcontent⟩ := hof.content
    obtain rfl := PyVal.dict.inj he
    exact ⟨_, h.built.record.reread_eq rfl, signed_bytes_transmitted h.built hstable hcontent⟩

omit [Rsa] in
theorem scalars_of_pow_hash {prev_hash body_hash tran_hash : Str} {nonce : ℤ}
    (h : calc_pow_tran_hash (.str prev_hash) body_hash nonce = .ok tran_hash) :
    Scalars prev_hash ∧ Scalars tran_hash := by
  simp only [calc_pow_tran_hash, bind_eq_ok, concat_eq_ok, PyVal.str.injEq, exists_eq_left'] at h
  obtain ⟨text, -, hhash⟩ := h
  obtain ⟨hdata, htran⟩ := scalars_of_sha256_hex hhash
  rw [scalars_append, scalars_append] at hdata
  exact ⟨hdata.1.1, htran⟩

omit [Rsa] in
theorem scalars_of_pos_hash {prev_hash body_hash validator_id tran_hash : Str} {slot : ℤ}
    (h : calc_pos_tran_hash (.str prev_hash) body_hash validator_id slot = .ok tran_hash) :
    Scalars prev_hash ∧ Scalars validator_id ∧ Scalars tran_hash := by
  simp only [calc_pos_tran_hash, bind_eq_ok, concat_eq_ok, PyVal.str.injEq, exists_eq_left'] at h
  obtain ⟨text, -, hhash⟩ := h
  obtain ⟨hdata, htran⟩ := scalars_of_sha256_hex hhash
  rw [scalars_append, scalars_append, scalars_append] at hdata
  exact ⟨hdata.1.1.1, hdata.1.2, htran⟩

/-- A mined block whose keys are stable is accepted as it was. -/
theorem pow_step_transmitted (h : LocalForm blockchain input counter d header) {nonce difficulty : ℤ}
    (hnonce : Dict.find header (lit "nonce") = some (.int nonce))
    (hdifficulty : Dict.find header (lit "difficulty") = some (.int difficulty)) {pow : ProofOfWork}
    {g : Str} {seen : List Block} (hstep : PowStep pow g seen (.dict d))
    (hstable : KeysStable true input.transaction) :
    PowStep pow g seen (transmitted (.dict d)) := by
  obtain ⟨hlink, haccept⟩ := hstep
  obtain ⟨f, hof, hvalid⟩ := ProofOfWork.accepts_validate_block.mp haccept
  obtain ⟨body_hash, hbody, hhash⟩ := hvalid.hash
  obtain ⟨hprev, htran⟩ := scalars_of_pow_hash hhash
  have hof' := pow_fields_transmitted h hof hprev htran hnonce hdifficulty
  have hindex : (PyVal.dict d).item (lit "block_index")
      = .ok (.int (blockchain.chain.length + 1 : ℕ)) := by
    rw [PyVal.item_dict, h.index, orRaise_some]
  refine ⟨accepts_link_congr hof.prev_hash hof'.prev_hash hindex h.index_transmitted hlink,
    ProofOfWork.accepts_validate_block.mpr ⟨_, hof', hvalid.difficulty, hvalid.time,
      ⟨body_hash, ?_, hhash⟩, hvalid.work⟩⟩
  have hbody_eq := h.body_of_item hof.tran_body
  exact calc_body_hash_transmitted (hbody_eq ▸ hstable) hbody

/-- A proposed block whose keys are stable is accepted as it was. -/
theorem pos_step_transmitted (h : LocalForm blockchain input counter d header) {pos : ProofOfStake}
    {g : Str} {stakes : StakeMap} {seen : List Block} (hstep : PosStep pos g stakes seen (.dict d))
    (hstable : KeysStable true input.transaction) :
    PosStep pos g stakes seen (transmitted (.dict d)) := by
  obtain ⟨hlink, f, hof, hvalid⟩ := hstep
  obtain ⟨body_hash, hbody, hhash⟩ := hvalid.hash
  obtain ⟨hprev, hid, htran⟩ := scalars_of_pos_hash hhash
  obtain ⟨bytes, sig, key, hpem, hsig, -⟩ := hvalid.signed
  have hkey : Scalars f.public_key := utf8_isSome_iff.mp (Option.isSome_of_eq_some hpem)
  have hbody_eq := h.body_of_item hof.tran_body
  have htransmitted := reread_dict sortedAscii f.tran_body
  have hof' := pos_fields_transmitted h hof hprev hid htran hkey (scalars_of_fromHex hsig) hstable
    htransmitted
  have hindex : (PyVal.dict d).item (lit "block_index")
      = .ok (.int (blockchain.chain.length + 1 : ℕ)) := by
    rw [PyVal.item_dict, h.index, orRaise_some]
  refine ⟨accepts_link_congr hof.prev_hash hof'.prev_hash hindex h.index_transmitted hlink, _, hof',
    hvalid.named, hvalid.slot, hvalid.known, hvalid.proposer, ⟨body_hash, ?_, hhash⟩,
    hvalid.registered, hvalid.signed⟩
  rw [← htransmitted]
  exact calc_body_hash_transmitted (hbody_eq ▸ hstable) hbody

/-- No two of the texts have one hash. -/
def HashesApart (texts : Set Str) : Prop :=
  ∀ s ∈ texts, ∀ t ∈ texts, ∀ h, sha256_hex s = .ok h → sha256_hex t = .ok h → s = t

/-- A block that is accepted as transmitted has the hashed texts it had, so the
keys of its transaction are stable. -/
theorem stable_of_commitments (h : LocalForm blockchain input counter d header)
    {consensus : Option Consensus} {c c' : Commitment} (hc : c.Of consensus (.dict d))
    (hc' : c'.Of consensus (transmitted (.dict d)))
    (hapart : HashesApart (HashedIn consensus [.dict d, transmitted (.dict d)]))
    (hfloats : FloatsRead input.transaction) : KeysStable true input.transaction := by
  obtain ⟨hdata, htran⟩ := scalars_of_sha256_hex hc.hash
  rw [scalars_append, scalars_append] at hdata
  have hprev_eq := (h.built.headerIs_str hdata.1.1 hc.prev_hash).unique hc'.prev_hash
  have htran_eq := (h.built.headerIs_str htran hc.tran_hash).unique hc'.tran_hash
  have hb : PyVal.dict d ∈ [PyVal.dict d, transmitted (.dict d)] := List.mem_cons_self
  have hb' : transmitted (.dict d) ∈ [PyVal.dict d, transmitted (.dict d)] := by simp
  -- one hash, so one text, and the body hash stands at the same place in it
  have hhash := hc'.hash
  rw [← PyVal.str.inj hprev_eq, ← PyVal.str.inj htran_eq] at hhash
  have htext' := hc'.text_mem hb'
  rw [← PyVal.str.inj hprev_eq] at htext'
  have htext := hapart _ (hc.text_mem hb) _ htext' _ hc.hash hhash
  rw [List.append_assoc, List.append_assoc] at htext
  obtain ⟨hbody_hash, -⟩ := List.append_inj (List.append_cancel_left htext)
    ((sha256_hex_length hc.body_hash).trans (sha256_hex_length hc'.body_hash).symm)
  have hbody_text := hapart _ (hc.body_mem hb) _ (hc'.body_mem hb') _ hc.body_hash
    (hbody_hash ▸ hc'.body_hash)
  obtain ⟨text, hdumps, hdumps'⟩ := dumps_of_body_text hc.body_text (hbody_text ▸ hc'.body_text)
  have hbody := h.body_of_item hc.tran_body
  have hbody' : c'.tran_body = transmitted input.transaction :=
    Except.ok.inj (hc'.tran_body.symm.trans (h.built.item h.built.has_body))
  rw [hbody] at hdumps
  rw [hbody'] at hdumps'
  exact (dumps_reread_iff rfl rfl rfl hfloats hdumps).mp hdumps'

/-! ## A local block at another node -/

/-- Two nodes of one network with the same chain and the same registered keys. -/
structure SameNetwork (producer verifier : BlockChain) : Prop where
  chain : verifier.chain = producer.chain
  genesis : verifier.genesis_prev_hash = producer.genesis_prev_hash
  rules : match producer.consensus, verifier.consensus with
    | some (.pow pow), some (.pow pow') => pow' = pow
    | some (.pos pos), some (.pos pos') =>
        SameRules pos pos' ∧ pos.genesis_prev_hash = producer.genesis_prev_hash
    | _, _ => False

/-- What decides whether a local block survives the wire: the keys in its
transaction are read in the order they are sorted, and its height and its counter
have a text. -/
structure KeepsText (blockchain : BlockChain) (input : BlockChain.LocalInput) : Prop where
  input_data : KeysStable true input.input_data
  output_data : KeysStable true input.output_data
  height : (strOfInt (blockchain.chain.length + 1 : ℕ)).isSome
  counter : ∀ m n, input.input_data.len = .ok m → input.output_data.len = .ok n →
    (strOfInt (m + n : ℕ)).isSome

omit [Rsa] in
theorem transaction_keysStable : KeysStable true input.transaction ↔
    KeysStable true input.input_data ∧ KeysStable true input.output_data := by
  have hrecord : Record [(PyKey.str (lit "input_data"), input.input_data),
      (PyKey.str (lit "output_data"), input.output_data)] :=
    record_of_keys [lit "input_data", lit "output_data"] rfl (by decide) (by decide)
  rw [BlockChain.LocalInput.transaction, hrecord.keysStable]
  simp

/-- A block of which the integers have a text arrives if it passes `add_block`. -/
theorem arrives_of_form {node : Node} {verifier : BlockChain} {stakes : StakeMap}
    (h : LocalForm blockchain input counter d header) (hfloats : FloatsRead input.transaction)
    (hdumps : ∃ text, dumps sortedAscii input.transaction = .ok text) :
    Arrives node verifier stakes (.dict d) ↔
      ((strOfInt (blockchain.chain.length + 1 : ℕ)).isSome ∧ (strOfInt counter).isSome) ∧
        (verifier.add_block (transmitted (.dict d)) true (some stakes)).1 = .ok true := by
  rw [arrives_iff (h.built.floatsRead hfloats), h.built.dumps_isOk hdumps]
  apply and_congr_left'
  have hmem : ∀ {key : Str} {v : PyVal}, Dict.find d key = some v → (PyKey.str key, v) ∈ d := by
    intro key v hv
    obtain ⟨before, after, hd, -⟩ := List.lookup_eq_some_iff.mp hv
    rw [hd]
    simp
  constructor
  · intro hall
    exact ⟨hall _ (List.mem_append_left _ (hmem h.index)) _ rfl,
      hall _ (List.mem_append_left _ (hmem h.counted)) _ rfl⟩
  · rintro ⟨hheight, hcounter⟩ p hp i hi
    rcases h.ints p hp i hi with rfl | rfl | hsome
    · exact hheight
    · exact hcounter
    · exact hsome

/-- A local block arrives when its text is kept, and only then, where its hashes
have no collisions. -/
theorem arrives_iff_keepsText {node : Node} {verifier : BlockChain} {stakes : StakeMap}
    (h : LocalForm blockchain input counter d header) (hfloats : FloatsRead input.transaction)
    (hdumps : ∃ text, dumps sortedAscii input.transaction = .ok text)
    {consensus : Option Consensus} {Step : Block → Prop} (hstep : Step (.dict d))
    (haccepts : (verifier.add_block (transmitted (.dict d)) true (some stakes)).1 = .ok true ↔
      Step (transmitted (.dict d)))
    (hstable : KeysStable true input.transaction → Step (transmitted (.dict d)))
    (hcommits : ∀ block, Step block → ∃ c : Commitment, c.Of consensus block) :
    (KeepsText blockchain input → Arrives node verifier stakes (.dict d)) ∧
      (HashesApart (HashedIn consensus [.dict d, transmitted (.dict d)]) →
        Arrives node verifier stakes (.dict d) → KeepsText blockchain input) := by
  obtain ⟨m, n, hm, hn, hcount⟩ := h.counts
  rw [arrives_of_form h hfloats hdumps, haccepts]
  constructor
  · rintro ⟨hinput, houtput, hheight, hcounter⟩
    refine ⟨⟨hheight, ?_⟩, hstable (transaction_keysStable.mpr ⟨hinput, houtput⟩)⟩
    rw [hcount]
    exact hcounter m n hm hn
  · rintro hapart ⟨⟨hheight, hcounter⟩, harrived⟩
    obtain ⟨c, hc⟩ := hcommits _ hstep
    obtain ⟨c', hc'⟩ := hcommits _ harrived
    obtain ⟨hinput, houtput⟩ :=
      transaction_keysStable.mp (stable_of_commitments h hc hc' hapart hfloats)
    refine ⟨hinput, houtput, hheight, ?_⟩
    intro m' n' hm' hn'
    obtain rfl := Except.ok.inj (hm.symm.trans hm')
    obtain rfl := Except.ok.inj (hn.symm.trans hn')
    rw [← hcount]
    exact hcounter

theorem add_new_block_eq_ok {after : BlockChain} {block : Block}
    (h : blockchain.add_new_block input = (.ok block, after)) :
    (blockchain.draft_block input >>= blockchain.complete_block input) = .ok block ∧
      blockchain.append block = (.ok (), after) := by
  unfold BlockChain.add_new_block at h
  rcases hblock : blockchain.draft_block input >>= blockchain.complete_block input with e | b
  · rw [hblock] at h
    cases h
  · rw [hblock] at h
    rcases happend : blockchain.append b with ⟨e | u, self⟩
    · simp only [happend] at h
      cases h
    · simp only [happend] at h
      obtain ⟨hb, rfl⟩ := Prod.mk.inj h
      obtain rfl := Except.ok.inj hb
      exact ⟨rfl, happend⟩

/-- A local block that the producer's own `verify_chain` accepts is accepted by
every node with the same chain when its transaction keeps its text, and only then,
where its hashes have no collisions. -/
theorem local_block_survives {node : Node} {verifier : BlockChain} {stakes : StakeMap}
    (hsame : SameNetwork node.blockchain verifier) {block : Block} {after : BlockChain}
    (hadd : node.blockchain.add_new_block input = (.ok block, after))
    (hverified : Verifies (after.verify_chain (some stakes)))
    (hfloats : FloatsRead input.transaction) :
    (KeepsText node.blockchain input → Arrives node verifier stakes block) ∧
      (HashesApart (HashedIn node.blockchain.consensus [block, transmitted block]) →
        Arrives node verifier stakes block → KeepsText node.blockchain input) := by
  obtain ⟨hblock, happend⟩ := add_new_block_eq_ok hadd
  obtain ⟨hchain, hgenesis, hrules⟩ := hsame
  have hdumps : ∀ {body_hash}, calc_body_hash input.transaction = .ok body_hash →
      ∃ text, dumps sortedAscii input.transaction = .ok text := by
    intro body_hash hbody
    simp only [calc_body_hash, bind_eq_ok] at hbody
    obtain ⟨text, htext, -⟩ := hbody
    exact ⟨text, htext⟩
  rcases hc : node.blockchain.consensus with _ | pow | pos
  · simp [hc] at hrules
  · rcases hv : verifier.consensus with _ | pow' | pos'
    · simp [hc, hv] at hrules
    · -- proof of work
      simp only [hc, hv] at hrules
      subst hrules
      obtain ⟨d, header, counter, rfl, hform, ⟨nonce, hnonce⟩, difficulty, hdifficulty⟩ :=
        mined_form hc hblock
      simp only [BlockChain.append, hc, Consensus.on_block_added, Prod.mk.injEq, true_and] at happend
      subst happend
      rw [BlockChain.verify_chain, pow_verifies_iff, grows_snoc] at hverified
      have hstep := hverified.2.2
      obtain ⟨f, hof, hvalid⟩ := ProofOfWork.accepts_validate_block.mp hstep.2
      obtain ⟨body_hash, hbody, -⟩ := hvalid.hash
      rw [hform.body_of_item hof.tran_body] at hbody
      have haccepts := pow_accepts hv (transmitted (.dict d)) (some stakes)
      rw [hchain, hgenesis] at haccepts
      refine arrives_iff_keepsText hform hfloats (hdumps hbody) hstep haccepts
        (pow_step_transmitted hform hnonce hdifficulty hstep) ?_
      rintro b ⟨-, haccept⟩
      obtain ⟨f, hof, hvalid⟩ := ProofOfWork.accepts_validate_block.mp haccept
      exact commitment_of_pow hof hvalid
    · simp [hc, hv] at hrules
  · rcases hv : verifier.consensus with _ | pow' | pos'
    · simp [hc, hv] at hrules
    · simp [hc, hv] at hrules
    · -- proof of stake
      simp only [hc, hv] at hrules
      obtain ⟨hrules, hg⟩ := hrules
      obtain ⟨d, header, counter, rfl, hform⟩ := proposed_form hc hblock
      obtain ⟨_, _, f, hof, -⟩ := proposed_block_fields hc hblock
      rw [pos_append hc hof.block_validator_id, Prod.mk.injEq] at happend
      obtain ⟨-, rfl⟩ := happend
      set credited : ProofOfStake :=
        { pos with validators := ProofOfStake.credit pos.settings pos.validators (.dict d) }
      have hcredited : SameRules pos credited := ⟨rfl, rfl, rfl⟩
      have hdefault : orDefault (some node.blockchain.genesis_prev_hash) credited.genesis_prev_hash
          = node.blockchain.genesis_prev_hash := by
        rw [hcredited.genesis, hg, orDefault_self]
      have hgrows := (pos_verification hdefault stakes _).1.mp hverified
      rw [grows_snoc, hcredited.posStep] at hgrows
      obtain ⟨hold, hstep⟩ := hgrows
      have hnames : NamesValidators verifier.chain := by
        rw [hchain]
        intro b hb
        obtain ⟨f, hof⟩ := fields_of_grows hold b hb
        exact ⟨_, hof.block_validator_id⟩
      have haccepts := pos_accepts hv stakes hnames (transmitted (.dict d))
      rw [hchain, hgenesis, hrules.posStep] at haccepts
      obtain ⟨-, f', hof', hvalid⟩ := id hstep
      obtain ⟨body_hash, hbody, -⟩ := hvalid.hash
      rw [hform.body_of_item hof'.tran_body] at hbody
      refine arrives_iff_keepsText hform hfloats (hdumps hbody) hstep haccepts
        (pos_step_transmitted hform hstep) ?_
      rintro b ⟨-, f, hof, hvalid⟩
      exact commitment_of_pos hof hvalid

end Announcement

/-! A transaction with plain keys arrives. Integer keys are sorted as numbers when
the block is hashed, and as texts at the other node, so its hash is another
there. -/

namespace AnnouncedBlock

attribute [local instance] cpython letterRsa

def empty_chain : BlockChain :=
  .new (some (.pow ⟨⟨1, 10, .fin 2, 1000, 10⟩, DEFAULT_GENESIS_PREV_HASH⟩)) DEFAULT_GENESIS_PREV_HASH

def node : Node :=
  ⟨lit "node", Rewritten.network, .empty, empty_chain⟩

/-- A local transaction. -/
def input (data : PyVal) (output : String) : BlockChain.LocalInput :=
  ⟨data, .str (lit output), ⟨2024, 1, 1, 0, 0, 0, validFields_2024⟩, []⟩

def numbered : PyVal := .dict [(.int 2, .str (lit "a")), (.int 10, .str (lit "b"))]

theorem sameNetwork : SameNetwork node.blockchain empty_chain := ⟨rfl, rfl, rfl⟩

theorem mines {i : BlockChain.LocalInput} (h : (empty_chain.add_new_block i).1.isOk = true) :
    ∃ block after, empty_chain.add_new_block i = (.ok block, after) := by
  rcases hadd : empty_chain.add_new_block i with ⟨e | block, after⟩
  · rw [hadd] at h
    cases h
  · exact ⟨block, after, rfl⟩

theorem plain_block_arrives : ∃ block after,
    empty_chain.add_new_block (input (.str (lit "w")) "b") = (.ok block, after) ∧
      Arrives node empty_chain .empty block := by
  have hverified : Verifies ((empty_chain.add_new_block (input (.str (lit "w")) "b")).2.verify_chain
      (some .empty)) := ⟨.ok, by decide +kernel, rfl⟩
  obtain ⟨block, after, hadd⟩ := mines (i := input (.str (lit "w")) "b") (by decide +kernel)
  rw [hadd] at hverified
  refine ⟨block, after, hadd, ?_⟩
  apply (local_block_survives sameNetwork hadd hverified ⟨trivial, trivial, trivial⟩).1
  refine ⟨trivial, trivial, by decide, ?_⟩
  rintro m n hm hn
  obtain rfl := Except.ok.inj hm
  obtain rfl := Except.ok.inj hn
  decide

theorem numbered_block_refused : ∃ block after,
    empty_chain.add_new_block (input numbered "s") = (.ok block, after) ∧
      Verifies (after.verify_chain (some .empty)) ∧ ¬ Arrives node empty_chain .empty block := by
  have hverified : Verifies ((empty_chain.add_new_block (input numbered "s")).2.verify_chain
      (some .empty)) := ⟨.ok, by decide +kernel, rfl⟩
  have hrefused : (empty_chain.add_new_block (input numbered "s")).1.map (fun block =>
      (empty_chain.add_block (transmitted block) true (some .empty)).1) = .ok (.ok false) := by
    decide +kernel
  obtain ⟨block, after, hadd⟩ := mines (i := input numbered "s") (by decide +kernel)
  rw [hadd] at hverified hrefused
  refine ⟨block, after, hadd, hverified, ?_⟩
  obtain ⟨d, header, counter, rfl, hform, -⟩ := mined_form rfl (add_new_block_eq_ok hadd).1
  have hfloats := hform.built.floatsRead ⟨⟨trivial, trivial, trivial⟩, trivial, trivial⟩
  rw [arrives_iff hfloats]
  rintro ⟨-, haccepted⟩
  have hfalse := Except.ok.inj hrefused
  simp only at hfalse
  rw [haccepted] at hfalse
  cases hfalse

end AnnouncedBlock

end EasyBlockchain
