/-
What a synchronisation session collects.

A session asks for the blocks after a height and a hash, and it takes a batch
when the blocks carry on: consecutive integer indices, each block naming the
hash of the one before. `accept_chain_batch_eq_some` says all there is to say
about one batch. An honest answer carries on for as long as the responder's
chain does, so whether it is taken depends on the limits alone.
-/
import EasyBlockchain.Node

set_option autoImplicit false

namespace EasyBlockchain

open Py Lib

/-! ## Blocks that carry on -/

/-- The hash a session expects to be named after the blocks `seen`. -/
def HashAfter (tip : PyVal) (seen : List Block) (previous_hash : PyVal) : Prop :=
  match seen.getLast? with
  | none => previous_hash = tip
  | some last => ∃ t, TranHashIs last t ∧ previous_hash = .str t

/-- A block carries on after a hash: its index is the one asked for, its own
hash is a string, and so is the hash it names, which is the one expected where
one is expected. -/
structure CarriesOn (index : ℤ) (previous_hash : PyVal) (block : Block) : Prop where
  index : block.item (lit "block_index") = .ok (.int index)
  tran_hash : ∃ t, TranHashIs block t
  prev_hash : ∃ p, PrevHashIs block p ∧ (previous_hash = .none ∨ previous_hash = .str p)

/-- A block may follow `seen` in a session that started at a height and a hash. -/
def Follows (start : ℤ) (tip : PyVal) (seen : List Block) (block : Block) : Prop :=
  ∀ previous_hash, HashAfter tip seen previous_hash →
    CarriesOn (start + seen.length) previous_hash block

theorem HashAfter.unique {tip : PyVal} {seen : List Block} {p q : PyVal} (hp : HashAfter tip seen p)
    (hq : HashAfter tip seen q) : p = q := by
  unfold HashAfter at hp hq
  rcases hlast : seen.getLast? with _ | last
  · rw [hlast] at hp hq
    exact hp.trans hq.symm
  · rw [hlast] at hp hq
    obtain ⟨t, ht, rfl⟩ := hp
    obtain ⟨t', ht', rfl⟩ := hq
    exact ht.unique ht'

theorem hashAfter_snoc {tip : PyVal} {seen : List Block} {block : Block} {t : Str}
    (ht : TranHashIs block t) : HashAfter tip (seen ++ [block]) (.str t) := by
  unfold HashAfter
  rw [List.getLast?_concat]
  exact ⟨t, ht, rfl⟩

theorem follows_iff {start : ℤ} {tip : PyVal} {seen : List Block} {block : Block} {p : PyVal}
    (hp : HashAfter tip seen p) :
    Follows start tip seen block ↔ CarriesOn (start + seen.length) p block := by
  constructor
  · intro h
    exact h p hp
  · intro h q hq
    rw [hq.unique hp]
    exact h

/-- One pass of the loop. -/
theorem check_block_eq_some {index : ℤ} {previous_hash : PyVal} {block : Block} {t : Str} :
    check_block index previous_hash block = some t ↔
      CarriesOn index previous_hash block ∧ TranHashIs block t := by
  constructor
  · intro h
    unfold check_block at h
    split at h
    · rename_i fields
      split at h
      · rename_i block_index header hindex hheader
        split at h
        · rename_i tran_hash prev_hash htran hprev
          split_ifs at h with hne hlink
          obtain rfl := Option.some.inj h
          have hitem : PyVal.item (.dict fields) (lit "block_header") = .ok (.dict header) := by
            rw [PyVal.item_dict, hheader, orRaise_some]
          have ht : TranHashIs (.dict fields) tran_hash :=
            ⟨_, hitem, by rw [PyVal.item_dict, htran, orRaise_some]⟩
          refine ⟨⟨?_, ⟨_, ht⟩, prev_hash, ⟨_, hitem, ?_⟩, ?_⟩, ht⟩
          · rw [PyVal.item_dict, hindex, orRaise_some, not_ne_iff.mp hne]
          · rw [PyVal.item_dict, hprev, orRaise_some]
          · by_cases hnone : previous_hash = .none
            · exact Or.inl hnone
            · simp only [ne_eq, hnone, not_false_eq_true, true_and, Bool.not_eq_true',
                Bool.not_eq_false] at hlink
              exact Or.inr (PyVal.str_eq_iff.mp hlink)
        · cases h
      · cases h
    · cases h
  · rintro ⟨⟨hindex, -, p, ⟨header, hheader, hp⟩, hlink⟩, header', hheader', ht⟩
    rw [hheader, Except.ok.injEq] at hheader'
    subst hheader'
    obtain ⟨fields, rfl, hfield⟩ := PyVal.item_eq_ok.mp hheader
    obtain ⟨entries, rfl, hprev⟩ := PyVal.item_eq_ok.mp hp
    rw [PyVal.item_dict, orRaise_eq_ok] at hindex ht
    have hmeet : ¬ (previous_hash ≠ .none ∧ (!(PyVal.str p).eq previous_hash) = true) := by
      rintro ⟨hne, hnot⟩
      rcases hlink with hnone | rfl
      · exact hne hnone
      · rw [PyVal.str_eq_iff.mpr rfl] at hnot
        cases hnot
    simp only [check_block, hindex, hfield, ht, hprev, ne_eq, not_true_eq_false, if_false]
    rw [if_neg hmeet]

/-- The loop passes over the blocks that carry on, and ends with the last hash. -/
theorem check_blocks_eq_some {start : ℤ} {tip : PyVal} {seen blocks : List Block} {p last : PyVal}
    (hp : HashAfter tip seen p) : check_blocks (start + seen.length) p blocks = some last ↔
      GrowsFrom (Follows start tip) seen blocks ∧ HashAfter tip (seen ++ blocks) last := by
  induction blocks generalizing seen p with
  | nil =>
      rw [check_blocks, Option.some.injEq, List.append_nil]
      constructor
      · rintro rfl
        exact ⟨trivial, hp⟩
      · rintro ⟨-, hlast⟩
        exact hp.unique hlast
  | cons block rest ih =>
      rw [check_blocks, GrowsFrom, follows_iff hp]
      rcases hcheck : check_block (start + seen.length) p block with _ | t
      · constructor
        · intro h
          cases h
        · rintro ⟨⟨hcarries, -⟩, -⟩
          obtain ⟨t, ht⟩ := hcarries.tran_hash
          rw [check_block_eq_some.mpr ⟨hcarries, ht⟩] at hcheck
          cases hcheck
      · obtain ⟨hcarries, ht⟩ := check_block_eq_some.mp hcheck
        have hindex : start + seen.length + 1 = start + ((seen ++ [block]).length : ℤ) := by
          rw [List.length_append, List.length_singleton]
          push_cast
          omega
        simp only [hindex, ih (hashAfter_snoc ht), List.append_assoc, List.singleton_append, hcarries,
          true_and]

/-! ## One batch -/

section Batch

variable [Runtime] {network : NetworkSettings} {session session' : ChainSyncSession} {payload : Dict}

/-- A batch is taken when it is asked for, within the limits, and carries on. -/
theorem accept_chain_batch_eq_some :
    accept_chain_batch network session payload = .ok (some session') ↔
      ∃ blocks has_more previous_hash size,
        batch_fields payload = some (blocks, has_more, session.expected_height,
          session.expected_height + blocks.length) ∧
        (has_more = true → blocks ≠ []) ∧
        blocks.length ≤ network.chain_sync_batch_size ∧
        session.blocks.length + blocks.length ≤ network.chain_sync_max_blocks ∧
        check_blocks session.expected_height session.expected_prev_hash blocks
          = some previous_hash ∧
        batch_bytes blocks = .ok size ∧
        session.received_bytes + size ≤ network.chain_sync_max_bytes ∧
        session' = ⟨session.blocks ++ blocks, session.done,
          session.expected_height + blocks.length, previous_hash, session.received_bytes + size⟩ := by
  constructor
  · intro h
    unfold accept_chain_batch at h
    split at h
    · cases h
    · rename_i blocks has_more from_height next_height hfields
      split at h
      · cases h
      rename_i hlimits
      simp only [not_or, not_lt, ne_eq, Decidable.not_not, not_and] at hlimits
      obtain ⟨rfl, rfl, hmore, hbatch, hcount⟩ := hlimits
      split at h
      · cases h
      · rename_i previous_hash hcheck
        obtain ⟨size, hsize, h⟩ := bind_eq_ok.mp h
        split at h
        · cases h
        rename_i hbytes
        obtain rfl := Option.some.inj (Except.ok.inj h)
        exact ⟨blocks, has_more, previous_hash, size, hfields, hmore, hbatch, hcount, hcheck, hsize,
          not_lt.mp hbytes, rfl⟩
  · rintro ⟨blocks, has_more, previous_hash, size, hfields, hmore, hbatch, hcount, hcheck, hsize,
      hbytes, rfl⟩
    have hlimits : ¬ (session.expected_height ≠ session.expected_height ∨
        session.expected_height + blocks.length ≠ session.expected_height + blocks.length ∨
        (has_more = true ∧ blocks = []) ∨ network.chain_sync_batch_size < blocks.length ∨
        network.chain_sync_max_blocks < session.blocks.length + blocks.length) := by
      rintro (hne | hne | ⟨hm, hnil⟩ | hlt | hlt)
      · exact hne rfl
      · exact hne rfl
      · exact hmore hm hnil
      · exact absurd hbatch (not_le.mpr hlt)
      · exact absurd hcount (not_le.mpr hlt)
    unfold accept_chain_batch
    simp only [hfields]
    rw [if_neg hlimits, hcheck]
    simp only [hsize, ok_bind]
    rw [if_neg (not_lt.mpr hbytes)]
    rfl

/-- What holds of a session that took every batch it was given: the blocks
carry on after the height and the hash it started from, and they are within the
limits. -/
structure ChainSyncSession.Collected (session : ChainSyncSession) (network : NetworkSettings)
    (start : ℤ) (tip : PyVal) : Prop where
  linked : Grows (Follows start tip) session.blocks
  height : session.expected_height = start + session.blocks.length
  hash : HashAfter tip session.blocks session.expected_prev_hash
  count : session.blocks.length ≤ network.chain_sync_max_blocks
  bytes : session.blocks ≠ [] → ∃ size, batch_bytes session.blocks = .ok size ∧
    size ≤ session.received_bytes
  received : session.received_bytes ≤ network.chain_sync_max_bytes

/-- Before the first batch. -/
theorem collected_new (network : NetworkSettings) (done : Bool) (start : ℤ) (tip : PyVal) :
    ChainSyncSession.Collected ⟨[], done, start, tip, 0⟩ network start tip where
  linked := grows_nil
  height := by simp
  hash := rfl
  count := by
    have := network.max_blocks_pos
    simp only [List.length_nil, Nat.cast_zero]
    omega
  bytes h := absurd rfl h
  received := by
    have := network.max_bytes_pos
    simp only [Nat.cast_zero]
    omega

/-- Batches of blocks add up to the bytes of all blocks. -/
theorem batch_bytes_append {xs ys : List Block} {a b : ℕ} (hx : xs ≠ [] → batch_bytes xs = .ok a)
    (hy : batch_bytes ys = .ok b) (hne : xs ++ ys ≠ []) :
    ∃ n, batch_bytes (xs ++ ys) = .ok n ∧ n ≤ a + b := by
  have hstyle : plainAscii.indent = false := rfl
  by_cases hxs : xs = []
  · subst hxs
    exact ⟨b, hy, by omega⟩
  by_cases hys : ys = []
  · subst hys
    rw [List.append_nil]
    exact ⟨a, hx hxs, by omega⟩
  · exact ⟨a + b, (jsonSize_list_append hstyle hxs hys).mpr ⟨a, b, hx hxs, hy, rfl⟩, le_rfl⟩

/-- The session after a batch it took. -/
theorem ChainSyncSession.Collected.accept {start : ℤ} {tip : PyVal}
    (h : session.Collected network start tip)
    (haccept : accept_chain_batch network session payload = .ok (some session')) :
    session'.Collected network start tip := by
  obtain ⟨blocks, has_more, previous_hash, size, -, -, -, hcount, hcheck, hsize, hbytes, rfl⟩ :=
    accept_chain_batch_eq_some.mp haccept
  rw [h.height, check_blocks_eq_some h.hash] at hcheck
  obtain ⟨hgrows, hafter⟩ := hcheck
  refine ⟨?_, ?_, hafter, ?_, ?_, ?_⟩
  · rw [Grows, growsFrom_append, List.nil_append]
    exact ⟨h.linked, hgrows⟩
  · rw [h.height, List.length_append]
    push_cast
    omega
  · rw [List.length_append]
    push_cast
    exact hcount
  · intro hne
    by_cases hblocks : session.blocks = []
    · obtain ⟨n, hn, hle⟩ := batch_bytes_append (a := session.received_bytes)
        (fun hnot => absurd hblocks hnot) hsize hne
      exact ⟨n, hn, hle⟩
    · obtain ⟨a, ha, hale⟩ := h.bytes hblocks
      obtain ⟨n, hn, hle⟩ := batch_bytes_append (fun _ => ha) hsize hne
      exact ⟨n, hn, hle.trans (Nat.add_le_add_right hale size)⟩
  · push_cast
    exact hbytes

/-- What an answer does to a session: nothing once the session has ended; it is
emptied and ended by a batch it does not take; else it takes the batch, and ends
unless more is announced. -/
theorem chain_response_cases {reply : SessionReply}
    (h : chain_response network session payload = .ok (session', reply)) :
    session.done = true ∧ session' = session ∧ reply = .ignored ∨
    session.done = false ∧ accept_chain_batch network session payload = .ok none ∧
      session' = { session with blocks := [], done := true } ∧ reply = .refused ∨
    session.done = false ∧ ∃ taken, accept_chain_batch network session payload = .ok (some taken) ∧
      (session' = taken ∧ reply = .request taken.expected_height ∨
        session' = { taken with done := true } ∧ reply = .finished) := by
  unfold chain_response at h
  by_cases hdone : session.done = true
  · rw [if_pos hdone, Except.ok.injEq, Prod.mk.injEq] at h
    exact Or.inl ⟨hdone, h.1.symm, h.2.symm⟩
  rw [if_neg hdone] at h
  rw [Bool.not_eq_true] at hdone
  right
  obtain ⟨accepted, haccept, h⟩ := bind_eq_ok.mp h
  rcases accepted with _ | taken
  · obtain ⟨rfl, rfl⟩ := Prod.mk.inj (Except.ok.inj h)
    exact Or.inl ⟨hdone, haccept, rfl, rfl⟩
  · refine Or.inr ⟨hdone, taken, haccept, ?_⟩
    simp only [pure_eq] at h
    by_cases hmore : ((Dict.find payload (lit "has_more")).getD (.bool false)).truthy = true
    · rw [if_pos hmore] at h
      obtain ⟨rfl, rfl⟩ := Prod.mk.inj (Except.ok.inj h)
      exact Or.inl ⟨rfl, rfl⟩
    · rw [if_neg hmore] at h
      obtain ⟨rfl, rfl⟩ := Prod.mk.inj (Except.ok.inj h)
      exact Or.inr ⟨rfl, rfl⟩

/-- A session holds what it collected, or was ended and emptied. -/
def ChainSyncSession.Kept (session : ChainSyncSession) (network : NetworkSettings) (start : ℤ)
    (tip : PyVal) : Prop :=
  session.Collected network start tip ∨ session.blocks = [] ∧ session.done = true

/-- Ending a session changes nothing else. -/
theorem ChainSyncSession.Collected.ended {start : ℤ} {tip : PyVal}
    (h : session.Collected network start tip) :
    { session with done := true }.Collected network start tip :=
  ⟨h.linked, h.height, h.hash, h.count, h.bytes, h.received⟩

/-- Whatever a peer answers, a session holds what it collected, or is emptied. -/
theorem ChainSyncSession.Kept.response {start : ℤ} {tip : PyVal} {reply : SessionReply}
    (h : session.Kept network start tip)
    (hresponse : chain_response network session payload = .ok (session', reply)) :
    session'.Kept network start tip := by
  rcases chain_response_cases hresponse with ⟨-, rfl, -⟩ | ⟨-, -, rfl, -⟩ | ⟨hlive, taken, haccept, hnext⟩
  · exact h
  · exact Or.inr ⟨rfl, rfl⟩
  · left
    have hcollected : session.Collected network start tip := by
      apply h.resolve_right
      rintro ⟨-, hdone⟩
      rw [hlive] at hdone
      cases hdone
    rcases hnext with ⟨rfl, -⟩ | ⟨rfl, -⟩
    · exact hcollected.accept haccept
    · exact (hcollected.accept haccept).ended

end Batch

/-! ## Fragments of a chain -/

/-- After collected blocks there is a hash to expect. -/
theorem exists_hashAfter {start : ℤ} {tip : PyVal} {blocks : List Block}
    (h : Grows (Follows start tip) blocks) : ∃ p, HashAfter tip blocks p := by
  refine Grows.rule (I := fun blocks => ∃ p, HashAfter tip blocks p) ⟨tip, rfl⟩ ?_ h
  intro pre x _ hpre hx
  obtain ⟨p, hp⟩ := hpre
  obtain ⟨t, ht⟩ := (hx p hp).tran_hash
  exact ⟨.str t, hashAfter_snoc ht⟩

/-- Each collected block carries on after the ones before it. -/
theorem carriesOn_getElem {start : ℤ} {tip : PyVal} {blocks : List Block}
    (h : Grows (Follows start tip) blocks) {i : ℕ} (hi : i < blocks.length) :
    ∃ p, HashAfter tip (blocks.take i) p ∧ CarriesOn (start + i) p (blocks.get ⟨i, hi⟩) := by
  obtain ⟨p, hp⟩ := exists_hashAfter (h.prefix_closed (List.take_prefix i blocks))
  have hcarries := h.getElem hi p hp
  rw [List.length_take_of_le hi.le] at hcarries
  exact ⟨p, hp, hcarries⟩

/-- The hash after more blocks, from where a session started. -/
theorem HashAfter.append {C seen : List Block} {tip p : PyVal} (htip : HashAfter .none C tip)
    (hp : HashAfter tip seen p) : HashAfter .none (C ++ seen) p := by
  rcases List.eq_nil_or_concat seen with rfl | ⟨seen, last, rfl⟩
  · rw [List.append_nil]
    have heq : p = tip := hp
    rw [heq]
    exact htip
  · simp only [HashAfter, List.concat_eq_append, ← List.append_assoc, List.getLast?_concat] at hp ⊢
    exact hp

/-- After a beginning of a valid chain there is a hash to expect. -/
theorem exists_hashAfter_take [Runtime] [Rsa] {c : Consensus} {genesis_stakes : StakeMap}
    {R : List Block} (hR : Grows (c.ChainStep genesis_stakes) R) (n : ℕ) :
    ∃ tip, HashAfter .none (R.take n) tip := by
  rcases List.eq_nil_or_concat (R.take n) with hnil | ⟨init, last, hconcat⟩
  · rw [hnil]
    exact ⟨.none, rfl⟩
  · have hgrows := hR.prefix_closed (List.take_prefix n R)
    rw [hconcat, List.concat_eq_append] at hgrows ⊢
    obtain ⟨-, -, t, ht⟩ := Consensus.linked_of_chainStep (grows_snoc.mp hgrows).2
    exact ⟨.str t, hashAfter_snoc ht⟩

/-- The hash expected after a chain is the hash its next block names. -/
theorem HashAfter.of_tipIs {C : List Block} {g q : Str} {p : PyVal} (hp : HashAfter .none C p)
    (hq : TipIs TranHashIs g C q) : p = .none ∨ p = .str q := by
  unfold HashAfter at hp
  unfold TipIs at hq
  rcases hlast : C.getLast? with _ | last
  · rw [hlast] at hp
    exact Or.inl hp
  · rw [hlast] at hp hq
    obtain ⟨t, ht, rfl⟩ := hp
    exact Or.inr (ht.unique hq)

/-- The blocks after the beginning `C` of a linked chain carry on after it, as
far as their indices are their heights. -/
theorem grows_follows {g : Str} {C blocks : List Block} {tip : PyVal}
    (hlinked : GrowsFrom (HashLinked g) C blocks) (hhash : ∀ block ∈ blocks, ∃ t, TranHashIs block t)
    (hheight : ∀ (i : ℕ) (hi : i < blocks.length),
      Consensus.HeightIs (blocks.get ⟨i, hi⟩) (C.length + i + 1))
    (htip : HashAfter .none C tip) : Grows (Follows (C.length + 1) tip) blocks := by
  induction blocks using List.reverseRecOn with
  | nil => exact grows_nil
  | append_singleton blocks block ih =>
      obtain ⟨hbefore, ⟨q, hq, hmeet⟩, -⟩ := growsFrom_append.mp hlinked
      have hgrows := ih hbefore (fun b hb => hhash b (List.mem_append_left _ hb)) (by
        intro i hi
        have h := hheight i (by rw [List.length_append]; omega)
        simpa [List.getElem_append_left hi] using h)
      refine grows_snoc.mpr ⟨hgrows, ?_⟩
      intro p hp
      refine ⟨?_, hhash block (by simp), q, hq, (htip.append hp).of_tipIs hmeet⟩
      have h := hheight blocks.length (by simp)
      simp only [List.get_eq_getElem, List.getElem_concat_length] at h
      rw [h]
      push_cast
      ring_nf

/-- Collected blocks have their heights as indices. -/
theorem heightIs_of_grows {h : ℕ} {tip : PyVal} {blocks : List Block}
    (hgrows : Grows (Follows (h + 1) tip) blocks) {i : ℕ} (hi : i < blocks.length) :
    Consensus.HeightIs (blocks.get ⟨i, hi⟩) (h + i + 1) := by
  obtain ⟨p, -, hcarries⟩ := carriesOn_getElem hgrows hi
  unfold Consensus.HeightIs
  rw [hcarries.index]
  push_cast
  ring_nf

/-! ## Where a session starts -/

section Start

variable [Rsa] {self : Node}

/-- A session starts after the local chain. -/
theorem start_session_eq {tip : PyVal} (h : HashAfter .none self.blockchain.chain tip) :
    self.start_session = .ok ⟨[], false, self.blockchain.chain.length + 1, tip, 0⟩ := by
  unfold Node.start_session
  unfold HashAfter at h
  rcases hlast : self.blockchain.chain.getLast? with _ | last
  · rw [hlast] at h
    simp only at h
    subst h
    have hnil : self.blockchain.chain = [] := List.getLast?_eq_none_iff.mp hlast
    simp [hnil]
  · rw [hlast] at h
    obtain ⟨t, ⟨header, hheader, ht⟩, rfl⟩ := h
    have hpos : 0 < self.blockchain.chain.length := by
      rw [List.length_pos_iff]
      rintro hnil
      rw [hnil] at hlast
      cases hlast
    simp only [hheader, ht, ok_bind, pure_eq, gt_iff_lt, hpos, if_true]

end Start

/-! ## Answers -/

section Answers

variable [Runtime] [Rsa] {self : Node}

/-- The blocks of an answer. -/
def Node.batch (self : Node) (from_height batch_size : ℤ) : List Block :=
  (self.blockchain.chain.drop (from_height - 1).toNat).take batch_size.toNat

/-- Whether an answer announces more. -/
def Node.has_more (self : Node) (from_height batch_size : ℤ) : Bool :=
  (self.batch from_height batch_size).length = batch_size &&
    from_height + (self.batch from_height batch_size).length ≤ self.blockchain.chain.length

omit [Runtime] in
theorem chain_reply_fields {from_height : ℤ} (h : 1 ≤ from_height) (batch_size : ℤ) :
    batch_fields (self.chain_reply from_height batch_size)
      = some (self.batch from_height batch_size, self.has_more from_height batch_size, from_height,
          from_height + (self.batch from_height batch_size).length) ∧
    (Dict.find (self.chain_reply from_height batch_size) (lit "has_more")).getD (.bool false)
      = .bool (self.has_more from_height batch_size) := by
  have hblocks : self.blockchain.get_blocks_from from_height (some batch_size.toNat)
      = self.batch from_height batch_size := by
    rw [BlockChain.get_blocks_from, if_neg (not_lt.mpr h)]
    rfl
  simp only [Node.chain_reply, hblocks]
  exact ⟨rfl, rfl⟩

omit [Runtime] in
/-- The request of a node that asks for a positive height. -/
theorem get_chain_request (requester : Node) {from_height : ℤ} (h : 1 ≤ from_height) :
    self.get_chain (requester.chain_request from_height)
      = .ok (self.chain_reply from_height
          (max 1 (min requester.network.chain_sync_batch_size self.network.chain_sync_batch_size))) := by
  have hfrom : (Dict.find (requester.chain_request from_height) (lit "from_height")).getD .none
      = .int from_height := rfl
  have hlimit : (Dict.find (requester.chain_request from_height) (lit "limit")).getD .none
      = .int requester.network.chain_sync_batch_size := rfl
  unfold Node.get_chain
  rw [hfrom, hlimit]
  simp only [resolve_get_chain_from_height, resolve_get_chain_batch_size, resolve_int,
    ProofOfWork.try_int, PyVal.toInt, ok_bind, pure_eq, Option.getD_some]
  rw [if_neg (not_lt.mpr h)]

/-- An answer to the expected request is taken when it carries on and the
limits allow it. -/
theorem accept_reply {network : NetworkSettings} {session session' : ChainSyncSession} {start : ℤ}
    {tip : PyVal} (h : session.Collected network start tip) (hstart : 1 ≤ start) {batch_size : ℤ}
    (hsize : 1 ≤ batch_size) :
    let batch := self.batch session.expected_height batch_size
    accept_chain_batch network session (self.chain_reply session.expected_height batch_size)
        = .ok (some session') ↔
      ∃ previous_hash size, batch.length ≤ network.chain_sync_batch_size ∧
        session.blocks.length + batch.length ≤ network.chain_sync_max_blocks ∧
        Grows (Follows start tip) (session.blocks ++ batch) ∧
        HashAfter tip (session.blocks ++ batch) previous_hash ∧
        batch_bytes batch = .ok size ∧
        session.received_bytes + size ≤ network.chain_sync_max_bytes ∧
        session' = ⟨session.blocks ++ batch, session.done,
          session.expected_height + batch.length, previous_hash, session.received_bytes + size⟩ := by
  intro batch
  have hheight : 1 ≤ session.expected_height := by
    rw [h.height]
    omega
  have hgrows : Grows (Follows start tip) (session.blocks ++ batch) ↔
      GrowsFrom (Follows start tip) session.blocks batch := by
    rw [Grows, growsFrom_append, List.nil_append]
    exact and_iff_right h.linked
  have hcheck : ∀ previous_hash,
      check_blocks session.expected_height session.expected_prev_hash batch = some previous_hash ↔
        GrowsFrom (Follows start tip) session.blocks batch ∧
          HashAfter tip (session.blocks ++ batch) previous_hash := by
    intro previous_hash
    rw [h.height]
    exact check_blocks_eq_some h.hash
  rw [accept_chain_batch_eq_some, (chain_reply_fields hheight batch_size).1, hgrows]
  constructor
  · rintro ⟨_, _, previous_hash, size, hfields, -, hbatch, hcount, hblocks, hbytes, hlimit, rfl⟩
    obtain ⟨rfl, -⟩ := Prod.mk.inj (Option.some.inj hfields)
    obtain ⟨hfollows, hafter⟩ := (hcheck previous_hash).mp hblocks
    exact ⟨previous_hash, size, hbatch, hcount, hfollows, hafter, hbytes, hlimit, rfl⟩
  · rintro ⟨previous_hash, size, hbatch, hcount, hfollows, hafter, hbytes, hlimit, rfl⟩
    refine ⟨batch, self.has_more session.expected_height batch_size, previous_hash, size, rfl, ?_,
      hbatch, hcount, (hcheck previous_hash).mpr ⟨hfollows, hafter⟩, hbytes, hlimit, rfl⟩
    intro hmore hnil
    simp only [Node.has_more, Bool.and_eq_true, decide_eq_true_eq] at hmore
    have hlen : (batch.length : ℤ) = batch_size := hmore.1
    rw [hnil, List.length_nil] at hlen
    omega

end Answers

end EasyBlockchain
