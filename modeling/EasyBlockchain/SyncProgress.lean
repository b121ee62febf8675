/-
What a synchronisation achieves.

Paging through a chain that may grow is exact: what a session holds in the end
is a run of the responder's chain from the height asked for, with everything
that was there at the first request. The limits of a session apply to all its
batches together, and a batch that goes over them throws away the ones before
it; so a session makes progress exactly when all the missing blocks fit at once.
-/
import EasyBlockchain.SyncExchange
import EasyBlockchain.LateFragment

set_option autoImplicit false

namespace EasyBlockchain

open Py Lib

section Paging

variable [Runtime] [Rsa]

/-- Paging from height `s` through a chain that grows between the requests, in
batches that both nodes allow. The exchange ends. Every answer is short enough,
and is taken when the limits allow it; without an answer beyond the limits
nothing raises and the responder stays connected, and in the end the session
holds the responder's chain from `s` on as it was at the last request, which
begins with all there was at the first. -/
theorem paging_exact (requester : Node) (responder : ℕ → Node) (g : Str) {s : ℕ} {tip : PyVal}
    (hs : 1 ≤ s) (hs' : s ≤ (responder 0).blockchain.chain.length + 1)
    (hbatch : 1 ≤ requester.network.chain_sync_batch_size)
    (hresponder : ∀ i, 1 ≤ (responder i).network.chain_sync_batch_size ∧
      (responder i).network = (responder 0).network)
    (hgrows : ∀ i, (responder i).blockchain.chain <+: (responder (i + 1)).blockchain.chain)
    (hchain : ∀ i, Exchange.Servable g 0 (responder i).blockchain.chain)
    (htip : HashAfter .none ((responder 0).blockchain.chain.take (s - 1)) tip) :
    let start : Exchange := ⟨⟨[], false, s, tip, 0⟩, some s, false, 0⟩
    let size := min requester.network.chain_sync_batch_size (responder 0).network.chain_sync_batch_size
    let served (i : ℕ) := (responder i).blockchain.chain.drop (s - 1)
    (∃ n, ∀ y, Exchange.after requester responder start n = .ok y → y.request = none) ∧
    (∀ n y from_height, Exchange.after requester responder start n = .ok y →
      y.request = some from_height → ∃ payload blocks has_more,
        (responder y.rounds).get_chain (requester.chain_request from_height) = .ok payload ∧
        batch_fields payload = some (blocks, has_more, from_height, from_height + blocks.length) ∧
        blocks.length ≤ size ∧
        (Within requester.network (y.session.blocks ++ blocks) → ∃ session,
          accept_chain_batch requester.network y.session payload = .ok (some session))) ∧
    (∀ n, (∀ i < n, Within requester.network ((served i).take ((i + 1) * size.toNat))) →
      ∃ y, Exchange.after requester responder start n = .ok y ∧ y.closed = false) ∧
    ∀ n y, Exchange.after requester responder start n = .ok y → y.request = none →
      y.closed = false → (∃ i, y.session.blocks = served i) ∧ served 0 <+: y.session.blocks := by
  intro start size served
  have hsize : ∀ i, ((size.toNat : ℕ) : ℤ) = max 1 (min requester.network.chain_sync_batch_size
      (responder i).network.chain_sync_batch_size) := by
    intro i
    have h0 := (hresponder 0).1
    rw [(hresponder i).2]
    omega
  have hlift : ∀ i, Exchange.Servable g (s - 1) (responder i).blockchain.chain := fun i =>
    ⟨(hchain i).linked, (hchain i).hashed, fun n hn _ => (hchain i).heights n hn (Nat.zero_le n)⟩
  have hr : Exchange.Responds requester responder g (s - 1) size.toNat tip :=
    ⟨hsize, hbatch, hgrows, hlift, by omega, htip⟩
  have hstart : start = Exchange.at_height (s - 1) tip := by
    have hcast : (((s - 1 : ℕ) : ℤ) + 1) = s := by omega
    simp only [start, Exchange.at_height, hcast]
  rw [hstart]
  refine ⟨⟨_, fun y hy => Exchange.after_ends hr hy⟩, ?_, ?_, ?_⟩
  · intro n y from_height hy hrequest
    cases Exchange.after_cases hr hy with
    | serving rounds serving within =>
        subst rounds
        obtain ⟨hk, hle⟩ := hr.le_batch_size
        have hfrom := serving.request
        rw [hrequest, Option.some.injEq] at hfrom
        have hpos : 1 ≤ from_height := by omega
        have hget := @get_chain_request _ (responder y.rounds) requester _ hpos
        rw [← hsize] at hget
        refine ⟨_, _, _, hget, (chain_reply_fields hpos _).1, ?_, ?_⟩
        · have hshort : ((responder y.rounds).batch from_height size.toNat).length ≤ size.toNat := by
            rw [Node.batch, Int.toNat_natCast]
            exact List.length_take_le _ _
          have := (hresponder 0).1
          omega
        · rw [hfrom, serving.batch.2]
          rintro ⟨hcount, total, htotal, hbytes⟩
          obtain ⟨previous_hash, hafter⟩ := exists_hashAfter (((hr.servable y.rounds).follows
            (by have := serving.length; omega) (hr.tip_at y.rounds)).prefix_closed
              (List.take_prefix ((y.rounds + 1) * size.toNat) _))
          exact ⟨_, (serving.accept (hr.servable y.rounds) (hr.tip_at y.rounds) hk hle _).mpr
            ⟨previous_hash, total, hafter, hcount, htotal, hbytes, rfl⟩⟩
    | finished i before request closed last blocks within =>
        rw [request] at hrequest
        cases hrequest
    | refused i before request closed blocks exceeded =>
        rw [request] at hrequest
        cases hrequest
  · intro n hwithin
    exact Exchange.after_ok hr hwithin
  · intro n y hy hrequest hopen
    cases Exchange.after_cases hr hy with
    | serving rounds serving within =>
        rw [serving.request] at hrequest
        cases hrequest
    | finished i before request closed last blocks within =>
        rw [blocks]
        exact ⟨⟨i, rfl⟩, (hr.begins i).drop _⟩
    | refused i before request closed blocks exceeded =>
        rw [closed] at hopen
        cases hopen

end Paging

/-! ## Progress -/

section Progress

variable [Runtime] [Rsa] {requester responder : Node} {c : Consensus} {R : List Block} {h : ℕ}

/-- A complete session with a responder: the requester is done without closing
it, and then holds `chain`. -/
def Synchronises (requester responder : Node) (chain : List Block) : Prop :=
  ∃ x n y, Exchange.start requester = .ok x ∧
    Exchange.after requester (fun _ => responder) x n = .ok y ∧ y.request = none ∧
    y.closed = false ∧ (requester.finish_session y.session).2.blockchain.chain = chain

/-- Two nodes on one valid chain, of which the requester has the first `h`
blocks. -/
structure Behind (requester responder : Node) (c : Consensus) (R : List Block) (h : ℕ) : Prop where
  runs : requester.Runs c
  valid : Verifies (verify_chain_integrity R (some c) c.genesis_prev_hash
    (some requester.genesis_stakes))
  behind : h < R.length
  requester_chain : requester.blockchain.chain = R.take h
  responder_chain : responder.blockchain.chain = R
  requester_batch : 1 ≤ requester.network.chain_sync_batch_size
  responder_batch : 1 ≤ responder.network.chain_sync_batch_size

/-- The request it starts with. -/
theorem Behind.start_eq (hb : Behind requester responder c R h) :
    ∃ tip, HashAfter .none (R.take h) tip ∧
      Exchange.start requester = .ok (Exchange.at_height h tip) := by
  obtain ⟨tip, htip⟩ := exists_hashAfter_take (Consensus.verifies_iff.mp hb.valid) h
  have hlen : (R.take h).length = h := List.length_take_of_le hb.behind.le
  have hstart := @start_session_eq _ requester tip
    (by rw [hb.requester_chain]; exact htip)
  rw [hb.requester_chain, hlen] at hstart
  refine ⟨tip, htip, ?_⟩
  rw [Exchange.start, hstart]
  rfl

/-- The responder can be followed where indices are heights. -/
theorem Behind.responds (hb : Behind requester responder c R h)
    (hheights : ∀ (n : ℕ) (hn : n < R.length), h ≤ n → Consensus.HeightIs (R.get ⟨n, hn⟩) (n + 1))
    {tip : PyVal} (htip : HashAfter .none (R.take h) tip) :
    Exchange.Responds requester (fun _ => responder) c.genesis_prev_hash h
      (min requester.network.chain_sync_batch_size
        responder.network.chain_sync_batch_size).toNat tip where
  batch_size _ := by
    have := hb.requester_batch
    have := hb.responder_batch
    omega
  positive := hb.requester_batch
  grows _ := List.prefix_refl _
  servable _ := by
    rw [hb.responder_chain]
    exact Exchange.servable_of_valid (Consensus.verifies_iff.mp hb.valid) hheights
  start := by
    rw [hb.responder_chain]
    exact hb.behind.le
  tip := by
    rw [hb.responder_chain]
    exact htip

/-- A complete session ends with all of the chain, and there is one exactly when
the limits allow all missing blocks at once. -/
theorem Behind.synchronises (hb : Behind requester responder c R h)
    (hheights : ∀ (n : ℕ) (hn : n < R.length), h ≤ n → Consensus.HeightIs (R.get ⟨n, hn⟩) (n + 1))
    {chain : List Block} : Synchronises requester responder chain ↔
      Within requester.network (R.drop h) ∧ chain = R := by
  obtain ⟨tip, htip, hstart⟩ := hb.start_eq
  have hr := hb.responds hheights htip
  generalize (min requester.network.chain_sync_batch_size
    responder.network.chain_sync_batch_size).toNat = k at hr
  have hR := Consensus.verifies_iff.mp hb.valid
  have hk := hr.le_batch_size.1
  -- a session that has collected the missing blocks ends with the whole chain
  have hends : ∀ session : ChainSyncSession, session.blocks = R.drop h →
      (requester.finish_session session).2.blockchain.chain = R := by
    intro session hblocks
    rw [finish_session_eq, hblocks, hb.runs.resolve_fork_extends hR hb.behind hb.requester_chain]
    rfl
  constructor
  · rintro ⟨x, n, y, hx, hy, hrequest, hopen, rfl⟩
    rw [hstart, Except.ok.injEq] at hx
    subst hx
    cases Exchange.after_cases hr hy with
    | serving rounds serving within =>
        rw [serving.request] at hrequest
        cases hrequest
    | finished i before request closed last blocks within =>
        rw [hb.responder_chain] at blocks last
        have hlast := within i le_rfl
        rw [hb.responder_chain, List.take_of_length_le (by rw [List.length_drop]; omega)] at hlast
        exact ⟨hlast, hends y.session blocks⟩
    | refused i before request closed blocks exceeded =>
        rw [closed] at hopen
        cases hopen
  · rintro ⟨hwithin, rfl⟩
    have hprefix : ∀ i, Within requester.network
        ((responder.blockchain.chain.drop h).take ((i + 1) * k)) := by
      intro i
      rw [hb.responder_chain]
      have hsplit := List.take_append_drop ((i + 1) * k) (chain.drop h)
      rw [← hsplit] at hwithin
      apply hwithin.of_append
      rw [← List.length_pos_iff, List.length_take, List.length_drop]
      have hpos : 0 < (i + 1) * k := Nat.mul_pos (Nat.succ_pos i) hk
      have := hb.behind
      omega
    obtain ⟨y, hy, hopen⟩ := Exchange.after_ok hr
      (n := requester.network.chain_sync_max_blocks.toNat + 1) fun i _ => hprefix i
    have hrequest := Exchange.after_ends hr hy
    refine ⟨_, _, y, hstart, hy, hrequest, hopen, ?_⟩
    cases Exchange.after_cases hr hy with
    | serving rounds serving within =>
        rw [serving.request] at hrequest
        cases hrequest
    | finished i before request closed last blocks within =>
        rw [hb.responder_chain] at blocks
        exact hends y.session blocks
    | refused i before request closed blocks exceeded =>
        rw [closed] at hopen
        cases hopen

end Progress

/-! ## Gossip and synchronisation -/

section Gossip

variable [Runtime] [Rsa] {requester responder : Node} {c : Consensus} {R : List Block} {h : ℕ}

/-- Whatever the responder is, the session of an exchange is kept. -/
theorem Exchange.after_kept {responder : ℕ → Node} {tip : PyVal} {n : ℕ} {y : Exchange}
    (hy : Exchange.after requester responder (Exchange.at_height h tip) n = .ok y) :
    y.session.Kept requester.network (h + 1) tip := by
  induction n generalizing y with
  | zero =>
      obtain rfl := Except.ok.inj hy
      exact Or.inl (collected_new requester.network false (h + 1) tip)
  | succ n ih =>
      obtain ⟨x, hx, hround⟩ := bind_eq_ok.mp hy
      have hkept := ih hx
      unfold Exchange.round at hround
      split at hround
      · obtain rfl := Except.ok.inj hround
        exact hkept
      · obtain ⟨payload, -, hround⟩ := bind_eq_ok.mp hround
        obtain ⟨⟨session, reply⟩, hresponse, hround⟩ := bind_eq_ok.mp hround
        have hnext := hkept.response hresponse
        cases reply with
        | ignored =>
            obtain rfl := Except.ok.inj hround
            exact hnext
        | refused =>
            obtain rfl := Except.ok.inj hround
            exact hnext
        | request from_height =>
            obtain rfl := Except.ok.inj hround
            exact hnext
        | finished =>
            obtain rfl := Except.ok.inj hround
            exact hnext

/-- A session that brings the whole chain has checked the missing indices. -/
theorem Behind.heights_of_synchronises (hb : Behind requester responder c R h)
    (hsync : Synchronises requester responder R) :
    ∀ (n : ℕ) (hn : n < R.length), h ≤ n → Consensus.HeightIs (R.get ⟨n, hn⟩) (n + 1) := by
  have hR := Consensus.verifies_iff.mp hb.valid
  have hlen : (R.take h).length = h := List.length_take_of_le hb.behind.le
  have hlocal : Grows (c.ChainStep requester.genesis_stakes) requester.blockchain.chain := by
    rw [hb.requester_chain]
    exact hR.prefix_closed (List.take_prefix h R)
  obtain ⟨tip, -, hstart⟩ := hb.start_eq
  obtain ⟨x, n, y, hx, hy, -, -, hafter⟩ := hsync
  rw [hstart, Except.ok.injEq] at hx
  subst hx
  rw [finish_session_eq] at hafter
  have hchanged : requester.blockchain.chain ≠ R := by
    intro heq
    rw [hb.requester_chain] at heq
    rw [heq] at hlen
    have := hb.behind
    omega
  rcases hrun : hb.runs.resolve_fork_cases hlocal y.session.blocks with hstay | ⟨chain, hform, -, -, hfork⟩
  · rw [hstay] at hafter
    exact absurd hafter hchanged
  rw [hfork] at hafter
  obtain rfl : chain = R := hafter
  rcases Exchange.after_kept hy with hcollected | ⟨hnil, -⟩
  · have hgrows := hcollected.linked
    have hblocks : y.session.blocks = chain.drop h := by
      rcases hform.forms with heq | heq
      · -- the blocks start at height one and at height `h + 1`
        rw [← heq] at hgrows ⊢
        have hpos : 0 < chain.length := by
          have := hb.behind
          omega
        have hheight := heightIs_of_grows hgrows hpos
        have hfirst := Consensus.heightIs_of_indexFollows
          (Consensus.linked_of_chainStep (hR.getElem hpos)).2.1 ⟨_, hheight⟩ (by simp)
        have hzero := Consensus.HeightIs.unique hheight hfirst
        simp only [List.take_zero, List.length_nil] at hzero
        obtain rfl : h = 0 := by omega
        exact List.drop_zero.symm
      · rw [hb.requester_chain] at heq
        have hdrop := congrArg (List.drop h) heq
        rw [List.drop_append_of_le_length hlen.ge, List.drop_of_length_le hlen.le,
          List.nil_append] at hdrop
        exact hdrop.symm
    rw [hblocks] at hgrows
    intro n hn hle
    have hindex := heightIs_of_grows hgrows (i := n - h) (by rw [List.length_drop]; omega)
    simpa [Nat.add_sub_cancel' hle] using hindex
  · rw [hnil] at hfork
    exact absurd (congrArg (fun r => r.2.blockchain.chain) hfork) hchanged

/-- The state a `NEW_BLOCK` leaves, whether it is handled or raises. -/
def Node.after_block (self : Node) (payload : Dict) : Node := (self.new_block payload).2

/-- A `NEW_BLOCK` changes nothing, or appends a block that may follow. -/
theorem Node.Runs.after_block_cases {node : Node} {pow : ProofOfWork} (hrun : node.Runs (.pow pow))
    (payload : Dict) : node.after_block payload = node ∨
      ∃ block, PowStep pow pow.genesis_prev_hash node.blockchain.chain block ∧
        node.after_block payload = { node with
          blockchain := { node.blockchain with chain := node.blockchain.chain ++ [block] } } := by
  have hgenesis : node.blockchain.genesis_prev_hash = pow.genesis_prev_hash := hrun.genesis
  unfold Node.after_block Node.new_block
  split
  · rename_i entry entries _
    rcases hadd : node.blockchain.add_block (.dict (entry :: entries)) true
      (some node.genesis_stakes) with ⟨added, blockchain⟩
    rcases pow_add_block_ok hrun.consensus hadd with ⟨rfl, rfl⟩ | ⟨-, rfl⟩
    · right
      refine ⟨.dict (entry :: entries), ?_, rfl⟩
      rw [← hgenesis]
      exact (pow_add_block hrun.consensus _ _).mp hadd
    · exact Or.inl rfl
  · exact Or.inl rfl

/-- A proof-of-work node on a valid chain stays on one, whatever blocks it is
sent. -/
theorem grows_run {node : Node} {pow : ProofOfWork} (hrun : node.Runs (.pow pow))
    (hlocal : Grows (PowStep pow pow.genesis_prev_hash) node.blockchain.chain) (payloads : List Dict) :
    Grows (PowStep pow pow.genesis_prev_hash)
      (run Node.after_block node payloads).blockchain.chain := by
  induction payloads generalizing node with
  | nil => exact hlocal
  | cons payload payloads ih =>
      rcases hrun.after_block_cases payload with hstay | ⟨block, hstep, hafter⟩
      · have hrest := ih hrun hlocal
        rw [← hstay] at hrest
        exact hrest
      · have hrest := @ih (node.after_block payload)
          (by rw [hafter]; exact ⟨hrun.consensus, hrun.genesis⟩)
          (by rw [hafter]; exact grows_snoc.mpr ⟨hlocal, hstep⟩)
        exact hrest

/-- What a proof-of-work node accepts from nothing on is a valid chain. -/
theorem grows_of_gossip {node : Node} {pow : ProofOfWork} (hrun : node.Runs (.pow pow))
    (hempty : node.blockchain.chain = []) {payloads : List Dict} {R : List Block}
    (hgossip : (run Node.after_block node payloads).blockchain.chain = R) :
    Grows (PowStep pow pow.genesis_prev_hash) R := by
  rw [← hgossip]
  apply grows_run hrun
  rw [hempty]
  exact grows_nil

/-- A batch of an honest node is taken exactly when the indices of its blocks
are integers, where the limits allow it. -/
theorem Behind.accepts_batch (hb : Behind requester responder c R h) {k : ℕ} (hk : 1 ≤ k)
    (hbatch : ((R.drop h).take k).length ≤ requester.network.chain_sync_batch_size)
    (hwithin : Within requester.network ((R.drop h).take k)) {first : ChainSyncSession}
    (hfirst : requester.start_session = .ok first) :
    (∃ session, accept_chain_batch requester.network first (responder.chain_reply (h + 1) k)
      = .ok (some session)) ↔
        ∀ (n : ℕ) (hn : n < R.length), h ≤ n → n < h + k →
          Consensus.HeightIs (R.get ⟨n, hn⟩) (n + 1) := by
  have hR := Consensus.verifies_iff.mp hb.valid
  have hlen : (R.take h).length = h := List.length_take_of_le hb.behind.le
  obtain ⟨tip, htip⟩ := exists_hashAfter_take hR h
  have hstart := @start_session_eq _ requester tip
    (by rw [hb.requester_chain]; exact htip)
  rw [hstart, Except.ok.injEq, hb.requester_chain, hlen] at hfirst
  subst hfirst
  have hindex : ((h : ℤ) + 1 - 1).toNat = h := by omega
  have hblocks : responder.batch (h + 1) k = (R.drop h).take k := by
    rw [Node.batch, hindex, Int.toNat_natCast, hb.responder_chain]
  have hreply := fun session' => @accept_reply _ _ responder requester.network _ session' _ _
    (collected_new requester.network false (h + 1) tip) (by omega) k (by omega)
  simp only [hblocks, List.nil_append] at hreply
  constructor
  · rintro ⟨session, haccept⟩ n hn hle hlt
    obtain ⟨-, -, -, -, hgrows, -⟩ := (hreply session).mp haccept
    have hheight := heightIs_of_grows hgrows (i := n - h)
      (by rw [List.length_take, List.length_drop]; omega)
    simpa [Nat.add_sub_cancel' hle] using hheight
  · intro hheights
    -- the chain as far as the batch reaches
    have hgrows : Grows (Follows (h + 1) tip) ((R.drop h).take k) := by
      have hvalid := hR.prefix_closed (List.take_prefix (h + k) R)
      have hservable := Exchange.servable_of_valid hvalid (h := h) fun n hn hle => by
        rw [List.length_take] at hn
        have hheight := hheights n (by omega) hle (by omega)
        simpa using hheight
      have hfollows := hservable.follows
        (by rw [List.length_take]; have := hb.behind; omega)
        (by rw [List.take_take, Nat.min_eq_left (by omega)]; exact htip)
      rw [List.drop_take, Nat.add_sub_cancel_left] at hfollows
      exact hfollows
    obtain ⟨previous_hash, hafter⟩ := exists_hashAfter hgrows
    obtain ⟨hcount, size, hsize, hbytes⟩ := hwithin
    refine ⟨_, (hreply _).mpr ⟨previous_hash, size, hbatch, ?_, hgrows, hafter, hsize, ?_, rfl⟩⟩
    · simpa using hcount
    · simpa using hbytes

/-- A chain that a proof-of-work node got by gossip, and another node that has
its first `h` blocks. Every answer from height `h + 1` within the limits is
taken exactly when the indices of its blocks are integers, and the chain as a
whole is synchronised exactly when all indices from there on are. -/
theorem gossip_synchronises {pow : ProofOfWork} {node : Node} (hrun : node.Runs (.pow pow))
    (hempty : node.blockchain.chain = []) (payloads : List Dict)
    (hgossip : (run Node.after_block node payloads).blockchain.chain = R)
    (hh : h < R.length) (hrequester : requester.Runs (.pow pow))
    (hlocal : requester.blockchain.chain = R.take h) (hresponder : responder.blockchain.chain = R)
    (hbatch : 1 ≤ requester.network.chain_sync_batch_size)
    (hbatch' : 1 ≤ responder.network.chain_sync_batch_size) :
    (∀ (k : ℕ) (first : ChainSyncSession), 1 ≤ k →
      ((R.drop h).take k).length ≤ requester.network.chain_sync_batch_size →
      Within requester.network ((R.drop h).take k) → requester.start_session = .ok first →
        ((∃ session, accept_chain_batch requester.network first (responder.chain_reply (h + 1) k)
            = .ok (some session)) ↔
          ∀ (n : ℕ) (hn : n < R.length), h ≤ n → n < h + k →
            Consensus.HeightIs (R.get ⟨n, hn⟩) (n + 1))) ∧
    (Within requester.network (R.drop h) → (Synchronises requester responder R ↔
      ∀ (n : ℕ) (hn : n < R.length), h ≤ n → Consensus.HeightIs (R.get ⟨n, hn⟩) (n + 1))) := by
  have hR := grows_of_gossip hrun hempty hgossip
  have hb : Behind requester responder (.pow pow) R h :=
    ⟨hrequester, Consensus.verifies_iff.mpr hR, hh, hlocal, hresponder, hbatch, hbatch'⟩
  constructor
  · intro k first hk hshort hwithin hfirst
    exact hb.accepts_batch hk hshort hwithin hfirst
  · intro hwithin
    constructor
    · exact hb.heights_of_synchronises
    · intro hheights
      exact (hb.synchronises hheights).mpr ⟨hwithin, rfl⟩

end Gossip

/-! ## Three blocks between two nodes -/

namespace Rewritten

attribute [local instance] cpython letterRsa

theorem integers_mined :
    ∀ block ∈ mined, ∃ i : ℤ, block.item (lit "block_index") = .ok (.int i) := by
  intro block hblock
  simp only [mined, chain, List.mem_cons, List.not_mem_nil, or_false] at hblock
  rcases hblock with rfl | rfl | rfl
  · exact ⟨1, rfl⟩
  · exact ⟨2, rfl⟩
  · exact ⟨3, rfl⟩

theorem heights_mined (n : ℕ) (hn : n < mined.length) :
    Consensus.HeightIs (mined.get ⟨n, hn⟩) (n + 1) :=
  Consensus.heights_of_integers (@grows_mined .empty) integers_mined hn

theorem behind_mined {network : NetworkSettings} (hbatch : 1 ≤ network.chain_sync_batch_size) :
    Behind (node network []) (node network mined) (.pow pow) mined 0 :=
  ⟨node_runs network [], verifies_mined_stakes .empty, by decide, rfl, rfl, hbatch, hbatch⟩

/-- The theorem on paging, from the second block on. -/
theorem paging_mined :
    let responder : ℕ → Node := fun _ => node network mined
    let start : Exchange := ⟨⟨[], false, (2 : ℕ), .str hash₁, 0⟩, some (2 : ℕ), false, 0⟩
    let size := min network.chain_sync_batch_size network.chain_sync_batch_size
    let served (i : ℕ) := (responder i).blockchain.chain.drop (2 - 1)
    (∃ n, ∀ y, Exchange.after (node network []) responder start n = .ok y → y.request = none) ∧
    (∀ n y from_height, Exchange.after (node network []) responder start n = .ok y →
      y.request = some from_height → ∃ payload blocks has_more,
        (responder y.rounds).get_chain ((node network []).chain_request from_height) = .ok payload ∧
        batch_fields payload = some (blocks, has_more, from_height, from_height + blocks.length) ∧
        blocks.length ≤ size ∧
        (Within network (y.session.blocks ++ blocks) → ∃ session,
          accept_chain_batch network y.session payload = .ok (some session))) ∧
    (∀ n, (∀ i < n, Within network ((served i).take ((i + 1) * size.toNat))) →
      ∃ y, Exchange.after (node network []) responder start n = .ok y ∧ y.closed = false) ∧
    ∀ n y, Exchange.after (node network []) responder start n = .ok y → y.request = none →
      y.closed = false → (∃ i, y.session.blocks = served i) ∧ served 0 <+: y.session.blocks :=
  paging_exact (node network []) (fun _ => node network mined) DEFAULT_GENESIS_PREV_HASH
    (by decide : 1 ≤ 2) (by decide) (by decide) (fun _ => ⟨by decide, rfl⟩)
    (fun _ => List.prefix_refl _)
    (fun _ => Exchange.servable_of_valid (@grows_mined .empty)
      fun n hn _ => heights_mined n hn)
    ⟨hash₁, ⟨_, rfl, rfl⟩, rfl⟩

/-- Batches of one block, and at most two blocks a session. -/
def tight : NetworkSettings :=
  { network with
    chain_sync_batch_size := 1, chain_sync_max_blocks := 2, max_blocks_pos := by decide }

/-- The first block with `true` for its index, which Python takes for one. -/
def flagged : Block := .dict
  [(.str (lit "block_index"), .bool true),
    (.str (lit "block_item"), .str (lit "2024-01-01 00:00:00")),
    (.str (lit "block_header"), .dict
      [(.str (lit "prev_hash"), .str DEFAULT_GENESIS_PREV_HASH),
        (.str (lit "consensus_type"), .str (lit "pow")),
        (.str (lit "tran_hash"), .str hash₁),
        (.str (lit "nonce"), .int 8),
        (.str (lit "difficulty"), .int 1)]),
    (.str (lit "tran_counter"), .int 2),
    (.str (lit "tran_body"), .dict
      [(.str (lit "input_data"), .str (lit "a")), (.str (lit "output_data"), .str (lit "b"))])]

/-- The payload of a `NEW_BLOCK` with a block. -/
def gossip (block : Block) : Dict :=
  [(.str (lit "block"), block), (.str (lit "node_id"), .str (lit "remote"))]

theorem gossip_flagged :
    (run Node.after_block (node network []) [gossip flagged]).blockchain.chain = [flagged] := by
  decide +kernel

theorem gossip_mined :
    (run Node.after_block (node network []) (mined.map gossip)).blockchain.chain = mined := by
  decide +kernel

theorem grows_flagged : Grows (PowStep pow pow.genesis_prev_hash) [flagged] :=
  grows_of_gossip (node_runs network []) rfl gossip_flagged

theorem behind_flagged :
    Behind (node network []) (node network [flagged]) (.pow pow) [flagged] 0 where
  runs := node_runs network []
  valid := Consensus.verifies_iff.mpr grows_flagged
  behind := Nat.zero_lt_one
  requester_chain := rfl
  responder_chain := rfl
  requester_batch := by decide
  responder_batch := by decide

theorem index_flagged : ¬ Consensus.HeightIs flagged 1 := by
  intro hheight
  have hindex : PyVal.bool true = .int 1 := Except.ok.inj hheight
  cases hindex

/-- Gossip accepts the block, and no synchronisation passes it on. -/
theorem flagged_not_synchronised :
    (run Node.after_block (node network []) [gossip flagged]).blockchain.chain = [flagged] ∧
    Within network [flagged] ∧
    ¬ Synchronises (node network []) (node network [flagged]) [flagged] :=
  ⟨gossip_flagged, by decide +kernel, fun hsync =>
    index_flagged (behind_flagged.heights_of_synchronises hsync 0 (by decide) le_rfl)⟩

/-- The theorem on the three blocks, from the second one on. -/
theorem gossip_synchronises_mined :
    (∀ (k : ℕ) (first : ChainSyncSession), 1 ≤ k →
      ((mined.drop 1).take k).length ≤ network.chain_sync_batch_size →
      Within network ((mined.drop 1).take k) →
      (node network (mined.take 1)).start_session = .ok first →
        ((∃ session, accept_chain_batch network first ((node network mined).chain_reply 2 k)
            = .ok (some session)) ↔
          ∀ (n : ℕ) (hn : n < mined.length), 1 ≤ n → n < 1 + k →
            Consensus.HeightIs (mined.get ⟨n, hn⟩) (n + 1))) ∧
    (Within network (mined.drop 1) →
      (Synchronises (node network (mined.take 1)) (node network mined) mined ↔
        ∀ (n : ℕ) (hn : n < mined.length), 1 ≤ n → Consensus.HeightIs (mined.get ⟨n, hn⟩) (n + 1))) :=
  gossip_synchronises (node_runs network []) rfl (mined.map gossip) gossip_mined (by decide)
    (node_runs network _) rfl rfl (by decide) (by decide)

end Rewritten

end EasyBlockchain
