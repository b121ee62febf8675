/-
A synchronisation between two nodes, answer by answer.

The responder's chain may grow between two requests. While every answer is full
the session holds a beginning of what the responder has after the start, as
long as the number of answers times the batch size; an answer that is not full
ends it with everything the responder has. `Exchange.Serving.round` says what
one answer can do, and `Exchange.after_cases` where any number of answers can
lead.
-/
import EasyBlockchain.SyncSession
import EasyBlockchain.ForkResolution

set_option autoImplicit false

namespace EasyBlockchain

open Py Lib

/-! ## Exchanges -/

structure Exchange where
  session : ChainSyncSession
  /-- the height of the request that waits for its answer -/
  request : Option ℤ
  /-- whether the requester has closed the responder -/
  closed : Bool
  /-- the number of answers so far -/
  rounds : ℕ

namespace Exchange

section Defs

variable [Runtime] [Rsa]

omit [Runtime] in
/-- `_request_chain` up to its request. -/
def start (requester : Node) : PyM Exchange := do
  let session ← requester.start_session
  return ⟨session, some session.expected_height, false, 0⟩

/-- One request, its answer, and what the requester makes of it. The responder
of each round is given, since its chain may have grown. -/
def round (requester : Node) (responder : ℕ → Node) (x : Exchange) : PyM Exchange :=
  match x.request with
  | none => .ok x
  | some from_height => do
    let payload ← (responder x.rounds).get_chain (requester.chain_request from_height)
    let (session, reply) ← chain_response requester.network x.session payload
    match reply with
    | .request next_height => return ⟨session, some next_height, x.closed, x.rounds + 1⟩
    | .refused => return ⟨session, none, true, x.rounds + 1⟩
    | .finished | .ignored => return ⟨session, none, x.closed, x.rounds + 1⟩

/-- The exchange after a number of rounds. -/
def after (requester : Node) (responder : ℕ → Node) (x : Exchange) : ℕ → PyM Exchange
  | 0 => .ok x
  | n + 1 => after requester responder x n >>= round requester responder

end Defs

end Exchange

/-! ## Limits -/

section Limits

variable [Runtime]

/-- Blocks that a session may hold. -/
def Within (network : NetworkSettings) (blocks : List Block) : Prop :=
  blocks.length ≤ network.chain_sync_max_blocks ∧
    ∃ size : ℕ, batch_bytes blocks = .ok size ∧ size ≤ network.chain_sync_max_bytes

instance (network : NetworkSettings) (blocks : List Block) : Decidable (Within network blocks) :=
  match hsize : batch_bytes blocks with
  | .error e => isFalse (by
      rintro ⟨-, size, hok, -⟩
      rw [hsize] at hok
      cases hok)
  | .ok size => decidable_of_iff (blocks.length ≤ network.chain_sync_max_blocks ∧
      size ≤ network.chain_sync_max_bytes) (by
        simp only [Within, hsize, Except.ok.injEq, exists_eq_left'])

/-- What begins blocks within the limits is within the limits. -/
theorem Within.of_append {network : NetworkSettings} {xs ys : List Block}
    (h : Within network (xs ++ ys)) (hxs : xs ≠ []) : Within network xs := by
  obtain ⟨hcount, size, hsize, hle⟩ := h
  rw [List.length_append] at hcount
  by_cases hys : ys = []
  · subst hys
    rw [List.append_nil] at hsize
    exact ⟨by simpa using hcount, size, hsize, hle⟩
  · obtain ⟨a, b, ha, -, rfl⟩ := (jsonSize_list_append rfl hxs hys).mp hsize
    exact ⟨by push_cast at hcount; omega, a, ha, by push_cast at hle; omega⟩

end Limits

namespace Exchange

/-! ## One round -/

section Round

variable [Runtime] [Rsa]

/-- The batch size two nodes end up with. -/
def batch_size (requester responder : NetworkSettings) : ℕ :=
  (max 1 (min requester.chain_sync_batch_size responder.chain_sync_batch_size)).toNat

/-- A chain that a session can follow from height `h` on: linked by its hashes,
with its heights as indices. -/
structure Servable (g : Str) (h : ℕ) (chain : List Block) : Prop where
  linked : Grows (HashLinked g) chain
  hashed : ∀ block ∈ chain, ∃ t, TranHashIs block t
  heights : ∀ (n : ℕ) (hn : n < chain.length), h ≤ n →
    Consensus.HeightIs (chain.get ⟨n, hn⟩) (n + 1)

/-- An exchange whose answers were full so far. -/
structure Serving (x : Exchange) (network : NetworkSettings) (chain : List Block) (h k : ℕ)
    (tip : PyVal) : Prop where
  collected : x.session.Collected network (h + 1) tip
  blocks : x.session.blocks = (chain.drop h).take (x.rounds * k)
  length : h + x.rounds * k ≤ chain.length
  unfinished : x.rounds ≠ 0 → h + x.rounds * k < chain.length
  no_bytes : x.session.blocks = [] → x.session.received_bytes = 0
  bytes : x.session.blocks ≠ [] → batch_bytes x.session.blocks = .ok x.session.received_bytes
  live : x.session.done = false
  request : x.request = some ((h : ℤ) + 1 + (x.rounds * k : ℕ))
  closed : x.closed = false

/-- A valid chain is servable from where its indices are its heights. -/
theorem servable_of_valid {c : Consensus} {genesis_stakes : StakeMap} {R : List Block} {h : ℕ}
    (hR : Grows (c.ChainStep genesis_stakes) R)
    (hheights : ∀ (n : ℕ) (hn : n < R.length), h ≤ n →
      Consensus.HeightIs (R.get ⟨n, hn⟩) (n + 1)) : Servable c.genesis_prev_hash h R where
  linked := hR.imp fun _ _ _ hstep => (Consensus.linked_of_chainStep hstep).1
  hashed := by
    intro block hblock
    obtain ⟨pre, post, rfl⟩ := List.append_of_mem hblock
    exact (Consensus.linked_of_chainStep (grows_iff_split.mp hR pre block post rfl)).2.2
  heights := hheights

omit [Runtime] [Rsa] in
/-- What a servable chain has after a height carries on after it. -/
theorem Servable.follows {g : Str} {h : ℕ} {chain : List Block} (hs : Servable g h chain)
    (hh : h ≤ chain.length) {tip : PyVal} (htip : HashAfter .none (chain.take h) tip) :
    Grows (Follows (h + 1) tip) (chain.drop h) := by
  have hlen : (chain.take h).length = h := List.length_take_of_le hh
  have hsplit : chain.take h ++ chain.drop h = chain := List.take_append_drop h chain
  have hlinked : GrowsFrom (HashLinked g) (chain.take h) (chain.drop h) := by
    have hgrows := hs.linked
    rw [← hsplit, Grows, growsFrom_append, List.nil_append] at hgrows
    exact hgrows.2
  have hgrows := grows_follows hlinked
    (fun block hblock => hs.hashed block (List.mem_of_mem_drop hblock)) (by
      intro i hi
      rw [List.length_drop] at hi
      have hheight := hs.heights (h + i) (by omega) (by omega)
      rw [hlen]
      simpa using hheight) htip
  rw [hlen] at hgrows
  exact hgrows

variable {requester responder : Node} {g : Str} {h k : ℕ} {tip : PyVal} {x : Exchange}

omit [Runtime] [Rsa] in
/-- The blocks so far and the next batch are the blocks so far a round later. -/
theorem take_round (chain : List Block) (h rounds k : ℕ) :
    (chain.drop h).take (rounds * k) ++ (chain.drop (h + rounds * k)).take k
      = (chain.drop h).take ((rounds + 1) * k) := by
  rw [← List.drop_drop, Nat.succ_mul, List.take_add]

/-- The batch that answers the request of an exchange. -/
theorem Serving.batch (hs : x.Serving requester.network responder.blockchain.chain h k tip) :
    x.session.expected_height = h + 1 + (x.rounds * k : ℕ) ∧
      x.session.blocks ++ responder.batch (h + 1 + (x.rounds * k : ℕ)) k
        = (responder.blockchain.chain.drop h).take ((x.rounds + 1) * k) := by
  constructor
  · rw [hs.collected.height, hs.blocks, List.length_take, List.length_drop,
      Nat.min_eq_left (by have := hs.length; omega)]
  · have hindex : ((h : ℤ) + 1 + (x.rounds * k : ℕ) - 1).toNat = h + x.rounds * k := by omega
    rw [Node.batch, hindex, Int.toNat_natCast, hs.blocks, take_round]

/-- The bytes of the next batch add to those received. -/
theorem Serving.bytes_after (hs : x.Serving requester.network responder.blockchain.chain h k tip)
    (hk : 1 ≤ k) (total : ℕ) :
    batch_bytes ((responder.blockchain.chain.drop h).take ((x.rounds + 1) * k)) = .ok total ↔
      ∃ size, batch_bytes (responder.batch (h + 1 + (x.rounds * k : ℕ)) k) = .ok size ∧
        total = x.session.received_bytes + size := by
  obtain ⟨-, hblocks⟩ := hs.batch
  by_cases hnil : x.session.blocks = []
  · rw [hnil, List.nil_append] at hblocks
    rw [hblocks, hs.no_bytes hnil]
    simp only [zero_add, exists_eq_right']
  · -- a later batch is not empty
    have hrounds : x.rounds ≠ 0 := by
      intro hzero
      rw [hs.blocks, hzero, Nat.zero_mul, List.take_zero] at hnil
      exact hnil rfl
    have hne : responder.batch (h + 1 + (x.rounds * k : ℕ)) k ≠ [] := by
      have hlt := hs.unfinished hrounds
      rw [← List.length_pos_iff, Node.batch, List.length_take, List.length_drop]
      omega
    rw [← hblocks, batch_bytes, jsonSize_list_append rfl hnil hne]
    have hreceived := hs.bytes hnil
    unfold batch_bytes at hreceived ⊢
    constructor
    · rintro ⟨a, b, ha, hb, rfl⟩
      rw [hreceived, Except.ok.injEq] at ha
      exact ⟨b, hb, by rw [ha]⟩
    · rintro ⟨size, hsize, rfl⟩
      exact ⟨_, size, hreceived, hsize, rfl⟩

/-- The answer to a request is taken when the limits allow all blocks so far. -/
theorem Serving.accept (hs : x.Serving requester.network responder.blockchain.chain h k tip)
    (hservable : Servable g h responder.blockchain.chain)
    (htip : HashAfter .none (responder.blockchain.chain.take h) tip)
    (hk : 1 ≤ k) (hpos : k ≤ requester.network.chain_sync_batch_size)
    (session' : ChainSyncSession) :
    let blocks := (responder.blockchain.chain.drop h).take ((x.rounds + 1) * k)
    accept_chain_batch requester.network x.session
        (responder.chain_reply (h + 1 + (x.rounds * k : ℕ)) k) = .ok (some session') ↔
      ∃ previous_hash total, HashAfter tip blocks previous_hash ∧
        blocks.length ≤ requester.network.chain_sync_max_blocks ∧
        batch_bytes blocks = .ok total ∧ total ≤ requester.network.chain_sync_max_bytes ∧
        session' = ⟨blocks, false, h + 1 + blocks.length, previous_hash, total⟩ := by
  intro blocks
  obtain ⟨hheight, hblocks⟩ := hs.batch
  have hbytes := hs.bytes_after hk
  have hlength := hs.length
  -- all of it carries on; only the sizes are in question
  have hfollows : Grows (Follows (h + 1) tip) blocks :=
    (hservable.follows (by omega) htip).prefix_closed (List.take_prefix _ _)
  have hbatch : ((responder.batch (h + 1 + (x.rounds * k : ℕ)) k).length : ℤ)
      ≤ requester.network.chain_sync_batch_size := by
    rw [Node.batch, List.length_take, Int.toNat_natCast]
    push_cast
    omega
  have hcount : (x.session.blocks.length + (responder.batch (h + 1 + (x.rounds * k : ℕ)) k).length : ℤ)
      = blocks.length := by
    rw [← Nat.cast_add, ← List.length_append, hblocks]
  have hnext : x.session.expected_height + (responder.batch (h + 1 + (x.rounds * k : ℕ)) k).length
      = h + 1 + blocks.length := by
    rw [hs.collected.height, ← hcount]
    ring
  rw [← hheight] at hblocks hbatch hcount hnext hbytes ⊢
  have hreply := @accept_reply _ _ responder _ _ session' _ _ hs.collected (by omega) k (by omega)
  dsimp only at hreply
  rw [hreply, hblocks, hcount, hnext, hs.live]
  constructor
  · rintro ⟨previous_hash, size, -, hc, -, hafter, hsize, hle, rfl⟩
    exact ⟨previous_hash, _, hafter, hc, (hbytes _).mpr ⟨size, hsize, rfl⟩, by push_cast; exact hle, rfl⟩
  · rintro ⟨previous_hash, total, hafter, hc, htotal, hle, rfl⟩
    obtain ⟨size, hsize, rfl⟩ := (hbytes total).mp htotal
    exact ⟨previous_hash, size, hbatch, hc, hfollows, hafter, hsize, by push_cast at hle; exact hle, rfl⟩

/-- More is announced exactly when the responder has more. -/
theorem Serving.has_more (hs : x.Serving requester.network responder.blockchain.chain h k tip) :
    responder.has_more (h + 1 + (x.rounds * k : ℕ)) k = true ↔
      h + (x.rounds + 1) * k < responder.blockchain.chain.length := by
  have hindex : ((h : ℤ) + 1 + (x.rounds * k : ℕ) - 1).toNat = h + x.rounds * k := by omega
  have hlength := hs.length
  have hmul : (x.rounds + 1) * k = x.rounds * k + k := Nat.succ_mul x.rounds k
  simp only [Node.has_more, Node.batch, hindex, Int.toNat_natCast, List.length_take,
    List.length_drop, Bool.and_eq_true, decide_eq_true_eq, Nat.cast_inj]
  rw [hmul]
  constructor
  · rintro ⟨hfull, hmore⟩
    rw [hfull] at hmore
    omega
  · intro hlt
    have hfull : min k (responder.blockchain.chain.length - (h + x.rounds * k)) = k := by omega
    refine ⟨hfull, ?_⟩
    rw [hfull]
    omega

end Round

/-! ## A responder whose chain grows -/

section Rounds

variable [Runtime] [Rsa]

/-- A responder whose chain grows between the rounds, and can be followed from
height `h` on; `k` is the batch size. -/
structure Responds (requester : Node) (responder : ℕ → Node) (g : Str) (h k : ℕ) (tip : PyVal) :
    Prop where
  batch_size : ∀ i, (k : ℤ) = max 1 (min requester.network.chain_sync_batch_size
    (responder i).network.chain_sync_batch_size)
  positive : 1 ≤ requester.network.chain_sync_batch_size
  grows : ∀ i, (responder i).blockchain.chain <+: (responder (i + 1)).blockchain.chain
  servable : ∀ i, Servable g h (responder i).blockchain.chain
  start : h ≤ (responder 0).blockchain.chain.length
  tip : HashAfter .none ((responder 0).blockchain.chain.take h) tip

variable {requester : Node} {responder : ℕ → Node} {g : Str} {h k : ℕ} {tip : PyVal} {x y : Exchange}

omit [Runtime] in
theorem Responds.le_batch_size (hr : Responds requester responder g h k tip) :
    1 ≤ k ∧ (k : ℤ) ≤ requester.network.chain_sync_batch_size := by
  have hk := hr.batch_size 0
  have hpos := hr.positive
  constructor
  · omega
  · omega

omit [Runtime] in
/-- The chain at the first request begins the chain at a later one. -/
theorem Responds.begins (hr : Responds requester responder g h k tip) (i : ℕ) :
    (responder 0).blockchain.chain <+: (responder i).blockchain.chain := by
  induction i with
  | zero => exact List.prefix_refl _
  | succ i ih => exact ih.trans (hr.grows i)

omit [Runtime] in
theorem Responds.tip_at (hr : Responds requester responder g h k tip) (i : ℕ) :
    HashAfter .none ((responder i).blockchain.chain.take h) tip := by
  have hpre := (hr.begins i).take h
  have hlen : ((responder 0).blockchain.chain.take h).length
      = ((responder i).blockchain.chain.take h).length := by
    have hle := (hr.begins i).length_le
    have hstart := hr.start
    rw [List.length_take_of_le hstart, List.length_take_of_le (hstart.trans hle)]
  rw [← hpre.eq_of_length hlen]
  exact hr.tip

/-- What one round does, by what the requester makes of the answer. -/
theorem Serving.round_eq (hr : Responds requester responder g h k tip)
    (hs : x.Serving requester.network (responder x.rounds).blockchain.chain h k tip) :
    x.round requester responder = (do
      match ← accept_chain_batch requester.network x.session
        ((responder x.rounds).chain_reply (h + 1 + (x.rounds * k : ℕ)) k) with
      | none => .ok ⟨{ x.session with blocks := [], done := true }, none, true, x.rounds + 1⟩
      | some session =>
        if h + (x.rounds + 1) * k < (responder x.rounds).blockchain.chain.length then
          .ok ⟨session, some session.expected_height, false, x.rounds + 1⟩
        else .ok ⟨{ session with done := true }, none, false, x.rounds + 1⟩) := by
  have hfrom : (1 : ℤ) ≤ h + 1 + (x.rounds * k : ℕ) := by omega
  have hmore := (@chain_reply_fields _ (responder x.rounds) _ hfrom k).2
  unfold Exchange.round chain_response
  simp only [hs.request, get_chain_request requester hfrom, ← hr.batch_size, ok_bind, hs.live,
    Bool.false_eq_true, if_false, hmore, hs.closed]
  rcases accept_chain_batch requester.network x.session
    ((responder x.rounds).chain_reply (h + 1 + (x.rounds * k : ℕ)) k) with e | _ | session
  · rfl
  · rfl
  · by_cases hlt : h + (x.rounds + 1) * k < (responder x.rounds).blockchain.chain.length
    · have htrue := hs.has_more.mpr hlt
      simp only [ok_bind, pure_eq, PyVal.truthy, htrue, hlt, if_true]
    · have hfalse : (responder x.rounds).has_more (h + 1 + (x.rounds * k : ℕ)) k = false := by
        rw [Bool.eq_false_iff]
        exact fun htrue => hlt (hs.has_more.mp htrue)
      simp only [ok_bind, pure_eq, PyVal.truthy, hfalse, hlt, Bool.false_eq_true, if_false]

/-- The exchange a round later, while answers are full. -/
theorem Serving.next (hr : Responds requester responder g h k tip)
    (hs : x.Serving requester.network (responder x.rounds).blockchain.chain h k tip)
    {previous_hash : PyVal} {total : ℕ}
    (haccept : accept_chain_batch requester.network x.session
      ((responder x.rounds).chain_reply (h + 1 + (x.rounds * k : ℕ)) k)
        = .ok (some ⟨((responder x.rounds).blockchain.chain.drop h).take ((x.rounds + 1) * k), false,
            h + 1 + (((responder x.rounds).blockchain.chain.drop h).take ((x.rounds + 1) * k)).length,
            previous_hash, total⟩))
    (htotal : batch_bytes (((responder x.rounds).blockchain.chain.drop h).take ((x.rounds + 1) * k))
      = .ok total)
    (hlt : h + (x.rounds + 1) * k < (responder x.rounds).blockchain.chain.length) :
    Serving ⟨⟨((responder x.rounds).blockchain.chain.drop h).take ((x.rounds + 1) * k), false,
        h + 1 + (((responder x.rounds).blockchain.chain.drop h).take ((x.rounds + 1) * k)).length,
        previous_hash, total⟩,
        some (h + 1 + (((responder x.rounds).blockchain.chain.drop h).take ((x.rounds + 1) * k)).length),
        false, x.rounds + 1⟩
      requester.network (responder (x.rounds + 1)).blockchain.chain h k tip := by
  have hgrows := hr.grows x.rounds
  have hlen : (((responder x.rounds).blockchain.chain.drop h).take ((x.rounds + 1) * k)).length
      = (x.rounds + 1) * k := by
    rw [List.length_take, List.length_drop]
    omega
  have hpos : 1 ≤ (x.rounds + 1) * k := Nat.mul_pos (Nat.succ_pos _) hr.le_batch_size.1
  have hnext := hgrows.length_le
  constructor
  · exact hs.collected.accept haccept
  · -- the chain of the next round begins like the one of this round
    obtain ⟨more, hmore⟩ := hgrows
    dsimp only
    rw [← hmore, List.drop_append_of_le_length (by omega), List.take_append_of_le_length]
    rw [List.length_drop]
    omega
  · exact (hlt.trans_le hnext).le
  · exact fun _ => hlt.trans_le hnext
  · intro hnil
    simp only at hnil
    rw [hnil, List.length_nil] at hlen
    omega
  · exact fun _ => htotal
  · rfl
  · rw [hlen]
  · rfl

/-- Where an exchange can be after `n` rounds: serving, or ended by the round
`i`. -/
inductive Reached (requester : Node) (responder : ℕ → Node) (h k : ℕ) (tip : PyVal) (n : ℕ) :
    Exchange → Prop
  /-- all answers were full and taken -/
  | serving {y : Exchange} (rounds : y.rounds = n)
      (serving : y.Serving requester.network (responder n).blockchain.chain h k tip)
      (within : ∀ i < n, Within requester.network
        (((responder i).blockchain.chain.drop h).take ((i + 1) * k))) :
      Reached requester responder h k tip n y
  /-- the last answer was not full: the session holds all the responder had -/
  | finished {y : Exchange} (i : ℕ) (before : i < n) (request : y.request = none)
      (closed : y.closed = false)
      (last : (responder i).blockchain.chain.length ≤ h + (i + 1) * k)
      (blocks : y.session.blocks = (responder i).blockchain.chain.drop h)
      (within : ∀ j ≤ i, Within requester.network
        (((responder j).blockchain.chain.drop h).take ((j + 1) * k))) :
      Reached requester responder h k tip n y
  /-- the limits did not allow an answer -/
  | refused {y : Exchange} (i : ℕ) (before : i < n) (request : y.request = none)
      (closed : y.closed = true) (blocks : y.session.blocks = [])
      (exceeded : ¬ Within requester.network
        (((responder i).blockchain.chain.drop h).take ((i + 1) * k))) :
      Reached requester responder h k tip n y

/-- One more round. -/
theorem Serving.reached (hr : Responds requester responder g h k tip) {n : ℕ} (hn : x.rounds = n)
    (hs : x.Serving requester.network (responder n).blockchain.chain h k tip)
    (hwithin : ∀ i < n, Within requester.network
      (((responder i).blockchain.chain.drop h).take ((i + 1) * k)))
    (hy : x.round requester responder = .ok y) : Reached requester responder h k tip (n + 1) y := by
  subst hn
  obtain ⟨hk, hle⟩ := hr.le_batch_size
  rw [hs.round_eq hr] at hy
  obtain ⟨accepted, haccept, hy⟩ := bind_eq_ok.mp hy
  have hiff := hs.accept (hr.servable x.rounds) (hr.tip_at x.rounds) hk hle
  dsimp only at hiff
  rcases accepted with _ | session
  · obtain rfl := Except.ok.inj hy
    refine .refused x.rounds (Nat.lt_succ_self _) rfl rfl rfl ?_
    rintro ⟨hcount, total, htotal, hbytes⟩
    obtain ⟨previous_hash, hafter⟩ := exists_hashAfter (((hr.servable x.rounds).follows
      (by have := hs.length; omega) (hr.tip_at x.rounds)).prefix_closed
        (List.take_prefix ((x.rounds + 1) * k) _))
    rw [(hiff _).mpr ⟨previous_hash, total, hafter, hcount, htotal, hbytes, rfl⟩] at haccept
    cases haccept
  · obtain ⟨previous_hash, total, -, hcount, htotal, hbytes, rfl⟩ := (hiff session).mp haccept
    have hwithin' : ∀ i < x.rounds + 1, Within requester.network
        (((responder i).blockchain.chain.drop h).take ((i + 1) * k)) := by
      intro i hi
      rcases Nat.lt_succ_iff_lt_or_eq.mp hi with hlt | rfl
      · exact hwithin i hlt
      · exact ⟨hcount, total, htotal, hbytes⟩
    by_cases hlt : h + (x.rounds + 1) * k < (responder x.rounds).blockchain.chain.length
    · simp only [hlt, if_true] at hy
      obtain rfl := Except.ok.inj hy
      exact .serving rfl (hs.next hr haccept htotal hlt) hwithin'
    · simp only [hlt, if_false] at hy
      obtain rfl := Except.ok.inj hy
      refine .finished x.rounds (Nat.lt_succ_self _) rfl rfl (not_lt.mp hlt) ?_ fun j hj =>
        hwithin' j (Nat.lt_succ_of_le hj)
      apply List.take_of_length_le
      rw [List.length_drop]
      omega

/-- The exchange a session begins with, at height `h + 1`. -/
def at_height (h : ℕ) (tip : PyVal) : Exchange :=
  ⟨⟨[], false, h + 1, tip, 0⟩, some (h + 1), false, 0⟩

theorem serving_at_height (hr : Responds requester responder g h k tip) :
    (at_height h tip).Serving requester.network (responder 0).blockchain.chain h k tip where
  collected := collected_new requester.network false (h + 1) tip
  blocks := by simp [at_height]
  length := by
    have := hr.start
    simp only [at_height, Nat.zero_mul]
    omega
  unfinished hne := absurd rfl hne
  no_bytes _ := rfl
  bytes hne := absurd rfl hne
  live := rfl
  request := by simp [at_height]
  closed := rfl

/-- Any number of rounds. -/
theorem after_cases (hr : Responds requester responder g h k tip) {n : ℕ}
    (hy : after requester responder (at_height h tip) n = .ok y) :
    Reached requester responder h k tip n y := by
  induction n generalizing y with
  | zero =>
      obtain rfl := Except.ok.inj hy
      exact .serving rfl (serving_at_height hr) fun i hi => absurd hi (Nat.not_lt_zero i)
  | succ n ih =>
      obtain ⟨x, hx, hround⟩ := bind_eq_ok.mp hy
      cases ih hx with
      | serving rounds serving within => exact serving.reached hr rounds within hround
      | finished i before request closed last blocks within =>
          rw [round, request] at hround
          obtain rfl := Except.ok.inj hround
          exact .finished i (Nat.lt_succ_of_lt before) request closed last blocks within
      | refused i before request closed blocks exceeded =>
          rw [round, request] at hround
          obtain rfl := Except.ok.inj hround
          exact .refused i (Nat.lt_succ_of_lt before) request closed blocks exceeded

/-- As long as the limits allow, no round raises or closes the responder. -/
theorem after_ok (hr : Responds requester responder g h k tip) {n : ℕ}
    (hwithin : ∀ i < n, Within requester.network
      (((responder i).blockchain.chain.drop h).take ((i + 1) * k))) :
    ∃ y, after requester responder (at_height h tip) n = .ok y ∧ y.closed = false := by
  induction n with
  | zero => exact ⟨_, rfl, rfl⟩
  | succ n ih =>
      obtain ⟨x, hx, hopen⟩ := ih fun i hi => hwithin i (Nat.lt_succ_of_lt hi)
      rw [after, hx, ok_bind]
      cases after_cases hr hx with
      | serving rounds serving within =>
          subst rounds
          obtain ⟨hk, hle⟩ := hr.le_batch_size
          obtain ⟨hcount, total, htotal, hbytes⟩ := hwithin x.rounds (Nat.lt_succ_self _)
          obtain ⟨previous_hash, hafter⟩ := exists_hashAfter (((hr.servable x.rounds).follows
            (by have := serving.length; omega) (hr.tip_at x.rounds)).prefix_closed
              (List.take_prefix ((x.rounds + 1) * k) _))
          have haccept := (serving.accept (hr.servable x.rounds) (hr.tip_at x.rounds) hk hle _).mpr
            ⟨previous_hash, total, hafter, hcount, htotal, hbytes, rfl⟩
          rw [serving.round_eq hr, haccept, ok_bind]
          by_cases hlt : h + (x.rounds + 1) * k < (responder x.rounds).blockchain.chain.length
          · simp only [hlt, if_true]
            exact ⟨_, rfl, rfl⟩
          · simp only [hlt, if_false]
            exact ⟨_, rfl, rfl⟩
      | finished i before request closed last blocks within =>
          rw [round, request]
          exact ⟨x, rfl, closed⟩
      | refused i before request closed blocks exceeded =>
          rw [closed] at hopen
          cases hopen

/-- The count limit ends every exchange. -/
theorem after_ends (hr : Responds requester responder g h k tip)
    (hy : after requester responder (at_height h tip)
      (requester.network.chain_sync_max_blocks.toNat + 1) = .ok y) : y.request = none := by
  cases after_cases hr hy with
  | serving rounds serving within =>
      exfalso
      have hlen : y.session.blocks.length = y.rounds * k := by
        have := serving.length
        rw [serving.blocks, List.length_take, List.length_drop]
        omega
      have hcount := serving.collected.count
      have hle : y.rounds ≤ y.rounds * k := Nat.le_mul_of_pos_right _ hr.le_batch_size.1
      omega
  | finished i before request closed last blocks within => exact request
  | refused i before request closed blocks exceeded => exact request

end Rounds

end Exchange

end EasyBlockchain
