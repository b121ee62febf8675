/-
Whose data can end whose listen task.

What a peer answers is collected in its session and judged by whoever waits for
the session. `_request_chain` catches the timeout only, so an exception of the
validators leaves the loop of `sync_chain`, and with it the handler of another
peer. `returns_resolve_fork` says when there is none; along a run the rest of a
node, its chain above all, never raises under a handler.
-/
import EasyBlockchain.ListenTasks
import EasyBlockchain.NodeChanges
import EasyBlockchain.Rejections

set_option autoImplicit false

namespace EasyBlockchain

open Py Lib

/-! ## The chain of a running node -/

section Hashed

variable [Runtime] [Rsa]

/-- A node that runs a protocol, on a chain whose blocks have hashes. -/
structure Node.Hashed (node : Node) : Prop where
  runs : ∃ c, node.Runs c
  hashed : ∀ block ∈ node.blockchain.chain, ∃ t, TranHashIs block t

variable {self : BlockChain} {block : Block} {c : Consensus}

/-- A received block that passes its checks has a hash. -/
theorem tran_hash_of_received (hconsensus : self.consensus = some c)
    {genesis_stakes : Option StakeMap} (h : self.received_checks block genesis_stakes = .ok true) :
    ∃ t, TranHashIs block t := by
  obtain ⟨-, hcheck⟩ := (BlockChain.received_checks_iff hconsensus).mp h
  have hpos : ∀ (pos : ProofOfStake) (seen : List Block) (validators : Option StakeMap)
      (height : Option ℕ), Accepts (pos.validate_block block seen validators height) →
      ∃ t, TranHashIs block t := by
    intro pos seen validators height hvalid
    obtain ⟨f, hof, -⟩ := (ProofOfStake.accepts_validate_block pos block seen validators height).mp
      hvalid
    exact ⟨_, hof.tran_hash⟩
  cases c with
  | pow pow =>
      obtain ⟨t, ht, -⟩ := tran_hash_of_pow hcheck
      exact ⟨t, ht⟩
  | pos pos =>
      unfold BlockChain.consensus_check at hcheck
      cases genesis_stakes with
      | none => exact hpos pos _ _ _ hcheck
      | some stakes =>
          obtain ⟨validators, -, hvalid⟩ := accepts_bind.mp hcheck
          exact hpos pos _ _ _ hvalid

/-- So does a block that is built here. -/
theorem tran_hash_of_built (hconsensus : self.consensus = some c) {input : BlockChain.LocalInput}
    (h : (self.draft_block input >>= self.complete_block input) = .ok block) :
    ∃ t, TranHashIs block t := by
  cases c with
  | pow pow =>
      obtain ⟨f, hof, -⟩ := local_block_fields hconsensus h
      exact ⟨_, hof.tran_hash⟩
  | pos pos =>
      obtain ⟨_, _, f, hof, -⟩ := proposed_block_fields hconsensus h
      exact ⟨_, hof.tran_hash⟩

theorem tran_hash_of_grows {genesis_stakes : StakeMap} {chain : List Block}
    (h : Grows (c.ChainStep genesis_stakes) chain) (hblock : block ∈ chain) :
    ∃ t, TranHashIs block t := by
  obtain ⟨i, hi, rfl⟩ := List.mem_iff_getElem.mp hblock
  exact (Consensus.linked_of_chainStep (h.getElem hi)).2.2

omit [Runtime] in
/-- A protocol and its genesis hash stay with the node. -/
theorem runs_of_core {node node' : Node} (h : node.Runs c)
    (hcore : node'.blockchain.core = node.blockchain.core) : ∃ c', node'.Runs c' := by
  obtain ⟨hconsensus, hgenesis⟩ := Prod.mk.inj hcore
  rw [h.consensus, Option.map_some, Option.map_eq_some_iff] at hconsensus
  obtain ⟨c', hc', hsame⟩ := hconsensus
  refine ⟨c', hc', ?_⟩
  rw [hgenesis, h.genesis]
  cases c with
  | pow pow =>
      cases c' with
      | pow pow' => rw [Consensus.pow.inj hsame]
      | pos pos' => cases hsame
  | pos pos =>
      cases c' with
      | pow pow' => cases hsame
      | pos pos' => exact (congrArg ProofOfStake.genesis_prev_hash (Consensus.pos.inj hsame)).symm

omit [Runtime] in
theorem Node.Hashed.congr {node node' : Node} (h : node.Hashed)
    (hblockchain : node'.blockchain = node.blockchain) : node'.Hashed := by
  obtain ⟨c, hconsensus, hgenesis⟩ := h.runs
  refine ⟨⟨c, ?_, ?_⟩, ?_⟩
  · rw [hblockchain, hconsensus]
  · rw [hblockchain, hgenesis]
  · rw [hblockchain]
    exact h.hashed

/-- Every change of its blockchain keeps a node what it is. -/
theorem Node.Hashed.stake_step {node : Node} (h : node.Hashed) (op : StakeOp) :
    (node.stake_step op).Hashed := by
  obtain ⟨c, hruns⟩ := h.runs
  obtain ⟨hstep, -, -⟩ := stake_step_cases node op
  refine ⟨runs_of_core hruns hstep.core_eq, ?_⟩
  have happended : ∀ block, (node.stake_step op).blockchain.chain = node.blockchain.chain ++ [block] →
      (∃ t, TranHashIs block t) →
      ∀ b ∈ (node.stake_step op).blockchain.chain, ∃ t, TranHashIs b t := by
    intro block heq hblock b hb
    rw [heq] at hb
    rcases List.mem_append.mp hb with hb | hb
    · exact h.hashed b hb
    · rw [List.mem_singleton.mp hb]
      exact hblock
  cases hstep with
  | stay same =>
      rw [same]
      exact h.hashed
  | mined input block complete core chain =>
      exact happended block chain (tran_hash_of_built hruns.consensus complete)
  | received block checks core chain =>
      exact happended block chain (tran_hash_of_received hruns.consensus checks)
  | replaced verifies core =>
      rw [hruns.consensus, hruns.genesis] at verifies
      intro block hblock
      exact tran_hash_of_grows (Consensus.verifies_iff.mp verifies) hblock

theorem Node.Hashed.new_block {node : Node} (h : node.Hashed) (payload : Dict) :
    (node.new_block payload).2.Hashed := by
  unfold Node.new_block
  split
  · rename_i entry entries hblock
    exact h.stake_step (.add_block (.dict (entry :: entries)))
  · exact h

theorem Node.Hashed.finish_session {node : Node} (h : node.Hashed) (session : ChainSyncSession) :
    (node.finish_session session).2.Hashed := by
  unfold Node.finish_session
  split
  · exact h
  · exact h.stake_step (.resolve_fork session.blocks)

theorem Node.Hashed.unsolicited {node : Node} (h : node.Hashed) (payload : Dict) :
    (SyncState.unsolicited node payload).Hashed := by
  unfold SyncState.unsolicited
  split
  · rename_i blocks hblocks
    split
    · exact h.stake_step (.resolve_fork blocks)
    · exact h
  · exact h

/-- A chain that verifies is one. -/
theorem Node.Hashed.of_verifies {node : Node} (hruns : node.Runs c)
    (hvalid : Verifies (node.blockchain.verify_chain (some node.genesis_stakes))) : node.Hashed :=
  ⟨⟨c, hruns⟩, fun _ hblock => tran_hash_of_grows (hruns.verifies_iff.mp hvalid) hblock⟩

end Hashed

/-! ## Where fork resolution raises -/

section Resolution

variable [Runtime] [Rsa] {node : Node} {c : Consensus}

/-- The candidates of a fork resolution can be read through. -/
def Node.Reads (node : Node) (remote_chain : List Block) : Prop :=
  ∀ consensus candidates, node.blockchain.consensus = some consensus →
    node.fork_candidates remote_chain = .ok candidates → ∀ chain ∈ candidates,
      ReadThrough (consensus.ChainStep node.genesis_stakes)
        (SelectReadable consensus node.genesis_stakes) chain

theorem Node.reads_nil : node.Reads [] := by
  intro consensus candidates _ hcandidates
  unfold Node.fork_candidates at hcandidates
  split at hcandidates
  · obtain rfl := Except.ok.inj hcandidates
    intro chain hchain pre x post hsplit
    rw [List.mem_singleton.mp hchain] at hsplit
    simp at hsplit
  · cases hcandidates

/-- A chain that is selected is a candidate that is valid. -/
theorem grows_of_select {chains : List (List Block)} {genesis_stakes : StakeMap} {best : List Block}
    (h : c.select_canonical_chain chains (some genesis_stakes) = .ok best) :
    best = [] ∨ Grows (c.ChainStep genesis_stakes) best := by
  rw [Consensus.select_canonical_chain_eq] at h
  obtain ⟨valid_chains, hvalid, h⟩ := bind_eq_ok.mp h
  obtain ⟨-, rfl⟩ := filterPy_eq_ok.mp hvalid
  obtain ⟨selected, hselected, h⟩ := bind_eq_ok.mp h
  cases selected with
  | none => exact Or.inl (Except.ok.inj h).symm
  | some chain =>
      obtain rfl := Except.ok.inj h
      obtain ⟨hmem, -⟩ := maxBy_eq_some hselected
      obtain ⟨-, hkept⟩ := List.mem_filter.mp hmem
      exact Or.inr (Consensus.candidate_valid_iff.mp (of_decide_eq_true hkept))

omit [Runtime] in
/-- Blocks whose first one names a hash can be joined to the chain, or not. -/
theorem Node.Hashed.fork_candidates (h : node.Hashed) {first : Block} {rest : List Block}
    (hfirst : ∃ p, PrevHashIs first p) :
    ∃ candidates, node.fork_candidates (first :: rest) = .ok candidates := by
  unfold Node.fork_candidates
  split
  · exact ⟨_, rfl⟩
  · rename_i hne
    obtain ⟨last, hlast⟩ := List.getLast?_isSome.mpr (by simpa using hne) |> Option.isSome_iff_exists.mp
    obtain ⟨t, ht⟩ := h.hashed last (List.mem_of_getLast? hlast)
    obtain ⟨p, hp⟩ := hfirst
    rw [join_chain_suffix_eq hlast (List.head?_cons) ht hp, ok_bind]
    exact ⟨_, rfl⟩

/-- Fork resolution raises exactly where a candidate cannot be read. -/
theorem Node.Hashed.returns_resolve_fork (h : node.Hashed) {first : Block} {rest : List Block}
    (hfirst : ∃ p, PrevHashIs first p) :
    Returns (node.resolve_fork (first :: rest)).1 ↔ node.Reads (first :: rest) := by
  obtain ⟨c, hruns⟩ := h.runs
  obtain ⟨candidates, hcandidates⟩ := h.fork_candidates hfirst
  have hreads : node.Reads (first :: rest) ↔
      Returns (c.select_canonical_chain candidates (some node.genesis_stakes)) := by
    rw [returns_select_canonical_chain]
    constructor
    · intro hall
      exact hall c candidates hruns.consensus hcandidates
    · intro hall c' candidates' hc' hcandidates'
      rw [hruns.consensus, Option.some.injEq] at hc'
      rw [hcandidates, Except.ok.injEq] at hcandidates'
      subst hc' hcandidates'
      exact hall
  have hcanonical : node.canonical_chain (first :: rest)
      = c.select_canonical_chain candidates (some node.genesis_stakes) := by
    rw [Node.canonical_chain, hcandidates, ok_bind, hruns.consensus, orRaise_some, ok_bind]
  rw [hreads, ← hcanonical]
  unfold Node.resolve_fork
  rw [if_neg (by simp)]
  rcases hselect : node.canonical_chain (first :: rest) with e | canonical
  · constructor
    · rintro ⟨_, hreturns⟩
      cases hreturns
    · rintro ⟨_, hreturns⟩
      cases hreturns
  · simp only
    refine iff_of_true ?_ ⟨canonical, rfl⟩
    split
    · rename_i hchange
      -- what is stored was selected, so it verifies
      have hne : canonical ≠ [] := by
        rintro rfl
        simp at hchange
      rw [hcanonical] at hselect
      have hgrows := (grows_of_select hselect).resolve_left hne
      rw [hruns.replace_chain hgrows]
      exact ⟨_, rfl⟩
    · exact ⟨_, rfl⟩

omit [Runtime] in
theorem Node.Hashed.start_session (h : node.Hashed) : ∃ session, node.start_session = .ok session := by
  unfold Node.start_session
  rcases hlast : node.blockchain.chain.getLast? with _ | last
  · exact ⟨_, rfl⟩
  · obtain ⟨t, header, hheader, ht⟩ := h.hashed last (List.mem_of_getLast? hlast)
    simp only [hheader, ht, ok_bind]
    exact ⟨_, rfl⟩

omit [Runtime] in
theorem Node.Hashed.genesis_hash [Stringify] (h : node.Hashed) (genesis_prev_hash : Str) :
    ∃ g, genesis_hash node.blockchain.chain genesis_prev_hash = .ok g := by
  unfold EasyBlockchain.genesis_hash
  split
  · exact ⟨_, rfl⟩
  · rename_i first rest hchain
    obtain ⟨t, header, hheader, ht⟩ := h.hashed first (by rw [hchain]; exact List.mem_cons_self)
    obtain ⟨fields, rfl, -⟩ := PyVal.item_eq_ok.mp ht
    simp only [PyVal.get_of_item hheader, ok_bind, PyVal.get_dict, pure_eq]
    exact ⟨_, rfl⟩

end Resolution

/-! ## Runs -/

section Isolation

variable [Runtime] [Rsa] [Stringify]

namespace EventLoop

/-- The blocks of every session that a waiting call finds ended can be read
through. -/
def SessionsRead (s : EventLoop) : LoopEvent → Prop
  | .wakes i => ∀ call id task, s.wait_of i = some (call, id, task) → task.session.done = true →
      s.sync.node.Reads task.session.blocks
  | _ => True

omit [Stringify] in
/-- What a peer sends hurts no other peer: where a handler raised, it was on
content of its own peer, and every call that is over has requested all its peers. -/
structure Isolated (s : EventLoop) : Prop where
  own : ∀ peer author e, s.listen peer = some (.ended (.raised author e)) → author = some peer
  complete : ∀ call ∈ s.calls, (∀ id, call.progress ≠ .waiting id) →
    call.asked = call.peers.length

omit [Stringify] in
/-- What holds in a run whose sessions are read. -/
structure Unharmed (s : EventLoop) : Prop where
  node : s.sync.node.Hashed
  sessions : s.sync.Invariant s.sync.node.network
  consistent : s.Consistent
  own : ∀ peer author e, s.listen peer = some (.ended (.raised author e)) → author = some peer
  unraised : ∀ call ∈ s.calls, ∀ author e, call.progress ≠ .raised author e

variable {s : EventLoop}

omit [Stringify] in
theorem Unharmed.isolated (h : s.Unharmed) : s.Isolated where
  own := h.own
  complete call hcall hover := by
    have hstands := h.consistent.calls call hcall
    rcases hprogress : call.progress with id | _ | ⟨author, e⟩
    · exact absurd hprogress (hover id)
    · exact hstands.returned hprogress
    · exact absurd hprogress (h.unraised call hcall author e)

omit [Stringify] in
/-- A task comes to stand where no handler of another's content raised. -/
theorem own_stand (h : ∀ peer author e, s.listen peer = some (.ended (.raised author e)) →
      author = some peer) {peer : Str} {l : Listening}
    (hl : ∀ author e, l = .ended (.raised author e) → author = some peer) :
    ∀ other author e, (s.stand peer l).listen other = some (.ended (.raised author e)) →
      author = some other := by
  intro other author e hother
  by_cases hpeer : other = peer
  · subst hpeer
    rw [stand_listen_self, Option.some.injEq] at hother
    exact hl author e hother
  · rw [stand_listen_of_ne hpeer] at hother
    exact h other author e hother

omit [Stringify] in
theorem own_settle (h : ∀ peer author e, s.listen peer = some (.ended (.raised author e)) →
      author = some peer) {i : ℕ} {call : SyncCall}
    (hcall : ∀ author e, call.progress ≠ .raised author e) :
    ∀ peer author e, (s.settle i call).listen peer = some (.ended (.raised author e)) →
      author = some peer := by
  unfold settle
  split
  · refine own_stand h ?_
    intro author e hl
    rcases hprogress : call.progress with id | _ | ⟨author', e'⟩
    · rw [hprogress] at hl
      cases hl
    · rw [hprogress] at hl
      cases hl
    · exact absurd hprogress (hcall author' e')
  · exact h

omit [Stringify] in
/-- The requests of a call do not raise, and leave the node alone. -/
theorem ask_unharmed {sync : SyncState} (hnode : sync.node.Hashed) (call : SyncCall) :
    (∀ author e, (call.ask sync).2.progress ≠ .raised author e) ∧
      (call.ask sync).1.node = sync.node ∧
      ∃ events, (call.ask sync).1 = run SyncState.step sync events := by
  obtain ⟨session, hsession⟩ := hnode.start_session
  unfold SyncCall.ask
  rcases request_next_cases sync (call.peers.drop call.asked) with hall | ⟨k, peer, -, hpending, -, hnext⟩
  · rw [hall]
    refine ⟨?_, rfl, [], rfl⟩
    intro author e hprogress
    cases hprogress
  · rw [hnext, hsession]
    refine ⟨?_, ?_, [.request peer], rfl⟩
    · intro author e hprogress
      cases hprogress
    · simp [SyncState.step, hpending]

omit [Stringify] in
/-- The settings of a node stay, and with them what holds of its sessions. -/
theorem invariant_step {sync : SyncState} (h : sync.Invariant sync.node.network) (event : SyncEvent) :
    (sync.step event).Invariant (sync.step event).node.network := by
  have hstep := h.step event
  rw [hstep.settings]
  exact hstep

omit [Stringify] in
theorem invariant_run {sync : SyncState} (h : sync.Invariant sync.node.network)
    (events : List SyncEvent) : (run SyncState.step sync events).Invariant
      (run SyncState.step sync events).node.network := by
  have hrun := h.run events
  rw [hrun.settings]
  exact hrun

omit [Stringify] in
/-- A step of the sessions under a state. -/
theorem Unharmed.sync_step (h : s.Unharmed) {event : SyncEvent}
    (hnode : (s.sync.step event).node.Hashed)
    (hconsistent : ({ s with sync := s.sync.step event } : EventLoop).Consistent) :
    ({ s with sync := s.sync.step event } : EventLoop).Unharmed where
  node := hnode
  sessions := invariant_step h.sessions event
  consistent := hconsistent
  own := h.own
  unraised := h.unraised

omit [Stringify] in
/-- A task that waits in no call comes to stand elsewhere. -/
theorem Unharmed.stand (h : s.Unharmed) {peer : Str} {l : Listening}
    (hbefore : ∀ i, s.listen peer ≠ some (.syncing i)) (hafter : ∀ i, l ≠ .syncing i)
    (hl : ∀ author e, l = .ended (.raised author e) → author = some peer) :
    (s.stand peer l).Unharmed where
  node := h.node
  sessions := h.sessions
  consistent := h.consistent.stand hbefore hafter
  own := own_stand h.own hl
  unraised := h.unraised

omit [Stringify] in
/-- The handler of a frame raises on what its own peer sent. -/
theorem Unharmed.fail (h : s.Unharmed) {peer : Str}
    (hbefore : ∀ i, s.listen peer ≠ some (.syncing i)) (e : PyErr) :
    (s.fail peer (some peer) e).Unharmed := by
  refine h.stand hbefore (by simp) ?_
  intro author e' heq
  cases heq
  rfl

omit [Stringify] in
theorem Unharmed.put (h : s.Unharmed) {sync : SyncState} {calls : List SyncCall} {i : ℕ}
    {call : SyncCall}
    (hconsistent : (({ s with sync := sync, calls := calls } : EventLoop).settle i call).Consistent)
    (hnode : sync.node.Hashed) (hsessions : sync.Invariant sync.node.network)
    (hcall : ∀ author e, call.progress ≠ .raised author e)
    (hcalls : ∀ other ∈ calls, other = call ∨ other ∈ s.calls) :
    (({ s with sync := sync, calls := calls } : EventLoop).settle i call).Unharmed where
  node := by
    rw [settle_sync]
    exact hnode
  sessions := by
    rw [settle_sync]
    exact hsessions
  consistent := hconsistent
  own := own_settle (s := { s with sync := sync, calls := calls }) h.own hcall
  unraised := by
    rw [settle_calls]
    intro other hother
    rcases hcalls other hother with rfl | hold
    · exact hcall
    · exact h.unraised other hold

omit [Stringify] in
theorem Unharmed.begin_call (h : s.Unharmed) {owner : Option Str} (peers : List Str)
    (hfree : ∀ peer, owner = some peer → ∀ i, s.listen peer ≠ some (.syncing i)) :
    (s.begin_call owner peers).Unharmed := by
  have hconsistent := h.consistent.begin_call peers hfree
  obtain ⟨hcall, hnode, events, hrun⟩ := ask_unharmed h.node ⟨owner, peers, 0, .returned⟩
  unfold EventLoop.begin_call at hconsistent ⊢
  refine h.put hconsistent ?_ ?_ hcall ?_
  · exact h.node.congr (congrArg Node.blockchain hnode)
  · have hsessions := invariant_run h.sessions events
    rw [← hrun] at hsessions
    exact hsessions
  · intro other hother
    rcases List.mem_append.mp hother with hold | hnew
    · exact Or.inr hold
    · exact Or.inl (List.mem_singleton.mp hnew)

omit [Stringify] in
/-- A call goes on after its session, in a state whose node is still sound. -/
theorem Unharmed.continue_call (h : s.Unharmed) {i : ℕ} {call : SyncCall} {sync : SyncState}
    (hconsistent : (s.continue_call i (call.ask sync)).Consistent) (hnode : sync.node.Hashed)
    (hsessions : sync.Invariant sync.node.network) :
    (s.continue_call i (call.ask sync)).Unharmed := by
  obtain ⟨hcall, hsame, events, hrun⟩ := ask_unharmed hnode call
  unfold EventLoop.continue_call at hconsistent ⊢
  refine h.put hconsistent ?_ ?_ hcall ?_
  · exact hnode.congr (congrArg Node.blockchain hsame)
  · have hrun_sessions := invariant_run hsessions events
    rw [← hrun] at hrun_sessions
    exact hrun_sessions
  · intro other hother
    rcases List.mem_or_eq_of_mem_set hother with hold | hnew
    · exact Or.inr hold
    · exact Or.inl hnew

/-! ## One step -/

omit [Stringify] in
/-- The call of a session that has ended does not raise where it is read. -/
theorem finish_session_ok (h : s.Unharmed) {id : ℕ} {task : SyncTask}
    (htask : s.sync.tasks[id]? = some task) (hreads : s.sync.node.Reads task.session.blocks) :
    ∃ u, (s.sync.node.finish_session task.session).1 = .ok u := by
  have hgood := h.sessions.good task (List.mem_of_getElem? htask)
  unfold Node.finish_session
  rcases hblocks : task.session.blocks with _ | ⟨first, rest⟩
  · exact ⟨(), rfl⟩
  · rw [if_neg (by simp)]
    rw [hblocks] at hreads
    refine (h.node.returns_resolve_fork ?_).mpr hreads
    rcases hgood.kept with hcollected | ⟨hnil, -⟩
    · -- the session looked at the header of its first block
      have hlinked := hcollected.linked
      rw [hblocks] at hlinked
      obtain ⟨p, -, hcarries⟩ := carriesOn_getElem hlinked (i := 0) (by simp)
      obtain ⟨prev, hprev, -⟩ := hcarries.prev_hash
      exact ⟨prev, hprev⟩
    · rw [hblocks] at hnil
      cases hnil

omit [Stringify] in
theorem Unharmed.on_new_block (h : s.Unharmed) {peer : Str} {payload : Dict}
    (hreading : s.listen peer = some .reading) : (s.on_new_block peer payload).Unharmed := by
  have hbefore := not_syncing_of_reading hreading
  have hnode := h.node.new_block payload
  unfold EventLoop.on_new_block
  rcases hnew : s.sync.node.new_block payload with ⟨added, node⟩
  rw [hnew] at hnode
  have hafter : ({ s with sync := s.sync.step (.other node.blockchain) } : EventLoop).Unharmed := by
    refine h.sync_step (hnode.congr rfl) ?_
    exact h.consistent.congr rfl (keeps_other _ _) fun _ _ => Iff.rfl
  rcases added with e | _ | _
  · exact hafter.fail hbefore e
  · refine hafter.begin_call _ ?_
    intro peer' hpeer
    obtain rfl := Option.some.inj hpeer
    exact hbefore
  · exact hafter

omit [Stringify] in
theorem Unharmed.on_chain_response (h : s.Unharmed) {peer : Str} {payload : JsonPayload}
    (hreading : s.listen peer = some .reading) :
    (s.on_chain_response peer payload).Unharmed := by
  have hbefore := not_syncing_of_reading hreading
  have hafter : ({ s with sync := s.sync.step (.response peer payload) } : EventLoop).Unharmed := by
    refine h.sync_step ?_ (h.consistent.congr rfl (keeps_response _ _ _) fun _ _ => Iff.rfl)
    simp only [SyncState.step]
    split
    · exact h.node
    · exact h.node.unsolicited payload.val
  unfold EventLoop.on_chain_response
  rcases s.sync.response_result peer payload.val with e | _
  · exact hafter.fail hbefore e
  · exact hafter.stand hbefore (by simp) (by simp)

theorem Unharmed.on_hello (h : s.Unharmed) {peer : Str} {now : ℚ} {payload : Dict}
    (hreading : s.listen peer = some .reading) : (s.on_hello peer now payload).Unharmed := by
  have hbefore := not_syncing_of_reading hreading
  obtain ⟨g, hgenesis⟩ := h.node.genesis_hash s.settings.genesis_prev_hash
  have hchain : genesis_hash s.chain s.settings.genesis_prev_hash = .ok g := hgenesis
  unfold EventLoop.on_hello
  split
  · rw [hchain]
    rcases hello_checks s.settings s.chain now payload with e | _ | _
    · exact h.fail hbefore e
    · exact h
    · exact h.stand hbefore (by simp) (by simp)
  · exact h

omit [Stringify] in
theorem Unharmed.compare_heights (h : s.Unharmed) {peer : Str} {payload : Dict}
    (hgreeting : s.listen peer = some (.greeting payload)) :
    (s.compare_heights peer payload).Unharmed := by
  have hbefore : ∀ i, s.listen peer ≠ some (.syncing i) := by
    rw [hgreeting]
    simp
  unfold EventLoop.compare_heights
  split
  · rename_i e hheight
    exact h.fail hbefore e
  · split
    · refine h.begin_call _ ?_
      intro peer' hpeer
      obtain rfl := Option.some.inj hpeer
      exact hbefore
    · exact h.stand hbefore (by simp) (by simp)

theorem Unharmed.handle (h : s.Unharmed) {peer : Str} {now : ℚ} {frame : Message}
    (hreading : s.listen peer = some .reading) : (s.handle peer now frame).Unharmed := by
  have hsending : (s.stand peer .sending).Unharmed :=
    h.stand (not_syncing_of_reading hreading) (by simp) (by simp)
  unfold EventLoop.handle
  cases frame.msg_type with
  | hello => exact h.on_hello hreading
  | new_block => exact h.on_new_block hreading
  | chain_response => exact h.on_chain_response hreading
  | peers => exact hsending
  | get_chain => exact hsending
  | ping => exact hsending
  | pong => exact h

theorem Unharmed.step (h : s.Unharmed) (event : LoopEvent) (hread : s.SessionsRead event) :
    (s.step event).Unharmed := by
  have hconsistent := h.consistent.step event
  cases event with
  | listens peer =>
      simp only [EventLoop.step]
      split
      · rename_i hnone
        refine h.stand ?_ (by simp) (by simp)
        rw [hnone]
        simp
      · exact h
  | registers peer =>
      simp only [EventLoop.step] at hconsistent ⊢
      split
      · exact h
      · rename_i hnew
        rw [if_neg hnew] at hconsistent
        exact ⟨h.node, h.sessions, hconsistent, h.own, h.unraised⟩
  | unregisters peer => exact ⟨h.node, h.sessions, hconsistent, h.own, h.unraised⟩
  | arrives peer frame => exact ⟨h.node, h.sessions, hconsistent, h.own, h.unraised⟩
  | reads peer now =>
      simp only [EventLoop.step]
      split
      · rename_i frame rest hreading hinbox
        have hread : ({ s with inbox := Function.update s.inbox peer rest } : EventLoop).Unharmed :=
          ⟨h.node, h.sessions, h.consistent.congr rfl (.refl _ _) fun _ _ => Iff.rfl, h.own,
            h.unraised⟩
        exact hread.handle hreading
      · exact h
  | resumes peer =>
      simp only [EventLoop.step]
      split
      · rename_i hsending
        refine h.stand ?_ (by simp) (by simp)
        rw [hsending]
        simp
      · rename_i payload hgreeting
        exact h.compare_heights hgreeting
      · exact h
  | wakes i =>
      simp only [EventLoop.step] at hconsistent ⊢
      split
      · rename_i call id task hwait
        rw [hwait] at hconsistent
        simp only at hconsistent
        split
        · rename_i hdone
          rw [if_pos hdone] at hconsistent
          obtain ⟨hcall, -, htask⟩ := wait_of_eq_some.mp hwait
          obtain ⟨u, hok⟩ := finish_session_ok h htask (hread call id task hwait hdone)
          rw [hok] at hconsistent ⊢
          refine h.continue_call hconsistent ?_ (invariant_step h.sessions _)
          simp only [SyncState.step, htask]
          split
          · exact h.node.finish_session task.session
          · exact h.node
        · exact h
      · exact h
  | times_out i =>
      simp only [EventLoop.step] at hconsistent ⊢
      split
      · rename_i call id task hwait
        rw [hwait] at hconsistent
        obtain ⟨-, -, htask⟩ := wait_of_eq_some.mp hwait
        refine h.continue_call hconsistent ?_ (invariant_step h.sessions _)
        simp only [SyncState.step, htask]
        split
        · exact h.node
        · exact h.node
      · exact h
  | leaves peer =>
      simp only [EventLoop.step]
      split
      · rename_i hreading
        exact h.stand (not_syncing_of_reading hreading) (by simp) (by simp)
      · exact h
  | syncs =>
      simp only [EventLoop.step]
      refine h.begin_call _ ?_
      intro peer hpeer
      cases hpeer
  | produces input =>
      refine h.sync_step ?_ hconsistent
      exact (h.node.stake_step (.add_new_block input)).congr rfl

omit [Stringify] in
theorem Unharmed.initial {settings : GateSettings} {node : Node} (h : node.Hashed) :
    (initial settings node).Unharmed where
  node := h
  sessions := invariant_initial node
  consistent := .initial settings node
  own peer author e hended := by
    simp [EventLoop.initial] at hended
  unraised call hcall := by
    simp [EventLoop.initial] at hcall

end EventLoop

end Isolation

/-! ## Two answers to a node that synchronises -/

namespace BadAnswer

attribute [local instance] cpython letterRsa

local instance : Stringify := ⟨fun _ => []⟩

def node : Node :=
  ⟨lit "local", Rewritten.kilobyte, TwoBlocks.stakes,
    BlockChain.new (some (.pos TwoBlocks.pos)) DEFAULT_GENESIS_PREV_HASH⟩

def settings : GateSettings := ⟨lit "pos", DEFAULT_GENESIS_PREV_HASH, ⟨true, 300⟩, 3⟩

/-- A first block that comes too late for the empty chain. -/
def refused : Dict := [(.str (lit "block"), .dict [(.str (lit "block_index"), .int 2)])]

/-- A first block of the validator `["v"]`. -/
def unhashable : Block := .dict
  [(.str (lit "block_index"), .int 1),
    (.str (lit "block_header"), .dict
      [(.str (lit "prev_hash"), .str DEFAULT_GENESIS_PREV_HASH),
        (.str (lit "consensus_type"), .str (lit "pos")),
        (.str (lit "validator_id"), .list [.str (lit "v")]),
        (.str (lit "slot"), .int 1),
        (.str (lit "tran_hash"), .str (lit "0"))]),
    (.str (lit "tran_body"), .dict []),
    (.str (lit "signature"), .str (lit "0")),
    (.str (lit "public_key"), .str (lit "0"))]

def answer (blocks : List Block) : Dict :=
  [(.str (lit "blocks"), .list blocks), (.str (lit "from_height"), .int 1),
    (.str (lit "next_height"), .int 2), (.str (lit "has_more"), .bool false)]

def announcement : Message := ⟨.new_block, refused, 29, by decide +kernel⟩

def bad : Message := ⟨.chain_response, answer [unhashable], 317, by decide +kernel⟩

/-- An answer without the block it counts. -/
def empty : Message := ⟨.chain_response, answer [], 69, by decide +kernel⟩

/-- The peers `q`, `p` and `r` are connected, `p` announces a block that is
refused, and `q` answers the request that follows. -/
def answered (by_q : Message) : List LoopEvent :=
  [.registers (lit "q"), .listens (lit "q"), .registers (lit "p"), .listens (lit "p"),
    .registers (lit "r"), .listens (lit "r"), .arrives (lit "p") announcement, .reads (lit "p") 0,
    .arrives (lit "q") by_q, .reads (lit "q") 0, .wakes 0]

/-- The node after an answer of `q`. -/
def after (by_q : Message) : EventLoop :=
  run EventLoop.step (.initial settings node) (answered by_q)

theorem runs : node.Runs (.pos TwoBlocks.pos) := ⟨rfl, rfl⟩

theorem verifies : Verifies (node.blockchain.verify_chain (some node.genesis_stakes)) :=
  ⟨.ok, rfl, rfl⟩

end BadAnswer

end EasyBlockchain
