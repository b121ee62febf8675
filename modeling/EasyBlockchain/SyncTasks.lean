/-
Every session of a node, whatever its peers send and whenever.

`_request_chain` registers a session for its peer and waits until the session
has ended or the time is over. The steps below are the stretches between two
points where the event loop may run something else: the start of a call, the
handling of an answer, and the end of a call, by the session or by the timeout.
`Invariant.step` is the argument; the theorem reads it off along a run.
-/
import EasyBlockchain.SyncSession
import EasyBlockchain.Lib.Run

set_option autoImplicit false

namespace EasyBlockchain

open Py Lib

/-- A payload that came as a JSON text. -/
abbrev JsonPayload [Runtime] : Type :=
  { payload : Dict // ∃ size, jsonSize plainAscii (.dict payload) = .ok size }

/-- A session and the call of `_request_chain` that made it. -/
structure SyncTask where
  peer : Str
  /-- the local chain when the call was made -/
  local_chain : List Block
  /-- the hash the session started with -/
  tip : PyVal
  session : ChainSyncSession
  /-- whether the call has not returned -/
  waiting : Bool
  /-- what `_accept_chain_batch` said to the payloads of the session -/
  verdicts : List Bool
  /-- what the call gave to `_resolve_fork` -/
  handed : List (List Block)

/-- The sessions of a node in the order of their calls; `pending` is
`_pending_sync`, by position. -/
structure SyncState [Rsa] where
  node : Node
  tasks : List SyncTask
  pending : Str → Option ℕ

inductive SyncEvent [Runtime] [Rsa]
  /-- `_request_chain(peer)` is called -/
  | request (peer : Str)
  /-- a `CHAIN_RESPONSE` of the peer is handled -/
  | response (peer : Str) (payload : JsonPayload)
  /-- a call finds its session ended -/
  | wake (id : ℕ)
  /-- a call runs into the timeout -/
  | timeout (id : ℕ)
  /-- any other handler changes the chain -/
  | other (blockchain : BlockChain)

namespace SyncState

variable [Runtime] [Rsa]

omit [Runtime] in
def initial (node : Node) : SyncState := ⟨node, [], fun _ => none⟩

omit [Runtime] in
/-- The task `_request_chain` starts. Where the local tip has no hash the call
raises, and the session stays registered. -/
def new_task (node : Node) (peer : Str) : SyncTask :=
  match node.start_session with
  | .ok session =>
    ⟨peer, node.blockchain.chain, session.expected_prev_hash, session, true, [], []⟩
  | .error _ =>
    ⟨peer, node.blockchain.chain, .none,
      ⟨[], false, node.blockchain.chain.length + 1, .none, 0⟩, false, [], []⟩

omit [Rsa] in
/-- A task whose session gets an answer. -/
def answered (network : NetworkSettings) (payload : Dict) (task : SyncTask) : SyncTask :=
  match chain_response network task.session payload with
  | .error _ | .ok (_, .ignored) => task
  | .ok (session, reply) =>
    { task with session := session, verdicts := task.verdicts ++ [decide (reply ≠ .refused)] }

/-- An answer of a peer without a session goes to fork resolution. -/
def unsolicited (node : Node) (payload : Dict) : Node :=
  match Dict.find payload (lit "blocks") with
  | some (.list blocks) =>
    if blocks.all (fun block => match block with | .dict _ => true | _ => false) then
      (node.resolve_fork blocks).2
    else node
  | _ => node

omit [Runtime] [Rsa] in
/-- The `finally` of `_request_chain`. -/
def unregister (pending : Str → Option ℕ) (peer : Str) (id : ℕ) : Str → Option ℕ :=
  if pending peer = some id then Function.update pending peer none else pending

omit [Runtime] [Rsa] in
/-- A call that returns. -/
def returned (blocks : List Block) (task : SyncTask) : SyncTask :=
  { task with
    waiting := false
    handed := if blocks.isEmpty then task.handed else task.handed ++ [blocks] }

def step (s : SyncState) : SyncEvent → SyncState
  | .request peer =>
    match s.pending peer with
    | some _ => s
    | none => { s with
        tasks := s.tasks ++ [new_task s.node peer]
        pending := Function.update s.pending peer (some s.tasks.length) }
  | .response peer payload =>
    match s.pending peer with
    | some id => { s with tasks := s.tasks.modify id (answered s.node.network payload.val) }
    | none => { s with node := unsolicited s.node payload.val }
  | .wake id =>
    match s.tasks[id]? with
    | some task =>
      if task.waiting && task.session.done then
        { node := (s.node.finish_session task.session).2
          tasks := s.tasks.modify id (returned task.session.blocks)
          pending := unregister s.pending task.peer id }
      else s
    | none => s
  | .timeout id =>
    match s.tasks[id]? with
    | some task =>
      if task.waiting then
        { s with
          tasks := s.tasks.modify id (returned [])
          pending := unregister s.pending task.peer id }
      else s
    | none => s
  | .other blockchain => { s with node := { s.node with blockchain := blockchain } }

end SyncState

/-! ## The invariant -/

section Safety

variable [Runtime] [Rsa]

/-- The hash at the tip of a chain, where there is one. -/
structure TipHash (chain : List Block) (tip : PyVal) : Prop where
  empty : chain = [] → tip = .none
  last : ∀ last v, chain.getLast? = some last → HeaderIs last (lit "tran_hash") v → tip = v

/-- What holds of every session at any time. -/
structure SyncTask.Good (task : SyncTask) (network : NetworkSettings) : Prop where
  tip : TipHash task.local_chain task.tip
  kept : task.session.Kept network (task.local_chain.length + 1) task.tip
  refused : false ∈ task.verdicts → task.session.blocks = [] ∧ task.session.done = true
  unhanded : task.waiting = true → task.handed = []
  handed : task.handed ≠ [] → task.session.done = true ∧ false ∉ task.verdicts ∧
    task.handed = [task.session.blocks]

/-- What holds of a node's sessions at any time: they are good, and a call that
waits is the one registered for its peer. -/
structure SyncState.Invariant (s : SyncState) (network : NetworkSettings) : Prop where
  settings : s.node.network = network
  good : ∀ task ∈ s.tasks, task.Good network
  registered : ∀ id task, s.tasks[id]? = some task → task.waiting = true →
    s.pending task.peer = some id

variable {network : NetworkSettings} {s : SyncState}

omit [Runtime] in
/-- A session starts with the hash at the local tip. -/
theorem tipHash_of_start {node : Node} {session : ChainSyncSession}
    (h : node.start_session = .ok session) :
    TipHash node.blockchain.chain session.expected_prev_hash ∧
      session = ⟨[], false, node.blockchain.chain.length + 1, session.expected_prev_hash, 0⟩ := by
  unfold Node.start_session at h
  rcases hlast : node.blockchain.chain.getLast? with _ | last
  · rw [hlast] at h
    obtain rfl := Except.ok.inj h
    have hnil := List.getLast?_eq_none_iff.mp hlast
    refine ⟨⟨fun _ => rfl, ?_⟩, by simp [hnil]⟩
    intro last v hsome
    rw [hlast] at hsome
    cases hsome
  · rw [hlast] at h
    simp only [bind_eq_ok, pure_eq, Except.ok.injEq] at h
    obtain ⟨header, hheader, tip, htip, rfl⟩ := h
    have hne : node.blockchain.chain ≠ [] := by
      intro hnil
      rw [hnil] at hlast
      cases hlast
    refine ⟨⟨fun hnil => absurd hnil hne, ?_⟩, ?_⟩
    · intro last' v hsome hv
      rw [hlast, Option.some.injEq] at hsome
      subst hsome
      exact HeaderIs.unique ⟨header, hheader, htip⟩ hv
    · rw [if_pos (List.length_pos_iff.mpr hne)]

theorem good_new_task (node : Node) (peer : Str) :
    (SyncState.new_task node peer).Good node.network := by
  unfold SyncState.new_task
  rcases hstart : node.start_session with e | session
  · constructor
    · constructor
      · intro _
        rfl
      · intro last v hlast hv
        -- the call raised because the tip has no hash
        obtain ⟨header, hheader, hv⟩ := hv
        simp [Node.start_session, hlast, hheader, hv] at hstart
    · exact Or.inl (collected_new _ _ _ _)
    · simp
    · simp
    · simp
  · obtain ⟨htip, hsession⟩ := tipHash_of_start hstart
    constructor
    · exact htip
    · left
      simp only
      rw [hsession]
      exact collected_new _ _ _ _
    · simp
    · simp
    · simp

omit [Rsa] in
/-- An answer keeps a session good. -/
theorem SyncTask.Good.answered {task : SyncTask} (h : task.Good network) (payload : Dict) :
    (SyncState.answered network payload task).Good network := by
  unfold SyncState.answered
  split
  · exact h
  · exact h
  · rename_i session reply hne hresponse
    have hlive : task.session.done = false := by
      rcases chain_response_cases hresponse with ⟨-, -, hreply⟩ | ⟨hlive, -⟩ | ⟨hlive, -⟩
      · exact absurd hreply hne
      · exact hlive
      · exact hlive
    have hverdicts : false ∉ task.verdicts := by
      intro hmem
      have hdone := (h.refused hmem).2
      rw [hlive] at hdone
      cases hdone
    have hnothing : task.handed = [] := by
      by_contra hhanded
      have hdone := (h.handed hhanded).1
      rw [hlive] at hdone
      cases hdone
    refine ⟨h.tip, h.kept.response hresponse, ?_, fun _ => hnothing, fun hhanded => absurd hnothing hhanded⟩
    intro hmem
    have hreply : reply = .refused := by
      simpa [hverdicts] using hmem
    rcases chain_response_cases hresponse with ⟨-, -, heq⟩ | ⟨-, -, rfl, -⟩ | ⟨-, taken, -, ⟨-, heq⟩ | ⟨-, heq⟩⟩
    · rw [hreply] at heq
      cases heq
    · exact ⟨rfl, rfl⟩
    · rw [hreply] at heq
      cases heq
    · rw [hreply] at heq
      cases heq

omit [Rsa] in
theorem peer_answered (network : NetworkSettings) (payload : Dict) (task : SyncTask) :
    (SyncState.answered network payload task).peer = task.peer ∧
      (SyncState.answered network payload task).waiting = task.waiting := by
  unfold SyncState.answered
  split
  · exact ⟨rfl, rfl⟩
  · exact ⟨rfl, rfl⟩
  · exact ⟨rfl, rfl⟩

omit [Rsa] in
/-- A call that returns with the blocks of its session leaves it good. -/
theorem SyncTask.Good.returned {task : SyncTask} (h : task.Good network) {blocks : List Block}
    (hwaiting : task.waiting = true)
    (hblocks : blocks ≠ [] → task.session.done = true ∧ blocks = task.session.blocks) :
    (SyncState.returned blocks task).Good network := by
  have hnothing := h.unhanded hwaiting
  refine ⟨h.tip, h.kept, h.refused, fun hfalse => by simp [SyncState.returned] at hfalse, ?_⟩
  intro hhanded
  have hne : blocks ≠ [] := by
    rintro rfl
    exact hhanded hnothing
  obtain ⟨hdone, rfl⟩ := hblocks hne
  have hempty : task.session.blocks.isEmpty = false := by
    rw [Bool.eq_false_iff]
    simpa using hne
  refine ⟨hdone, ?_, ?_⟩
  · intro hmem
    exact hne (h.refused hmem).1
  · simp [SyncState.returned, hempty, hnothing]

omit [Rsa] in
/-- Changing one task keeps all good, when it keeps that one good. -/
theorem good_modify {tasks : List SyncTask} (h : ∀ task ∈ tasks, task.Good network)
    {id : ℕ} {f : SyncTask → SyncTask}
    (hf : ∀ task, tasks[id]? = some task → (f task).Good network) :
    ∀ task ∈ tasks.modify id f, task.Good network := by
  intro task hmem
  obtain ⟨j, hj⟩ := List.mem_iff_getElem?.mp hmem
  rw [List.getElem?_modify] at hj
  obtain ⟨old, hold, rfl⟩ := Option.map_eq_some_iff.mp hj
  by_cases hid : id = j
  · subst hid
    simp only [if_true]
    exact hf old hold
  · simp only [hid, if_false]
    exact h old (List.mem_of_getElem? hold)

/-- Fork resolution leaves the settings alone. -/
theorem network_resolve_fork (node : Node) (remote_chain : List Block) :
    (node.resolve_fork remote_chain).2.network = node.network := by
  unfold Node.resolve_fork
  by_cases hnil : remote_chain.isEmpty = true
  · rw [if_pos hnil]
  rw [if_neg hnil]
  rcases node.canonical_chain remote_chain with e | canonical
  · rfl
  simp only
  by_cases hchange : (!canonical.isEmpty && differs canonical node.blockchain.chain) = true
  · rw [if_pos hchange]
    rcases node.blockchain.replace_chain canonical (some node.genesis_stakes) with ⟨_ | _, _⟩
    · rfl
    · rfl
  · rw [if_neg hchange]

theorem network_finish_session (node : Node) (session : ChainSyncSession) :
    (node.finish_session session).2.network = node.network := by
  unfold Node.finish_session
  split
  · rfl
  · exact network_resolve_fork node session.blocks

theorem network_unsolicited (node : Node) (payload : Dict) :
    (SyncState.unsolicited node payload).network = node.network := by
  unfold SyncState.unsolicited
  split
  · split
    · exact network_resolve_fork node _
    · rfl
  · rfl

omit [Runtime] [Rsa] in
/-- A call that returns takes only its own session off the register. -/
theorem unregister_of_ne {pending : Str → Option ℕ} {peer peer' : Str} {id id' : ℕ}
    (h : pending peer' = some id') (hne : id ≠ id') :
    SyncState.unregister pending peer id peer' = some id' := by
  unfold SyncState.unregister
  split
  · rename_i hown
    have hpeer : peer' ≠ peer := by
      rintro rfl
      rw [hown, Option.some.injEq] at h
      exact hne h
    rw [Function.update_of_ne hpeer, h]
  · exact h

/-- A step that ends the call `id` and leaves every other one as it is. -/
theorem SyncState.Invariant.returns (h : s.Invariant network) {id : ℕ} {task : SyncTask}
    (htask : s.tasks[id]? = some task) (hwaiting : task.waiting = true) {blocks : List Block}
    (hblocks : blocks ≠ [] → task.session.done = true ∧ blocks = task.session.blocks) {node : Node}
    (hnode : node.network = network) :
    SyncState.Invariant ⟨node, s.tasks.modify id (SyncState.returned blocks),
      SyncState.unregister s.pending task.peer id⟩ network where
  settings := hnode
  good := by
    apply good_modify h.good
    intro task' htask'
    rw [htask, Option.some.injEq] at htask'
    subst htask'
    exact (h.good task (List.mem_of_getElem? htask)).returned hwaiting hblocks
  registered := by
    intro j other hj hother
    simp only [List.getElem?_modify] at hj
    obtain ⟨old, hold, rfl⟩ := Option.map_eq_some_iff.mp hj
    by_cases hid : id = j
    · subst hid
      simp [SyncState.returned] at hother
    · simp only [hid, if_false] at hother ⊢
      exact unregister_of_ne (h.registered j old hold hother) hid

/-- One step. -/
theorem SyncState.Invariant.step (h : s.Invariant network) (event : SyncEvent) :
    (s.step event).Invariant network := by
  cases event with
  | request peer =>
      rcases hpending : s.pending peer with _ | id
      · simp only [SyncState.step, hpending]
        have hnew := good_new_task s.node peer
        rw [h.settings] at hnew
        refine ⟨h.settings, ?_, ?_⟩
        · intro task hmem
          rcases List.mem_append.mp hmem with hold | hnewtask
          · exact h.good task hold
          · rw [List.mem_singleton.mp hnewtask]
            exact hnew
        · intro id task hid hwaiting
          rcases Nat.lt_or_ge id s.tasks.length with hlt | hge
          · -- a waiting call for the same peer would have been registered
            rw [List.getElem?_append_left hlt] at hid
            have hreg := h.registered id task hid hwaiting
            have hpeer : task.peer ≠ peer := by
              rintro rfl
              rw [hpending] at hreg
              cases hreg
            simp only
            rw [Function.update_of_ne hpeer, hreg]
          · rw [List.getElem?_append_right hge, List.getElem?_singleton] at hid
            split at hid
            · rename_i hzero
              obtain rfl := Option.some.inj hid
              have hlast : id = s.tasks.length := by omega
              have hpeer : (SyncState.new_task s.node peer).peer = peer := by
                unfold SyncState.new_task
                split
                · rfl
                · rfl
              simp only
              rw [hpeer, Function.update_self, hlast]
            · cases hid
      · simp only [SyncState.step, hpending]
        exact h
  | response peer payload =>
      rcases hpending : s.pending peer with _ | id
      · simp only [SyncState.step, hpending]
        exact ⟨(network_unsolicited _ _).trans h.settings, h.good, h.registered⟩
      · simp only [SyncState.step, hpending]
        refine ⟨h.settings, ?_, ?_⟩
        · apply good_modify h.good
          intro task htask
          rw [h.settings]
          exact (h.good task (List.mem_of_getElem? htask)).answered payload.val
        · intro j other hj hwaiting
          simp only [List.getElem?_modify] at hj
          obtain ⟨old, hold, rfl⟩ := Option.map_eq_some_iff.mp hj
          by_cases hid : id = j
          · obtain ⟨hpeer, hwait⟩ := peer_answered s.node.network payload.val old
            simp only [hid, if_true, hpeer, hwait] at hwaiting ⊢
            exact h.registered j old hold hwaiting
          · simp only [hid, if_false] at hwaiting ⊢
            exact h.registered j old hold hwaiting
  | wake id =>
      rcases htask : s.tasks[id]? with _ | task
      · simp only [SyncState.step, htask]
        exact h
      · simp only [SyncState.step, htask]
        by_cases hready : (task.waiting && task.session.done) = true
        · rw [if_pos hready]
          rw [Bool.and_eq_true] at hready
          exact h.returns htask hready.1 (fun _ => ⟨hready.2, rfl⟩)
            ((network_finish_session _ _).trans h.settings)
        · rw [if_neg hready]
          exact h
  | timeout id =>
      rcases htask : s.tasks[id]? with _ | task
      · simp only [SyncState.step, htask]
        exact h
      · simp only [SyncState.step, htask]
        by_cases hwaiting : task.waiting = true
        · rw [if_pos hwaiting]
          exact h.returns htask hwaiting (fun hne => absurd rfl hne) h.settings
        · rw [if_neg hwaiting]
          exact h
  | other blockchain => exact ⟨h.settings, h.good, h.registered⟩

/-- A run from any state. -/
theorem SyncState.Invariant.run (h : s.Invariant network) (events : List SyncEvent) :
    (run SyncState.step s events).Invariant network := by
  induction events generalizing s with
  | nil => exact h
  | cons event events ih => exact ih (h.step event)

omit [Runtime] in
theorem invariant_initial [Runtime] (node : Node) :
    (SyncState.initial node).Invariant node.network where
  settings := rfl
  good task hmem := by simp [SyncState.initial] at hmem
  registered id task hid := by simp [SyncState.initial] at hid

/-! ## Ended sessions -/

/-- The task `i` has a session that has ended, with this content. -/
def SyncState.Ended (s : SyncState) (i : ℕ) (session : ChainSyncSession) (verdicts : List Bool) :
    Prop :=
  ∃ task, s.tasks[i]? = some task ∧ task.session = session ∧ task.verdicts = verdicts ∧
    session.done = true

omit [Runtime] [Rsa] in
theorem ended_modify [Rsa] {tasks : List SyncTask} {i id : ℕ} {task : SyncTask} {f : SyncTask → SyncTask}
    (htask : tasks[i]? = some task)
    (hf : (f task).session = task.session ∧ (f task).verdicts = task.verdicts) :
    ∃ task', (tasks.modify id f)[i]? = some task' ∧ task'.session = task.session ∧
      task'.verdicts = task.verdicts := by
  rw [List.getElem?_modify, htask]
  by_cases hid : id = i
  · exact ⟨f task, by simp [hid], hf⟩
  · exact ⟨task, by simp [hid], rfl, rfl⟩

/-- No step changes an ended session. -/
theorem SyncState.Ended.step {i : ℕ} {session : ChainSyncSession} {verdicts : List Bool}
    (h : s.Ended i session verdicts) (event : SyncEvent) :
    (s.step event).Ended i session verdicts := by
  obtain ⟨task, htask, rfl, rfl, hdone⟩ := h
  have hmodify : ∀ (id : ℕ) (f : SyncTask → SyncTask) (node : Node) (pending : Str → Option ℕ),
      (f task).session = task.session ∧ (f task).verdicts = task.verdicts →
        SyncState.Ended ⟨node, s.tasks.modify id f, pending⟩ i task.session task.verdicts := by
    intro id f node pending hf
    obtain ⟨task', htask', hsession, hverdicts⟩ := ended_modify htask hf
    exact ⟨task', htask', hsession, hverdicts, hdone⟩
  have hsame : s.Ended i task.session task.verdicts := ⟨task, htask, rfl, rfl, hdone⟩
  cases event with
  | request peer =>
      rcases hpending : s.pending peer with _ | id
      · simp only [SyncState.step, hpending]
        obtain ⟨hlt, -⟩ := List.getElem?_eq_some_iff.mp htask
        exact ⟨task, by rw [List.getElem?_append_left hlt, htask], rfl, rfl, hdone⟩
      · simp only [SyncState.step, hpending]
        exact hsame
  | response peer payload =>
      rcases hpending : s.pending peer with _ | id
      · simp only [SyncState.step, hpending]
        exact hsame
      · simp only [SyncState.step, hpending]
        apply hmodify
        have hignored : chain_response s.node.network task.session payload.val
            = .ok (task.session, .ignored) := by
          rw [chain_response, if_pos hdone]
        simp [SyncState.answered, hignored]
  | wake id =>
      simp only [SyncState.step]
      split
      · split
        · exact hmodify _ _ _ _ ⟨rfl, rfl⟩
        · exact hsame
      · exact hsame
  | timeout id =>
      simp only [SyncState.step]
      split
      · split
        · exact hmodify _ _ _ _ ⟨rfl, rfl⟩
        · exact hsame
      · exact hsame
  | other blockchain => exact hsame

theorem SyncState.Ended.run {i : ℕ} {session : ChainSyncSession} {verdicts : List Bool}
    (h : s.Ended i session verdicts) (events : List SyncEvent) :
    (run SyncState.step s events).Ended i session verdicts := by
  induction events generalizing s with
  | nil => exact h
  | cons event events ih => exact ih (h.step event)

omit [Rsa] in
/-- No JSON payload makes the handler raise. -/
theorem chain_response_ok (network : NetworkSettings) (session : ChainSyncSession)
    (payload : JsonPayload) : ∃ r, chain_response network session payload.val = .ok r := by
  unfold chain_response
  by_cases hdone : session.done = true
  · rw [if_pos hdone]
    exact ⟨_, rfl⟩
  rw [if_neg hdone]
  obtain ⟨accepted, haccept⟩ : ∃ accepted,
      accept_chain_batch network session payload.val = .ok accepted := by
    unfold accept_chain_batch
    split
    · exact ⟨_, rfl⟩
    · rename_i blocks has_more from_height next_height hfields
      split
      · exact ⟨_, rfl⟩
      · split
        · exact ⟨_, rfl⟩
        · -- the blocks of a JSON payload can be written again
          have hfind : Dict.find payload.val (lit "blocks") = some (.list blocks) := by
            unfold batch_fields at hfields
            split at hfields
            · rename_i hblocks _ _ _
              obtain ⟨rfl, -⟩ := Prod.mk.inj (Option.some.inj hfields)
              exact hblocks
            · cases hfields
          obtain ⟨l₁, l₂, hsplit, -⟩ := List.lookup_eq_some_iff.mp hfind
          obtain ⟨size, hpayload⟩ := payload.property
          obtain ⟨m, hm⟩ := jsonSize_value rfl hpayload (k := .str (lit "blocks"))
            (v := .list blocks) (by rw [hsplit]; simp)
          rw [batch_bytes, hm, ok_bind]
          split
          · exact ⟨_, rfl⟩
          · exact ⟨_, rfl⟩
  rw [haccept, ok_bind]
  rcases accepted with _ | taken
  · exact ⟨_, rfl⟩
  · simp only
    split
    · exact ⟨_, rfl⟩
    · exact ⟨_, rfl⟩

/-- Sessions survive any peer. In every run of calls, JSON answers, timeouts and
changes of the chain: a peer has at most one waiting call, whose session is the
registered one. The blocks of every session have consecutive integer indices
from the height after the local chain, each names the hash of the one before it,
the first one the hash of the local tip where there was one, and they are within
the limits. A payload that is not accepted empties the session and ends it, a
session that has ended is never changed again, and a call hands its blocks to
fork resolution at most once, when all payloads were accepted. No payload makes
the handler raise. -/
theorem sessions_safe (node : Node) (events : List SyncEvent) :
    let s := run SyncState.step (SyncState.initial node) events
    (∀ i j t u, s.tasks[i]? = some t → s.tasks[j]? = some u → t.waiting = true → u.waiting = true →
      t.peer = u.peer → i = j ∧ s.pending t.peer = some i) ∧
    (∀ task ∈ s.tasks, TipHash task.local_chain task.tip ∧
      (∀ (k : ℕ) (hk : k < task.session.blocks.length), ∃ p,
        HashAfter task.tip (task.session.blocks.take k) p ∧
          CarriesOn (task.local_chain.length + 1 + k) p (task.session.blocks.get ⟨k, hk⟩)) ∧
      task.session.blocks.length ≤ node.network.chain_sync_max_blocks ∧
      (task.session.blocks ≠ [] → ∃ size : ℕ, batch_bytes task.session.blocks = .ok size ∧
        size ≤ node.network.chain_sync_max_bytes) ∧
      (false ∈ task.verdicts → task.session.blocks = [] ∧ task.session.done = true) ∧
      task.handed.length ≤ 1 ∧
      (task.handed ≠ [] → false ∉ task.verdicts ∧ task.handed = [task.session.blocks])) ∧
    (∀ i task more, s.tasks[i]? = some task → task.session.done = true →
      (run SyncState.step s more).Ended i task.session task.verdicts) ∧
    ∀ network session (payload : JsonPayload),
      ∃ r, chain_response network session payload.val = .ok r := by
  intro s
  have hs : s.Invariant node.network := (invariant_initial node).run events
  refine ⟨?_, ?_, ?_, chain_response_ok⟩
  · intro i j t u ht hu htw huw hpeer
    have hi := hs.registered i t ht htw
    have hj := hs.registered j u hu huw
    rw [← hpeer, hi, Option.some.injEq] at hj
    exact ⟨hj, hi⟩
  · intro task hmem
    have hgood := hs.good task hmem
    refine ⟨hgood.tip, ?_, ?_, ?_, hgood.refused, ?_, fun hne => (hgood.handed hne).2⟩
    · intro k hk
      rcases hgood.kept with hcollected | ⟨hnil, -⟩
      · exact carriesOn_getElem hcollected.linked hk
      · rw [hnil, List.length_nil] at hk
        exact absurd hk (Nat.not_lt_zero k)
    · rcases hgood.kept with hcollected | ⟨hnil, -⟩
      · exact hcollected.count
      · rw [hnil]
        exact (collected_new node.network false 0 .none).count
    · intro hne
      rcases hgood.kept with hcollected | ⟨hnil, -⟩
      · obtain ⟨size, hsize, hle⟩ := hcollected.bytes hne
        have hreceived := hcollected.received
        exact ⟨size, hsize, by omega⟩
      · exact absurd hnil hne
    · by_cases hnothing : task.handed = []
      · simp [hnothing]
      · rw [(hgood.handed hnothing).2.2]
        simp
  · intro i task more htask hdone
    exact SyncState.Ended.run ⟨task, htask, rfl, rfl, hdone⟩ more

end Safety

end EasyBlockchain
