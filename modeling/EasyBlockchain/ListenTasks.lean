/-
The listen tasks of a node, and what their handlers wait for.

Every connection has one task. It reads a frame, awaits the handler, and reads
the next frame when the handler has returned. The handlers of `HELLO` and of
`NEW_BLOCK` wait in `_request_chain`, the latter in the loop of `sync_chain`, for
sessions that the tasks of other connections fill.

A step is what the event loop does between two points where a task waits. The
frames are those that the limiter, the decoder and the gate of `listen` let pass.
The tasks share the sessions of `SyncTasks`.
-/
import EasyBlockchain.SyncTasks
import EasyBlockchain.PeerGate

set_option autoImplicit false

namespace EasyBlockchain

open Py Lib

/-! ## Calls -/

/-- Where a call of `sync_chain` or of `_request_chain` stands. -/
inductive Progress
  /-- it waits for the session `id` -/
  | waiting (id : ℕ)
  | returned
  /-- it raised, on blocks that `author` sent or on what the node itself has -/
  | raised (author : Option Str) (e : PyErr)
  deriving DecidableEq

/-- A call of `sync_chain`, or of `_request_chain` for a single peer. -/
structure SyncCall where
  /-- the peer whose handler makes the call, if a handler does -/
  owner : Option Str
  /-- the peers to request, as they were when the call was made -/
  peers : List Str
  /-- how many of them were requested -/
  asked : ℕ
  progress : Progress
  deriving DecidableEq

/-- How a listen task ended. -/
inductive Ending
  /-- by the branch `except Exception` around the handler -/
  | raised (author : Option Str) (e : PyErr)
  /-- otherwise -/
  | left
  deriving DecidableEq

/-- Where a listen task stands. -/
inductive Listening
  | reading
  /-- its handler sends or dials before it returns -/
  | sending
  /-- `_on_hello` sends its own HELLO, before it compares the heights -/
  | greeting (payload : Dict)
  /-- its handler waits in the call `i` -/
  | syncing (i : ℕ)
  | ended (ending : Ending)
  deriving DecidableEq

structure Message [Runtime] where
  msg_type : MessageType
  payload : JsonPayload

/-- A node with its tasks. `peers` are the keys of `p2p.peers`; `inbox` is what
has arrived on a connection and is not yet read. -/
structure EventLoop [Runtime] [Rsa] where
  settings : GateSettings
  sync : SyncState
  peers : List Str
  listen : Str → Option Listening
  inbox : Str → List Message
  calls : List SyncCall

inductive LoopEvent [Runtime] [Rsa]
  /-- a listen task is created; `uuid4` draws no identifier twice -/
  | listens (peer : Str)
  /-- its connection enters `p2p.peers` -/
  | registers (peer : Str)
  | unregisters (peer : Str)
  | arrives (peer : Str) (frame : Message)
  | reads (peer : Str) (now : ℚ)
  /-- what a handler awaited besides sessions is done -/
  | resumes (peer : Str)
  /-- the session that a call waits for has ended -/
  | wakes (i : ℕ)
  | times_out (i : ℕ)
  /-- the connection is closed while its task waits for a frame -/
  | leaves (peer : Str)
  /-- `sync_chain` is called by no handler -/
  | syncs
  | produces (input : BlockChain.LocalInput)

/-- `_resolve_chain_height`. -/
def resolve_chain_height (height_raw : PyVal) : PyM ℤ := do
  let requested ← resolve_int 0 height_raw
  return if requested < 0 then 0 else requested

section Steps

variable [Runtime] [Rsa]

/-! ## Requests -/

/-- The loop of `sync_chain` up to the next wait, with the number of the peers it
came past: `_request_chain` returns at once for a peer that has a session. -/
def SyncState.request_next (s : SyncState) : List Str → SyncState × ℕ × Progress
  | [] => (s, 0, .returned)
  | peer :: rest =>
    match s.pending peer with
    | some _ =>
      let (sync, asked, progress) := s.request_next rest
      (sync, asked + 1, progress)
    | none =>
      (s.step (.request peer), 1,
        match s.node.start_session with
        | .ok _ => .waiting s.tasks.length
        | .error e => .raised none e)

/-- What handling a `CHAIN_RESPONSE` raises, if anything. -/
def SyncState.response_result (s : SyncState) (peer : Str) (payload : Dict) : PyM Unit :=
  match s.pending peer with
  | some id =>
    match s.tasks[id]? with
    | some task => do
      let _ ← chain_response s.node.network task.session payload
      return ()
    | none => .ok ()
  | none =>
    match Dict.find payload (lit "blocks") with
    | some (.list blocks) =>
      if blocks.all (fun block => match block with | .dict _ => true | _ => false) then
        (s.node.resolve_fork blocks).1
      else .ok ()
    | _ => .ok ()

/-- A call up to its next wait. -/
def SyncCall.ask (call : SyncCall) (sync : SyncState) : SyncState × SyncCall :=
  let (sync, asked, progress) := sync.request_next (call.peers.drop call.asked)
  (sync, { call with asked := call.asked + asked, progress := progress })

/-- A call whose session with `author` has ended: what fork resolution raises, the
loop raises. -/
def SyncCall.goes_on (call : SyncCall) (sync : SyncState) (author : Str) (result : PyM Unit) :
    SyncState × SyncCall :=
  match result with
  | .ok _ => call.ask sync
  | .error e => (sync, { call with progress := .raised (some author) e })

omit [Runtime] [Rsa] in
/-- Where the handler that makes the call `i` stands. -/
def Progress.listening (i : ℕ) : Progress → Listening
  | .waiting _ => .syncing i
  | .returned => .reading
  | .raised author e => .ended (.raised author e)

namespace EventLoop

def stand (s : EventLoop) (peer : Str) (listening : Listening) : EventLoop :=
  { s with listen := Function.update s.listen peer (some listening) }

/-- The handler of a frame of `peer` raises, on content of `author`. -/
def fail (s : EventLoop) (peer : Str) (author : Option Str) (e : PyErr) : EventLoop :=
  s.stand peer (.ended (.raised author e))

/-- The handler that makes the call `i` stands where the call does. -/
def settle (s : EventLoop) (i : ℕ) (call : SyncCall) : EventLoop :=
  match call.owner with
  | some peer => s.stand peer (call.progress.listening i)
  | none => s

def begin_call (s : EventLoop) (owner : Option Str) (peers : List Str) : EventLoop :=
  let (sync, call) := (⟨owner, peers, 0, .returned⟩ : SyncCall).ask s.sync
  ({ s with sync := sync, calls := s.calls ++ [call] }).settle s.calls.length call

def continue_call (s : EventLoop) (i : ℕ) (next : SyncState × SyncCall) : EventLoop :=
  ({ s with sync := next.1, calls := s.calls.set i next.2 }).settle i next.2

/-- The call `i`, the session it waits for, and the call of `_request_chain` that
made the session. -/
def wait_of (s : EventLoop) (i : ℕ) : Option (SyncCall × ℕ × SyncTask) := do
  let call ← s.calls[i]?
  match call.progress with
  | .waiting id =>
    let task ← s.sync.tasks[id]?
    return (call, id, task)
  | _ => none

/-! ## Handlers -/

def chain (s : EventLoop) : List Block := s.sync.node.blockchain.chain

/-- `_on_hello` up to the HELLO it sends back. -/
def on_hello [Stringify] (s : EventLoop) (peer : Str) (now : ℚ) (payload : Dict) : EventLoop :=
  if peer ∈ s.peers then
    match hello_checks s.settings s.chain now payload with
    | .error e =>
      -- the genesis hash is read off the chain, the rest off the payload
      match genesis_hash s.chain s.settings.genesis_prev_hash with
      | .ok _ => s.fail peer (some peer) e
      | .error _ => s.fail peer none e
    | .ok false => s
    | .ok true => s.stand peer (.greeting payload)
  else s

/-- The end of `_on_hello`. -/
def compare_heights (s : EventLoop) (peer : Str) (payload : Dict) : EventLoop :=
  match resolve_chain_height ((Dict.find payload (lit "chain_height")).getD .none) with
  | .error e => s.fail peer (some peer) e
  | .ok remote_height =>
    if (s.chain.length : ℤ) < remote_height then s.begin_call (some peer) [peer]
    else s.stand peer .reading

/-- The `NEW_BLOCK` branch of `_handle_message`. -/
def on_new_block (s : EventLoop) (peer : Str) (payload : Dict) : EventLoop :=
  let (added, node) := s.sync.node.new_block payload
  let after := { s with sync := s.sync.step (.other node.blockchain) }
  match added with
  | .error e => after.fail peer (some peer) e
  | .ok true => after
  | .ok false => after.begin_call (some peer) after.peers

/-- The `CHAIN_RESPONSE` branch of `_handle_message`. -/
def on_chain_response (s : EventLoop) (peer : Str) (payload : JsonPayload) : EventLoop :=
  let after := { s with sync := s.sync.step (.response peer payload) }
  match s.sync.response_result peer payload.val with
  | .error e => after.fail peer (some peer) e
  | .ok _ => after.stand peer .sending

/-- `_handle_message`. -/
def handle [Stringify] (s : EventLoop) (peer : Str) (now : ℚ) (frame : Message) : EventLoop :=
  match frame.msg_type with
  | .hello => s.on_hello peer now frame.payload.val
  | .new_block => s.on_new_block peer frame.payload.val
  | .chain_response => s.on_chain_response peer frame.payload
  | .peers | .get_chain | .ping => s.stand peer .sending
  | .pong => s

/-! ## Steps -/

def step [Stringify] (s : EventLoop) : LoopEvent → EventLoop
  | .listens peer =>
    match s.listen peer with
    | none => s.stand peer .reading
    | some _ => s
  | .registers peer => if peer ∈ s.peers then s else { s with peers := s.peers ++ [peer] }
  | .unregisters peer => { s with peers := s.peers.erase peer }
  | .arrives peer frame =>
    { s with inbox := Function.update s.inbox peer (s.inbox peer ++ [frame]) }
  | .reads peer now =>
    match s.listen peer, s.inbox peer with
    | some .reading, frame :: rest =>
      ({ s with inbox := Function.update s.inbox peer rest }).handle peer now frame
    | _, _ => s
  | .resumes peer =>
    match s.listen peer with
    | some .sending => s.stand peer .reading
    | some (.greeting payload) => s.compare_heights peer payload
    | _ => s
  | .wakes i =>
    match s.wait_of i with
    | some (call, id, task) =>
      if task.session.done then
        s.continue_call i (call.goes_on (s.sync.step (.wake id)) task.peer
          (s.sync.node.finish_session task.session).1)
      else s
    | none => s
  | .times_out i =>
    match s.wait_of i with
    | some (call, id, _) => s.continue_call i (call.ask (s.sync.step (.timeout id)))
    | none => s
  | .leaves peer =>
    match s.listen peer with
    | some .reading => s.stand peer (.ended .left)
    | _ => s
  | .syncs => s.begin_call none s.peers
  | .produces input =>
    { s with sync := s.sync.step (.other (s.sync.node.blockchain.add_new_block input).2) }

/-- A node before its first connection. -/
def initial (settings : GateSettings) (node : Node) : EventLoop :=
  ⟨settings, .initial node, [], fun _ => none, fun _ => [], []⟩

/-! ## What a step changes -/

variable {s : EventLoop}

@[simp] theorem stand_sync (peer : Str) (l : Listening) : (s.stand peer l).sync = s.sync := rfl

@[simp] theorem stand_calls (peer : Str) (l : Listening) : (s.stand peer l).calls = s.calls := rfl

@[simp] theorem stand_listen_self (peer : Str) (l : Listening) :
    (s.stand peer l).listen peer = some l := by
  simp only [stand, Function.update_self]

theorem stand_listen_of_ne {peer other : Str} (h : other ≠ peer) (l : Listening) :
    (s.stand peer l).listen other = s.listen other := by
  simp only [stand, Function.update_of_ne h]

@[simp] theorem settle_sync (i : ℕ) (call : SyncCall) : (s.settle i call).sync = s.sync := by
  unfold settle
  split
  · rfl
  · rfl

@[simp] theorem settle_calls (i : ℕ) (call : SyncCall) : (s.settle i call).calls = s.calls := by
  unfold settle
  split
  · rfl
  · rfl

/-- The loop of `sync_chain` comes past the peers that have a session, and ends or
requests the first one that has none. -/
theorem request_next_cases (sync : SyncState) (peers : List Str) :
    sync.request_next peers = (sync, peers.length, .returned) ∨
      ∃ k peer, peers[k]? = some peer ∧ sync.pending peer = none ∧
        (∀ p ∈ peers.take k, sync.pending p ≠ none) ∧
        sync.request_next peers = (sync.step (.request peer), k + 1,
          match sync.node.start_session with
          | .ok _ => .waiting sync.tasks.length
          | .error e => .raised none e) := by
  induction peers with
  | nil => exact Or.inl rfl
  | cons peer rest ih =>
      rcases hpending : sync.pending peer with _ | id
      · right
        refine ⟨0, peer, rfl, hpending, by simp, ?_⟩
        rw [SyncState.request_next, hpending]
      · rw [SyncState.request_next, hpending]
        rcases ih with hall | ⟨k, next, hk, hnext, hbefore, heq⟩
        · left
          rw [hall, List.length_cons]
        · right
          refine ⟨k + 1, next, hk, hnext, ?_, by rw [heq]⟩
          intro p hp
          rw [List.take_succ_cons] at hp
          rcases List.mem_cons.mp hp with rfl | hp
          · rw [hpending]
            exact Option.some_ne_none id
          · exact hbefore p hp

end EventLoop

/-! ## Calls and their sessions -/

omit [Runtime] in
/-- The sessions that are waited for are still there, and waited for. -/
def SyncState.Keeps (sync sync' : SyncState) (ids : ℕ → Prop) : Prop :=
  ∀ id task, ids id → sync.tasks[id]? = some task → task.waiting = true →
    ∃ task', sync'.tasks[id]? = some task' ∧ task'.waiting = true ∧ task'.peer = task.peer

omit [Runtime] in
/-- A call has come to the end of its peers, or waits for a session with the last
one that it requested. -/
structure SyncCall.Stands (call : SyncCall) (sync : SyncState) : Prop where
  returned : call.progress = .returned → call.asked = call.peers.length
  waits : ∀ id, call.progress = .waiting id → ∃ task k, sync.tasks[id]? = some task ∧
    task.waiting = true ∧ call.asked = k + 1 ∧ call.peers[k]? = some task.peer

omit [Runtime] in
theorem SyncState.Keeps.refl (sync : SyncState) (ids : ℕ → Prop) : sync.Keeps sync ids :=
  fun _ task _ htask hwaiting => ⟨task, htask, hwaiting, rfl⟩

omit [Runtime] in
theorem SyncState.Keeps.trans {a b c : SyncState} {ids : ℕ → Prop} (hab : a.Keeps b ids)
    (hbc : b.Keeps c ids) : a.Keeps c ids := by
  intro id task hid htask hwaiting
  obtain ⟨task', htask', hwaiting', hpeer'⟩ := hab id task hid htask hwaiting
  obtain ⟨task'', htask'', hwaiting'', hpeer''⟩ := hbc id task' hid htask' hwaiting'
  exact ⟨task'', htask'', hwaiting'', hpeer''.trans hpeer'⟩

omit [Runtime] in
theorem keeps_modify {sync : SyncState} {node : Node} {pending : Str → Option ℕ} {ids : ℕ → Prop}
    {id : ℕ} {f : SyncTask → SyncTask}
    (hf : ids id → ∀ task, (f task).waiting = task.waiting ∧ (f task).peer = task.peer) :
    sync.Keeps ⟨node, sync.tasks.modify id f, pending⟩ ids := by
  intro j task hj htask hwaiting
  rw [List.getElem?_modify, htask]
  by_cases hid : id = j
  · subst hid
    obtain ⟨hwait, hpeer⟩ := hf hj task
    exact ⟨f task, by simp, hwait.trans hwaiting, hpeer⟩
  · exact ⟨task, by simp [hid], hwaiting, rfl⟩

/-- A call that returns ends its own session; all other steps keep every session. -/
theorem SyncState.keeps_step (sync : SyncState) (event : SyncEvent) :
    sync.Keeps (sync.step event) fun id => event ≠ .wake id ∧ event ≠ .timeout id := by
  cases event with
  | request peer =>
      rcases hpending : sync.pending peer with _ | id
      · intro j task _ htask hwaiting
        simp only [SyncState.step, hpending]
        obtain ⟨hlt, -⟩ := List.getElem?_eq_some_iff.mp htask
        exact ⟨task, by rw [List.getElem?_append_left hlt, htask], hwaiting, rfl⟩
      · simp only [SyncState.step, hpending]
        exact .refl sync _
  | response peer payload =>
      rcases hpending : sync.pending peer with _ | id
      · simp only [SyncState.step, hpending]
        exact .refl sync _
      · simp only [SyncState.step, hpending]
        apply keeps_modify
        intro _ task
        exact (peer_answered sync.node.network payload.val task).symm
  | wake id =>
      simp only [SyncState.step]
      split
      · split
        · exact keeps_modify fun hid => absurd rfl hid.1
        · exact .refl sync _
      · exact .refl sync _
  | timeout id =>
      simp only [SyncState.step]
      split
      · split
        · exact keeps_modify fun hid => absurd rfl hid.2
        · exact .refl sync _
      · exact .refl sync _
  | other blockchain => exact .refl sync _

omit [Runtime] in
theorem SyncCall.Stands.keeps {call : SyncCall} {sync sync' : SyncState} {ids : ℕ → Prop}
    (h : call.Stands sync) (hkeeps : sync.Keeps sync' ids)
    (hids : ∀ id, call.progress = .waiting id → ids id) : call.Stands sync' where
  returned := h.returned
  waits id hprogress := by
    obtain ⟨task, k, htask, hwaiting, hasked, hpeer⟩ := h.waits id hprogress
    obtain ⟨task', htask', hwaiting', hsame⟩ := hkeeps id task (hids id hprogress) htask hwaiting
    exact ⟨task', k, htask', hwaiting', hasked, by rw [hsame, hpeer]⟩

omit [Runtime] in
theorem SyncCall.Stands.of_raised {call : SyncCall} (sync : SyncState) {author : Option Str} {e : PyErr}
    (h : call.progress = .raised author e) : call.Stands sync where
  returned hprogress := by
    rw [h] at hprogress
    cases hprogress
  waits id hprogress := by
    rw [h] at hprogress
    cases hprogress

omit [Runtime] in
theorem SyncCall.Stands.asked_le {call : SyncCall} {sync : SyncState} (h : call.Stands sync) {id : ℕ}
    (hprogress : call.progress = .waiting id) : call.asked ≤ call.peers.length := by
  obtain ⟨task, k, -, -, hasked, hpeer⟩ := h.waits id hprogress
  obtain ⟨hlt, -⟩ := List.getElem?_eq_some_iff.mp hpeer
  omega

/-- A call that goes on keeps all sessions and waits for a new one. -/
theorem SyncCall.ask_stands {call : SyncCall} (sync : SyncState)
    (hasked : call.asked ≤ call.peers.length) :
    (call.ask sync).2.Stands (call.ask sync).1 ∧ sync.Keeps (call.ask sync).1 (fun _ => True) ∧
      (call.ask sync).2.owner = call.owner ∧ (call.ask sync).2.peers = call.peers ∧
      ∀ id, (call.ask sync).2.progress = .waiting id → sync.tasks.length ≤ id := by
  unfold SyncCall.ask
  rcases EventLoop.request_next_cases sync (call.peers.drop call.asked) with
    hall | ⟨k, peer, hk, hpending, -, hnext⟩
  · rw [hall]
    refine ⟨?_, .refl sync _, rfl, rfl, ?_⟩
    · constructor
      · intro _
        simp only [List.length_drop]
        omega
      · intro id hprogress
        cases hprogress
    · intro id hprogress
      cases hprogress
  · rw [hnext]
    have hkeeps : sync.Keeps (sync.step (.request peer)) fun _ => True := by
      intro id task _
      exact sync.keeps_step (.request peer) id task ⟨by simp, by simp⟩
    rw [List.getElem?_drop] at hk
    rcases hstart : sync.node.start_session with e | session
    · refine ⟨.of_raised _ rfl, hkeeps, rfl, rfl, ?_⟩
      intro id hprogress
      cases hprogress
    · refine ⟨?_, hkeeps, rfl, rfl, fun id hprogress => (Progress.waiting.inj hprogress).le⟩
      constructor
      · intro hprogress
        cases hprogress
      · intro id hprogress
        obtain rfl := Progress.waiting.inj hprogress
        refine ⟨SyncState.new_task sync.node peer, call.asked + k, ?_, ?_, rfl, ?_⟩
        · simp [SyncState.step, hpending]
        · simp [SyncState.new_task, hstart]
        · rw [hk]
          simp [SyncState.new_task, hstart]

/-! ## Tasks, calls and sessions belong together -/

namespace EventLoop

/-- Every call stands right with its session, no two calls wait for one session,
and a task waits in a call exactly when the call is its handler's and waits. -/
structure Consistent (s : EventLoop) : Prop where
  calls : ∀ call ∈ s.calls, call.Stands s.sync
  apart : ∀ (i j : ℕ) (call call' : SyncCall) (id : ℕ), s.calls[i]? = some call →
    s.calls[j]? = some call' → call.progress = .waiting id → call'.progress = .waiting id → i = j
  standing : ∀ (peer : Str) (i : ℕ), s.listen peer = some (.syncing i) ↔
    ∃ (call : SyncCall) (id : ℕ), s.calls[i]? = some call ∧ call.owner = some peer ∧
      call.progress = .waiting id

variable {s : EventLoop}

/-- Steps that leave the calls alone. -/
theorem Consistent.congr (h : s.Consistent) {s' : EventLoop} (hcalls : s'.calls = s.calls)
    (hkeeps : s.sync.Keeps s'.sync fun _ => True)
    (hlisten : ∀ peer i, s'.listen peer = some (.syncing i) ↔ s.listen peer = some (.syncing i)) :
    s'.Consistent where
  calls := by
    rw [hcalls]
    intro call hcall
    exact (h.calls call hcall).keeps hkeeps fun _ _ => trivial
  apart := by
    rw [hcalls]
    exact h.apart
  standing peer i := by
    rw [hcalls, hlisten, h.standing]

/-- A task that does not wait in a call comes to stand elsewhere. -/
theorem Consistent.stand (h : s.Consistent) {peer : Str} {l : Listening}
    (hbefore : ∀ i, s.listen peer ≠ some (.syncing i)) (hafter : ∀ i, l ≠ .syncing i) :
    (s.stand peer l).Consistent := by
  refine h.congr rfl (.refl _ _) ?_
  intro other i
  by_cases hpeer : other = peer
  · subst hpeer
    rw [stand_listen_self, Option.some.injEq]
    exact iff_of_false (hafter i) (hbefore i)
  · rw [stand_listen_of_ne hpeer]

omit [Runtime] [Rsa] in
theorem listening_eq_syncing {i j : ℕ} {progress : Progress} :
    progress.listening i = .syncing j ↔ i = j ∧ ∃ id, progress = .waiting id := by
  cases progress with
  | waiting id => simp [Progress.listening]
  | returned => simp [Progress.listening]
  | raised author e => simp [Progress.listening]

/-- A call is put at a place where its session is its own, by a task that waits in
no other call. -/
theorem Consistent.put (h : s.Consistent) {sync : SyncState} {calls : List SyncCall} {i : ℕ}
    {call : SyncCall} (hcall : calls[i]? = some call) (hstands : call.Stands sync)
    (hothers : ∀ j : ℕ, j ≠ i → calls[j]? = s.calls[j]?)
    (hkeeps : ∀ (j : ℕ) (other : SyncCall), j ≠ i → s.calls[j]? = some other → other.Stands sync)
    (hnew : ∀ (j : ℕ) (other : SyncCall) (id : ℕ), j ≠ i → s.calls[j]? = some other →
      other.progress = .waiting id → call.progress ≠ .waiting id)
    (howner : ∀ peer, call.owner = some peer → ∀ j, s.listen peer = some (.syncing j) → j = i)
    (hplace : ∀ (old : SyncCall) (id : ℕ), s.calls[i]? = some old → old.progress = .waiting id →
      old.owner = call.owner) :
    (({ s with sync := sync, calls := calls } : EventLoop).settle i call).Consistent where
  calls := by
    simp only [settle_sync, settle_calls]
    intro other hother
    obtain ⟨j, hj⟩ := List.mem_iff_getElem?.mp hother
    by_cases hji : j = i
    · subst hji
      rw [hcall, Option.some.injEq] at hj
      rw [← hj]
      exact hstands
    · rw [hothers j hji] at hj
      exact hkeeps j other hji hj
  apart := by
    simp only [settle_calls]
    intro j k a b id hj hk ha hb
    by_cases hji : j = i
    · by_cases hki : k = i
      · exact hji.trans hki.symm
      · subst hji
        rw [hcall, Option.some.injEq] at hj
        subst hj
        rw [hothers k hki] at hk
        exact absurd ha (hnew k b id hki hk hb)
    · rw [hothers j hji] at hj
      by_cases hki : k = i
      · subst hki
        rw [hcall, Option.some.injEq] at hk
        subst hk
        exact absurd hb (hnew j a id hji hj ha)
      · rw [hothers k hki] at hk
        exact h.apart j k a b id hj hk ha hb
  standing peer j := by
    simp only [settle_calls]
    -- the place `i` holds the call, every other place what it held
    have hat : ∀ peer', (∃ (a : SyncCall) (id : ℕ), calls[j]? = some a ∧ a.owner = some peer' ∧
        a.progress = .waiting id) ↔ (j = i ∧ call.owner = some peer' ∧
          ∃ id, call.progress = .waiting id) ∨ (j ≠ i ∧ s.listen peer' = some (.syncing j)) := by
      intro peer'
      by_cases hji : j = i
      · subst hji
        simp [hcall]
      · rw [hothers j hji, ← h.standing]
        simp [hji]
    rw [hat]
    unfold settle
    rcases hown : call.owner with _ | own
    · simp only [reduceCtorEq, false_and, and_false, false_or]
      constructor
      · intro hl
        refine ⟨?_, hl⟩
        rintro rfl
        obtain ⟨old, id, hold, hpeer, hwaits⟩ := (h.standing peer j).mp hl
        rw [hplace old id hold hwaits, hown] at hpeer
        cases hpeer
      · rintro ⟨-, hl⟩
        exact hl
    · by_cases hpeer : peer = own
      · subst hpeer
        simp only [stand_listen_self, Option.some.injEq, listening_eq_syncing, true_and]
        constructor
        · rintro ⟨rfl, hwaits⟩
          exact Or.inl ⟨rfl, hwaits⟩
        · rintro (⟨rfl, hwaits⟩ | ⟨hji, hl⟩)
          · exact ⟨rfl, hwaits⟩
          · exact absurd (howner peer hown j hl) hji
      · rw [stand_listen_of_ne hpeer]
        have hne : ¬ some own = some peer := fun heq => hpeer (Option.some.inj heq).symm
        simp only [hne, false_and, and_false, false_or]
        constructor
        · intro hl
          refine ⟨?_, hl⟩
          rintro rfl
          obtain ⟨old, id, hold, hold_peer, hwaits⟩ := (h.standing peer j).mp hl
          rw [hplace old id hold hwaits, hown, Option.some.injEq] at hold_peer
          exact hpeer hold_peer.symm
        · rintro ⟨-, hl⟩
          exact hl

theorem Consistent.begin_call (h : s.Consistent) {owner : Option Str} (peers : List Str)
    (hfree : ∀ peer, owner = some peer → ∀ i, s.listen peer ≠ some (.syncing i)) :
    (s.begin_call owner peers).Consistent := by
  obtain ⟨hstands, hkeeps, -, -, hnew⟩ :=
    @SyncCall.ask_stands _ _ ⟨owner, peers, 0, .returned⟩ s.sync (Nat.zero_le _)
  unfold EventLoop.begin_call
  refine h.put (by simp) hstands ?_ ?_ ?_ ?_ ?_
  · intro j hj
    rcases Nat.lt_or_ge j s.calls.length with hlt | hge
    · rw [List.getElem?_append_left hlt]
    · rw [List.getElem?_eq_none hge, List.getElem?_eq_none]
      rw [List.length_append, List.length_singleton]
      omega
  · intro j other _ hother
    exact (h.calls other (List.mem_of_getElem? hother)).keeps hkeeps fun _ _ => trivial
  · intro j other id _ hother hwaits hprogress
    obtain ⟨task, -, htask, -⟩ := (h.calls other (List.mem_of_getElem? hother)).waits id hwaits
    obtain ⟨hlt, -⟩ := List.getElem?_eq_some_iff.mp htask
    exact absurd (hnew id hprogress) (Nat.not_le.mpr hlt)
  · intro peer hpeer j hl
    exact absurd hl (hfree peer hpeer j)
  · intro old id hold
    rw [List.getElem?_eq_none le_rfl] at hold
    cases hold

/-- A waiting call comes to stand elsewhere, with a session of its own if it waits
again. -/
theorem Consistent.continue_call (h : s.Consistent) {i id : ℕ} {call : SyncCall}
    (hcall : s.calls[i]? = some call) (hwaits : call.progress = .waiting id) {sync : SyncState}
    (hkeeps : s.sync.Keeps sync (· ≠ id)) {next : SyncState × SyncCall}
    (hstands : next.2.Stands next.1) (hnext : sync.Keeps next.1 fun _ => True)
    (howner : next.2.owner = call.owner)
    (hnew : ∀ id, next.2.progress = .waiting id → sync.tasks.length ≤ id) :
    (s.continue_call i next).Consistent := by
  obtain ⟨hlt, -⟩ := List.getElem?_eq_some_iff.mp hcall
  have hother_id : ∀ (j : ℕ) (other : SyncCall) (id' : ℕ), j ≠ i → s.calls[j]? = some other →
      other.progress = .waiting id' → id' ≠ id := by
    rintro j other id' hji hother hprogress rfl
    exact hji (h.apart j i other call id' hother hcall hprogress hwaits)
  have hothers : ∀ (j : ℕ) (other : SyncCall), j ≠ i → s.calls[j]? = some other →
      other.Stands sync := by
    intro j other hji hother
    exact (h.calls other (List.mem_of_getElem? hother)).keeps hkeeps (hother_id j other · hji hother)
  unfold EventLoop.continue_call
  refine h.put (by simp [hlt]) hstands ?_ ?_ ?_ ?_ ?_
  · intro j hj
    rw [List.getElem?_set_ne (Ne.symm hj)]
  · intro j other hji hother
    exact (hothers j other hji hother).keeps hnext fun _ _ => trivial
  · intro j other id' hji hother hprogress hnext_waits
    obtain ⟨task, -, htask, -⟩ := (hothers j other hji hother).waits id' hprogress
    obtain ⟨hlt, -⟩ := List.getElem?_eq_some_iff.mp htask
    exact absurd (hnew id' hnext_waits) (Nat.not_le.mpr hlt)
  · intro peer hpeer j hl
    rw [howner] at hpeer
    rw [(h.standing peer i).mpr ⟨call, id, hcall, hpeer, hwaits⟩, Option.some.injEq] at hl
    exact (Listening.syncing.inj hl).symm
  · intro old id' hold _
    rw [hcall, Option.some.injEq] at hold
    rw [← hold, howner]

/-! ## One step -/

/-- What a waiting call waits for. -/
theorem wait_of_eq_some {i id : ℕ} {call : SyncCall} {task : SyncTask} :
    s.wait_of i = some (call, id, task) ↔
      s.calls[i]? = some call ∧ call.progress = .waiting id ∧ s.sync.tasks[id]? = some task := by
  unfold wait_of
  rcases hcall : s.calls[i]? with _ | c
  · simp
  · rcases hprogress : c.progress with id' | _ | ⟨author, e⟩
    · simp only [Option.bind_eq_bind, Option.bind_some, hprogress, Option.some.injEq]
      rcases htask : s.sync.tasks[id']? with _ | t
      · constructor
        · intro hnone
          cases hnone
        · rintro ⟨rfl, hwaits, htask'⟩
          rw [hprogress] at hwaits
          obtain rfl := Progress.waiting.inj hwaits
          rw [htask] at htask'
          cases htask'
      · simp only [Option.bind_some, Option.pure_def, Option.some.injEq, Prod.mk.injEq]
        constructor
        · rintro ⟨rfl, rfl, rfl⟩
          exact ⟨rfl, hprogress, htask⟩
        · rintro ⟨rfl, hwaits, htask'⟩
          rw [hprogress] at hwaits
          obtain rfl := Progress.waiting.inj hwaits
          rw [htask, Option.some.injEq] at htask'
          exact ⟨rfl, rfl, htask'⟩
    · constructor
      · simp [hprogress]
      · rintro ⟨hc, hwaits, -⟩
        obtain rfl := Option.some.inj hc
        rw [hprogress] at hwaits
        cases hwaits
    · constructor
      · simp [hprogress]
      · rintro ⟨hc, hwaits, -⟩
        obtain rfl := Option.some.inj hc
        rw [hprogress] at hwaits
        cases hwaits

/-- A handler begins where its task reads. -/
theorem not_syncing_of_reading {peer : Str} (h : s.listen peer = some .reading) (i : ℕ) :
    s.listen peer ≠ some (.syncing i) := by
  rw [h]
  simp

theorem keeps_other (sync : SyncState) (blockchain : BlockChain) :
    sync.Keeps (sync.step (.other blockchain)) fun _ => True := .refl sync _

theorem keeps_response (sync : SyncState) (peer : Str) (payload : JsonPayload) :
    sync.Keeps (sync.step (.response peer payload)) fun _ => True := by
  intro id task _
  exact sync.keeps_step (.response peer payload) id task ⟨by simp, by simp⟩

theorem Consistent.on_new_block (h : s.Consistent) {peer : Str} {payload : Dict}
    (hreading : s.listen peer = some .reading) : (s.on_new_block peer payload).Consistent := by
  unfold EventLoop.on_new_block
  rcases s.sync.node.new_block payload with ⟨added, node⟩
  have hafter : ({ s with sync := s.sync.step (.other node.blockchain) } : EventLoop).Consistent :=
    h.congr rfl (keeps_other _ _) fun _ _ => Iff.rfl
  rcases added with e | _ | _
  · exact hafter.stand (not_syncing_of_reading hreading) (by simp)
  · refine hafter.begin_call _ ?_
    intro peer' hpeer i
    obtain rfl := Option.some.inj hpeer
    exact not_syncing_of_reading hreading i
  · exact hafter

theorem Consistent.on_chain_response (h : s.Consistent) {peer : Str} {payload : JsonPayload}
    (hreading : s.listen peer = some .reading) :
    (s.on_chain_response peer payload).Consistent := by
  unfold EventLoop.on_chain_response
  have hafter : ({ s with sync := s.sync.step (.response peer payload) } : EventLoop).Consistent :=
    h.congr rfl (keeps_response _ _ _) fun _ _ => Iff.rfl
  rcases s.sync.response_result peer payload.val with e | _
  · exact hafter.stand (not_syncing_of_reading hreading) (by simp)
  · exact hafter.stand (not_syncing_of_reading hreading) (by simp)

theorem Consistent.on_hello [Stringify] (h : s.Consistent) {peer : Str} {now : ℚ} {payload : Dict}
    (hreading : s.listen peer = some .reading) : (s.on_hello peer now payload).Consistent := by
  have hstand : ∀ l : Listening, (∀ i, l ≠ .syncing i) → (s.stand peer l).Consistent :=
    fun l hl => h.stand (not_syncing_of_reading hreading) hl
  unfold EventLoop.on_hello
  split
  · split
    · split
      · exact hstand _ (by simp)
      · exact hstand _ (by simp)
    · exact h
    · exact hstand _ (by simp)
  · exact h

theorem Consistent.compare_heights (h : s.Consistent) {peer : Str} {payload : Dict}
    (hgreeting : s.listen peer = some (.greeting payload)) :
    (s.compare_heights peer payload).Consistent := by
  have hbefore : ∀ i, s.listen peer ≠ some (.syncing i) := by
    rw [hgreeting]
    simp
  unfold EventLoop.compare_heights
  split
  · exact h.stand hbefore (by simp)
  · split
    · refine h.begin_call _ ?_
      intro peer' hpeer
      obtain rfl := Option.some.inj hpeer
      exact hbefore
    · exact h.stand hbefore (by simp)

theorem Consistent.handle [Stringify] (h : s.Consistent) {peer : Str} {now : ℚ} {frame : Message}
    (hreading : s.listen peer = some .reading) : (s.handle peer now frame).Consistent := by
  have hsending := h.stand (not_syncing_of_reading hreading) (l := .sending) (by simp)
  unfold EventLoop.handle
  cases frame.msg_type with
  | hello => exact h.on_hello hreading
  | new_block => exact h.on_new_block hreading
  | chain_response => exact h.on_chain_response hreading
  | peers => exact hsending
  | get_chain => exact hsending
  | ping => exact hsending
  | pong => exact h

/-- The call of a session that has ended stands right again, whatever fork
resolution says. -/
theorem goes_on_stands {call : SyncCall} (sync : SyncState) (author : Str) (result : PyM Unit)
    (hasked : call.asked ≤ call.peers.length) :
    (call.goes_on sync author result).2.Stands (call.goes_on sync author result).1 ∧
      sync.Keeps (call.goes_on sync author result).1 (fun _ => True) ∧
      (call.goes_on sync author result).2.owner = call.owner ∧
      ∀ id, (call.goes_on sync author result).2.progress = .waiting id →
        sync.tasks.length ≤ id := by
  unfold SyncCall.goes_on
  cases result with
  | ok _ =>
      obtain ⟨hstands, hkeeps, howner, -, hnew⟩ := SyncCall.ask_stands sync hasked
      exact ⟨hstands, hkeeps, howner, hnew⟩
  | error e =>
      refine ⟨.of_raised sync rfl, .refl sync _, rfl, ?_⟩
      intro id hprogress
      cases hprogress

theorem Consistent.step [Stringify] (h : s.Consistent) (event : LoopEvent) :
    (s.step event).Consistent := by
  cases event with
  | listens peer =>
      simp only [EventLoop.step]
      split
      · rename_i hnone
        refine h.stand ?_ (by simp)
        rw [hnone]
        simp
      · exact h
  | registers peer =>
      simp only [EventLoop.step]
      split
      · exact h
      · exact h.congr rfl (.refl _ _) fun _ _ => Iff.rfl
  | unregisters peer => exact h.congr rfl (.refl _ _) fun _ _ => Iff.rfl
  | arrives peer frame => exact h.congr rfl (.refl _ _) fun _ _ => Iff.rfl
  | reads peer now =>
      simp only [EventLoop.step]
      split
      · rename_i frame rest hreading hinbox
        have hread : ({ s with inbox := Function.update s.inbox peer rest } : EventLoop).Consistent :=
          h.congr rfl (.refl _ _) fun _ _ => Iff.rfl
        exact hread.handle hreading
      · exact h
  | resumes peer =>
      simp only [EventLoop.step]
      split
      · rename_i hsending
        refine h.stand ?_ (by simp)
        rw [hsending]
        simp
      · rename_i payload hgreeting
        exact h.compare_heights hgreeting
      · exact h
  | wakes i =>
      simp only [EventLoop.step]
      split
      · rename_i call id task hwait
        obtain ⟨hcall, hwaits, -⟩ := wait_of_eq_some.mp hwait
        have hstands := h.calls call (List.mem_of_getElem? hcall)
        split
        · obtain ⟨hnext, hkeeps, howner, hnew⟩ := goes_on_stands (s.sync.step (.wake id)) task.peer
            (s.sync.node.finish_session task.session).1 (hstands.asked_le hwaits)
          refine h.continue_call hcall hwaits ?_ hnext hkeeps howner hnew
          intro id' other hne
          exact s.sync.keeps_step (.wake id) id' other ⟨by simpa using Ne.symm hne, by simp⟩
        · exact h
      · exact h
  | times_out i =>
      simp only [EventLoop.step]
      split
      · rename_i call id task hwait
        obtain ⟨hcall, hwaits, -⟩ := wait_of_eq_some.mp hwait
        have hstands := h.calls call (List.mem_of_getElem? hcall)
        obtain ⟨hnext, hkeeps, howner, -, hnew⟩ := SyncCall.ask_stands (s.sync.step (.timeout id))
          (hstands.asked_le hwaits)
        refine h.continue_call hcall hwaits ?_ hnext hkeeps howner hnew
        intro id' other hne
        exact s.sync.keeps_step (.timeout id) id' other ⟨by simp, by simpa using Ne.symm hne⟩
      · exact h
  | leaves peer =>
      simp only [EventLoop.step]
      split
      · rename_i hreading
        exact h.stand (not_syncing_of_reading hreading) (by simp)
      · exact h
  | syncs =>
      simp only [EventLoop.step]
      refine h.begin_call _ ?_
      intro peer hpeer
      cases hpeer
  | produces input => exact h.congr rfl (keeps_other _ _) fun _ _ => Iff.rfl

theorem Consistent.initial (settings : GateSettings) (node : Node) :
    (initial settings node).Consistent where
  calls call hcall := by
    simp [EventLoop.initial] at hcall
  apart i j call call' id hi := by
    simp [EventLoop.initial] at hi
  standing peer i := by
    simp [EventLoop.initial]

end EventLoop

end Steps

end EasyBlockchain
