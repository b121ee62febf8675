/-
A listen task that waits for its own next frame.

The session of a peer is filled by that peer's listen task. Where the handler of a
frame of the peer requests the peer's chain, the task waits for a frame that
nobody else reads, and only the timeout ends the wait. A `HELLO` with a greater
height does that at once; a refused `NEW_BLOCK` does it as soon as the loop of
`sync_chain` comes to the peer that sent it.
-/
import EasyBlockchain.PeerIsolation

set_option autoImplicit false

namespace EasyBlockchain

open Py Lib

/-! ## Which peer is requested next -/

section Requests

variable [Rsa]

/-- Of `peers`, in this order, `peer` is the first one without a session. -/
def SyncState.NextIs (sync : SyncState) (peers : List Str) (peer : Str) : Prop :=
  ∃ k : ℕ, peers[k]? = some peer ∧ sync.pending peer = none ∧
    ∀ p ∈ peers.take k, sync.pending p ≠ none

/-- A call of a handler will not request the peer whose frame is handled next. -/
def SyncCall.Spares (call : SyncCall) (sync : SyncState) : Prop :=
  ∀ peer, call.owner = some peer → ¬ sync.NextIs (call.peers.drop call.asked) peer

/-- A call that waits does not wait for the peer whose frame is handled. -/
def SyncCall.Elsewhere (call : SyncCall) : Prop :=
  ∀ (id k : ℕ) (peer : Str), call.progress = .waiting id → call.asked = k + 1 →
    call.peers[k]? = some peer → call.owner ≠ some peer

theorem nextIs_singleton {sync : SyncState} {peer : Str} :
    sync.NextIs [peer] peer ↔ sync.pending peer = none := by
  constructor
  · rintro ⟨k, -, hpending, -⟩
    exact hpending
  · intro hpending
    exact ⟨0, rfl, hpending, by simp⟩

theorem SyncState.NextIs.pending {sync : SyncState} {peers : List Str} {peer : Str}
    (h : sync.NextIs peers peer) : sync.pending peer = none := by
  obtain ⟨-, -, hpending, -⟩ := h
  exact hpending

variable [Runtime]

theorem SyncState.NextIs.request_next {sync : SyncState} {peers : List Str} {peer : Str}
    {session : ChainSyncSession} (h : sync.NextIs peers peer)
    (hstart : sync.node.start_session = .ok session) :
    ∃ k, sync.request_next peers
      = (sync.step (.request peer), k + 1, .waiting sync.tasks.length) := by
  obtain ⟨k, hk, hpending, hbefore⟩ := h
  induction peers generalizing k with
  | nil => cases hk
  | cons other rest ih =>
      cases k with
      | zero =>
          obtain rfl := Option.some.inj hk
          refine ⟨0, ?_⟩
          rw [SyncState.request_next, hpending, hstart]
      | succ k =>
          rw [List.take_succ_cons, List.forall_mem_cons] at hbefore
          obtain ⟨hother, hbefore⟩ := hbefore
          obtain ⟨id, hid⟩ := Option.ne_none_iff_exists'.mp hother
          obtain ⟨j, hrequest⟩ := ih k hk hbefore
          refine ⟨j + 1, ?_⟩
          rw [SyncState.request_next, hid, hrequest]

theorem SyncCall.ask_elsewhere {call : SyncCall} {sync : SyncState} (hspares : call.Spares sync) :
    (call.ask sync).2.Elsewhere := by
  unfold SyncCall.ask
  intro id k peer hwaits hasked hpeer howner
  rcases EventLoop.request_next_cases sync (call.peers.drop call.asked) with
    hall | ⟨j, next, hj, hpending, hbefore, hnext⟩
  · rw [hall] at hwaits
    cases hwaits
  · rw [hnext] at hasked
    dsimp only at hasked hpeer howner
    refine hspares peer howner ⟨j, ?_, ?_, hbefore⟩
    · rw [List.getElem?_drop, show call.asked + j = k by omega, hpeer]
    · have hat := hj
      rw [List.getElem?_drop, show call.asked + j = k by omega, hpeer, Option.some.injEq] at hat
      rw [hat]
      exact hpending

theorem SyncCall.goes_on_elsewhere {call : SyncCall} {sync : SyncState} {author : Str}
    {result : PyM Unit} (hspares : result = .ok () → call.Spares sync) :
    (call.goes_on sync author result).2.Elsewhere := by
  unfold SyncCall.goes_on
  cases result with
  | ok u => exact SyncCall.ask_elsewhere (hspares rfl)
  | error e =>
      intro id k peer hwaits
      cases hwaits

end Requests

namespace EventLoop

section SelfBlocking

variable [Runtime] [Rsa]

/-! ## What must not happen -/

/-- The task of `peer` waits for a session of `peer`. -/
def SelfBlocked (s : EventLoop) (peer : Str) : Prop :=
  ∃ (i id : ℕ) (call : SyncCall) (task : SyncTask), s.listen peer = some (.syncing i) ∧
    s.wait_of i = some (call, id, task) ∧ task.peer = peer

/-- The call `i` waits for a session, and an answer that the session would take
has arrived and is not read, though its task has not ended. -/
def AnswerUnread (s : EventLoop) (i : ℕ) : Prop :=
  ∃ (id : ℕ) (call : SyncCall) (task : SyncTask), s.wait_of i = some (call, id, task) ∧
    (∃ frame ∈ s.inbox task.peer, frame.msg_type = .chain_response ∧ ∃ session,
      accept_chain_batch s.sync.node.network task.session frame.payload.val = .ok (some session)) ∧
    ∀ ending, s.listen task.peer ≠ some (.ended ending)

/-! ## When it does not -/

/-- The task of `peer` has read what arrived, or has ended, or waits for the very
session that `i` waits for. -/
def CaughtUp (s : EventLoop) (peer : Str) (i : ℕ) : Prop :=
  s.inbox peer = [] ∨ (∃ ending, s.listen peer = some (.ended ending)) ∨
    s.listen peer = some (.syncing i)

/-- Wherever the handler of a frame of some peer requests the next session, that
peer has a session already or another one comes before it. The time of a session
is not over while its peer's task is behind for another reason than the session. -/
def Unblocked (s : EventLoop) : LoopEvent → Prop
  | .reads peer _ => ∀ frame rest, s.listen peer = some .reading → s.inbox peer = frame :: rest →
      frame.msg_type = .new_block → (s.sync.node.new_block frame.payload.val).1 = .ok false →
      ¬ s.sync.NextIs s.peers peer
  | .resumes peer => ∀ payload remote_height, s.listen peer = some (.greeting payload) →
      resolve_chain_height ((Dict.find payload (lit "chain_height")).getD .none)
        = .ok remote_height →
      (s.chain.length : ℤ) < remote_height → s.sync.pending peer ≠ none
  | .wakes i => ∀ call id task, s.wait_of i = some (call, id, task) → task.session.done = true →
      (s.sync.node.finish_session task.session).1 = .ok () →
      call.Spares (s.sync.step (.wake id))
  | .times_out i => ∀ call id task, s.wait_of i = some (call, id, task) →
      call.Spares (s.sync.step (.timeout id)) ∧ s.CaughtUp task.peer i
  | _ => True

/-- No call waits for the peer whose frame is handled. -/
def AllElsewhere (s : EventLoop) : Prop := ∀ call ∈ s.calls, call.Elsewhere

variable {s : EventLoop}

theorem AllElsewhere.congr (h : s.AllElsewhere) {s' : EventLoop} (hcalls : s'.calls = s.calls) :
    s'.AllElsewhere := by
  unfold AllElsewhere
  rw [hcalls]
  exact h

theorem AllElsewhere.begin_call (h : s.AllElsewhere) {owner : Option Str} {peers : List Str}
    (hnext : ∀ peer, owner = some peer → ¬ s.sync.NextIs peers peer) :
    (s.begin_call owner peers).AllElsewhere := by
  unfold EventLoop.begin_call AllElsewhere
  intro call hcall
  simp only [settle_calls, List.mem_append, List.mem_singleton] at hcall
  rcases hcall with hcall | rfl
  · exact h call hcall
  · exact SyncCall.ask_elsewhere hnext

theorem AllElsewhere.continue_call (h : s.AllElsewhere) {i : ℕ} {next : SyncState × SyncCall}
    (hnext : next.2.Elsewhere) : (s.continue_call i next).AllElsewhere := by
  unfold EventLoop.continue_call AllElsewhere
  intro call hcall
  rw [settle_calls] at hcall
  rcases List.mem_or_eq_of_mem_set hcall with hcall | rfl
  · exact h call hcall
  · exact hnext

/-! ## One step -/

theorem AllElsewhere.on_new_block (h : s.AllElsewhere) {peer : Str} {payload : Dict}
    (hnext : (s.sync.node.new_block payload).1 = .ok false → ¬ s.sync.NextIs s.peers peer) :
    (s.on_new_block peer payload).AllElsewhere := by
  unfold EventLoop.on_new_block
  rcases hblock : s.sync.node.new_block payload with ⟨added, node⟩
  have hafter : ({ s with sync := s.sync.step (.other node.blockchain) } : EventLoop).AllElsewhere :=
    h.congr rfl
  rcases added with e | _ | _
  · exact hafter.congr rfl
  · refine hafter.begin_call ?_
    intro other hother
    obtain rfl := Option.some.inj hother
    apply hnext
    rw [hblock]
  · exact hafter

theorem AllElsewhere.compare_heights (h : s.AllElsewhere) {peer : Str} {payload : Dict}
    (hpending : ∀ remote_height,
      resolve_chain_height ((Dict.find payload (lit "chain_height")).getD .none)
        = .ok remote_height → (s.chain.length : ℤ) < remote_height → s.sync.pending peer ≠ none) :
    (s.compare_heights peer payload).AllElsewhere := by
  unfold EventLoop.compare_heights
  split
  · exact h.congr rfl
  · rename_i remote_height hheight
    split
    · rename_i hgreater
      refine h.begin_call ?_
      intro other hother
      obtain rfl := Option.some.inj hother
      rw [nextIs_singleton]
      exact hpending remote_height hheight hgreater
    · exact h.congr rfl

theorem AllElsewhere.on_hello [Stringify] (h : s.AllElsewhere) {peer : Str} {now : ℚ}
    {payload : Dict} : (s.on_hello peer now payload).AllElsewhere := by
  unfold EventLoop.on_hello
  split
  · split
    · split
      · exact h.congr rfl
      · exact h.congr rfl
    · exact h
    · exact h.congr rfl
  · exact h

theorem AllElsewhere.on_chain_response (h : s.AllElsewhere) {peer : Str} {payload : JsonPayload} :
    (s.on_chain_response peer payload).AllElsewhere := by
  unfold EventLoop.on_chain_response
  rcases s.sync.response_result peer payload.val with e | u
  · exact h.congr rfl
  · exact h.congr rfl

theorem AllElsewhere.handle [Stringify] (h : s.AllElsewhere) {peer : Str} {now : ℚ}
    {frame : Message}
    (hnext : frame.msg_type = .new_block → (s.sync.node.new_block frame.payload.val).1 = .ok false →
      ¬ s.sync.NextIs s.peers peer) : (s.handle peer now frame).AllElsewhere := by
  unfold EventLoop.handle
  cases htype : frame.msg_type with
  | hello => exact h.on_hello
  | new_block => exact h.on_new_block (hnext htype)
  | chain_response => exact h.on_chain_response
  | peers => exact h.congr rfl
  | get_chain => exact h.congr rfl
  | ping => exact h.congr rfl
  | pong => exact h

theorem AllElsewhere.step [Stringify] (h : s.AllElsewhere) {event : LoopEvent}
    (hmeets : s.Unblocked event) : (s.step event).AllElsewhere := by
  cases event with
  | listens peer =>
      simp only [EventLoop.step]
      split
      · exact h.congr rfl
      · exact h
  | registers peer =>
      simp only [EventLoop.step]
      split
      · exact h
      · exact h.congr rfl
  | unregisters peer => exact h.congr rfl
  | arrives peer frame => exact h.congr rfl
  | reads peer now =>
      simp only [EventLoop.step]
      split
      · rename_i frame rest hreading hinbox
        have hread : ({ s with inbox := Function.update s.inbox peer rest } : EventLoop).AllElsewhere :=
          h.congr rfl
        exact hread.handle (hmeets frame rest hreading hinbox)
      · exact h
  | resumes peer =>
      simp only [EventLoop.step]
      split
      · exact h.congr rfl
      · rename_i payload hgreeting
        exact h.compare_heights fun remote_height => hmeets payload remote_height hgreeting
      · exact h
  | wakes i =>
      simp only [EventLoop.step]
      split
      · rename_i call id task hwait
        split
        · rename_i hdone
          exact h.continue_call (SyncCall.goes_on_elsewhere (hmeets call id task hwait hdone))
        · exact h
      · exact h
  | times_out i =>
      simp only [EventLoop.step]
      split
      · rename_i call id task hwait
        exact h.continue_call (SyncCall.ask_elsewhere (hmeets call id task hwait).1)
      · exact h
  | leaves peer =>
      simp only [EventLoop.step]
      split
      · exact h.congr rfl
      · exact h
  | syncs =>
      refine h.begin_call ?_
      intro peer hpeer
      cases hpeer
  | produces input => exact h.congr rfl

/-! ## Whole runs -/

/-- A task that waits, waits for the last peer that its own call requested. -/
theorem not_selfBlocked (hconsistent : s.Consistent) (h : s.AllElsewhere) (peer : Str) :
    ¬ s.SelfBlocked peer := by
  rintro ⟨i, id, call, task, hsyncing, hwait, hpeer⟩
  obtain ⟨hcall, hwaits, htask⟩ := wait_of_eq_some.mp hwait
  have hmem := List.mem_of_getElem? hcall
  obtain ⟨task', k, htask', -, hasked, hlast⟩ := (hconsistent.calls call hmem).waits id hwaits
  rw [htask, Option.some.injEq] at htask'
  rw [← htask', hpeer] at hlast
  obtain ⟨call', -, hcall', howner, -⟩ := (hconsistent.standing peer i).mp hsyncing
  rw [hcall, Option.some.injEq] at hcall'
  rw [← hcall'] at howner
  exact h call hmem id k peer hwaits hasked hlast howner

/-- The condition is no stronger than it has to be: a handler that comes to its own
peer blocks itself. -/
theorem begin_call_selfBlocked {peer : Str} {peers : List Str} {session : ChainSyncSession}
    (hnext : s.sync.NextIs peers peer) (hstart : s.sync.node.start_session = .ok session) :
    (s.begin_call (some peer) peers).SelfBlocked peer := by
  have hpending := hnext.pending
  obtain ⟨k, hrequest⟩ := hnext.request_next hstart
  refine ⟨s.calls.length, s.sync.tasks.length,
    ⟨some peer, peers, k + 1, .waiting s.sync.tasks.length⟩, SyncState.new_task s.sync.node peer,
    ?_, ?_, ?_⟩
  · simp [EventLoop.begin_call, SyncCall.ask, hrequest, settle, Progress.listening]
  · rw [wait_of_eq_some]
    simp [EventLoop.begin_call, SyncCall.ask, hrequest, SyncState.step, hpending]
  · simp [SyncState.new_task, hstart]

/-- A `HELLO` with a greater height does so, unless the peer has a session. -/
theorem compare_heights_selfBlocked {peer : Str} {payload : Dict} {remote_height : ℤ}
    {session : ChainSyncSession}
    (hheight : resolve_chain_height ((Dict.find payload (lit "chain_height")).getD .none)
      = .ok remote_height)
    (hgreater : (s.chain.length : ℤ) < remote_height) (hpending : s.sync.pending peer = none)
    (hstart : s.sync.node.start_session = .ok session) :
    (s.compare_heights peer payload).SelfBlocked peer := by
  rw [EventLoop.compare_heights, hheight]
  dsimp only
  rw [if_pos hgreater]
  exact begin_call_selfBlocked (nextIs_singleton.mpr hpending) hstart

end SelfBlocking

end EventLoop

namespace OwnAnswer

attribute [local instance] cpython letterRsa

local instance : Stringify := ⟨fun _ => []⟩

/-- A chain that the node would take. -/
def valid : Message :=
  ⟨.chain_response, BadAnswer.answer [TwoBlocks.blockA], 539, by decide +kernel⟩

/-- The peer `p` announces a block that is refused, and sends its chain when it is
asked for it. -/
def unread : List LoopEvent :=
  [.registers (lit "p"), .listens (lit "p"), .arrives (lit "p") BadAnswer.announcement,
    .reads (lit "p") 0, .arrives (lit "p") valid, .times_out 0]

/-- The same where the chain of `p` was requested before the announcement. -/
def requested : List LoopEvent :=
  [.registers (lit "p"), .listens (lit "p"), .syncs, .arrives (lit "p") BadAnswer.announcement,
    .reads (lit "p") 0, .arrives (lit "p") valid, .reads (lit "p") 1]

def after (events : List LoopEvent) : EventLoop :=
  run EventLoop.step (.initial BadAnswer.settings BadAnswer.node) events

theorem valid_taken : ∃ session, accept_chain_batch BadAnswer.node.network
    (SyncState.new_task BadAnswer.node (lit "p")).session valid.payload.val = .ok (some session) := by
  have htaken : (accept_chain_batch BadAnswer.node.network
      (SyncState.new_task BadAnswer.node (lit "p")).session valid.payload.val).toOption.join.isSome
        = true := by decide +kernel
  rcases haccept : accept_chain_batch BadAnswer.node.network
      (SyncState.new_task BadAnswer.node (lit "p")).session valid.payload.val with e | _ | session
  · rw [haccept] at htaken
    cases htaken
  · rw [haccept] at htaken
    cases htaken
  · exact ⟨session, rfl⟩

end OwnAnswer

end EasyBlockchain
