/-
How long a handler waits in `sync_chain`.

A call asks its peers one after the other and waits for one session at a time.
Whatever the other tasks do, only the end of that session resumes it, and each
time it is resumed it has come past at least one more of its peers. A session
that nobody answers ends by its timeout, so a call is over after as many
timeouts as it has peers, and the task of its handler reads again or has ended.
-/
import EasyBlockchain.SelfBlocking

set_option autoImplicit false

namespace EasyBlockchain

open Py Lib

section Waiting

variable [Runtime] [Rsa]

/-- `asyncio.wait_for` raises in the call `i`. -/
def LoopEvent.timesOut (i : ℕ) : LoopEvent → Bool
  | .times_out j => i = j
  | _ => false

/-- What one step does to a call: it waits only if it waited before, and then it
asked no fewer peers, and more where `resumed` holds. -/
structure SyncCall.GoesOn (call call' : SyncCall) (resumed : Bool) : Prop where
  owner : call'.owner = call.owner
  peers : call'.peers = call.peers
  waits : ∀ id, call'.progress = .waiting id →
    (∃ id, call.progress = .waiting id) ∧ call.asked + resumed.toNat ≤ call'.asked

omit [Runtime] [Rsa] in
/-- A call that stays as it is was not resumed, or does not wait. -/
theorem SyncCall.goesOn_self {call : SyncCall} {resumed : Bool}
    (h : resumed = true → ∀ id, call.progress ≠ .waiting id) : call.GoesOn call resumed where
  owner := rfl
  peers := rfl
  waits id hwaits := by
    refine ⟨⟨id, hwaits⟩, ?_⟩
    cases resumed with
    | true => exact absurd hwaits (h rfl id)
    | false => exact le_refl _

/-- A call that asks again comes past one more peer before it waits again. -/
theorem SyncCall.ask_goesOn {call : SyncCall} {id : ℕ} (hwaits : call.progress = .waiting id)
    (sync : SyncState) (resumed : Bool) : call.GoesOn (call.ask sync).2 resumed := by
  unfold SyncCall.ask
  rcases EventLoop.request_next_cases sync (call.peers.drop call.asked) with
    hall | ⟨k, peer, -, -, -, hnext⟩
  · rw [hall]
    refine ⟨rfl, rfl, ?_⟩
    intro id' hprogress
    cases hprogress
  · rw [hnext]
    refine ⟨rfl, rfl, fun id' _ => ⟨⟨id, hwaits⟩, ?_⟩⟩
    have hone : resumed.toNat ≤ 1 := Bool.toNat_le resumed
    show call.asked + resumed.toNat ≤ call.asked + (k + 1)
    omega

theorem SyncCall.goes_on_goesOn {call : SyncCall} {id : ℕ} (hwaits : call.progress = .waiting id)
    (sync : SyncState) (author : Str) (result : PyM Unit) (resumed : Bool) :
    call.GoesOn (call.goes_on sync author result).2 resumed := by
  unfold SyncCall.goes_on
  cases result with
  | ok _ => exact SyncCall.ask_goesOn hwaits sync resumed
  | error e =>
      refine ⟨rfl, rfl, ?_⟩
      intro id' hprogress
      cases hprogress

namespace EventLoop

variable {s : EventLoop}

/-! ## One step -/

/-- The calls after a step: one more at the end, another one in a place, or the
same. -/
theorem begin_call_calls (s : EventLoop) (owner : Option Str) (peers : List Str) :
    ∃ call, (s.begin_call owner peers).calls = s.calls ++ [call] := by
  unfold begin_call
  exact ⟨_, settle_calls _ _⟩

theorem continue_call_calls (s : EventLoop) (i : ℕ) (next : SyncState × SyncCall) :
    (s.continue_call i next).calls = s.calls.set i next.2 := by
  unfold continue_call
  exact settle_calls _ _

/-- A handler makes at most one call, and resumes none. -/
theorem handle_calls [Stringify] (s : EventLoop) (peer : Str) (now : ℚ) (frame : Message) :
    (s.handle peer now frame).calls = s.calls ∨
      ∃ call, (s.handle peer now frame).calls = s.calls ++ [call] := by
  unfold handle
  cases frame.msg_type with
  | hello =>
      left
      simp only [on_hello]
      split
      · split
        · split
          · rfl
          · rfl
        · rfl
        · rfl
      · rfl
  | new_block =>
      simp only [on_new_block]
      split
      · exact Or.inl rfl
      · exact Or.inl rfl
      · exact Or.inr (begin_call_calls _ _ _)
  | chain_response =>
      left
      simp only [on_chain_response]
      split
      · rfl
      · rfl
  | peers => exact Or.inl rfl
  | get_chain => exact Or.inl rfl
  | ping => exact Or.inl rfl
  | pong => exact Or.inl rfl

theorem compare_heights_calls (s : EventLoop) (peer : Str) (payload : Dict) :
    (s.compare_heights peer payload).calls = s.calls ∨
      ∃ call, (s.compare_heights peer payload).calls = s.calls ++ [call] := by
  unfold compare_heights
  split
  · exact Or.inl rfl
  · split
    · exact Or.inr (begin_call_calls _ _ _)
    · exact Or.inl rfl

/-- What a step does to the call `i`. -/
theorem Consistent.goesOn_step [Stringify] (h : s.Consistent) (event : LoopEvent) {i : ℕ}
    {call : SyncCall} (hcall : s.calls[i]? = some call) :
    ∃ call', (s.step event).calls[i]? = some call' ∧ call.GoesOn call' (event.timesOut i) := by
  -- steps of the others leave the call where it is
  have hsame : ∀ {s' : EventLoop} {resumed : Bool}, resumed = false →
      (s'.calls = s.calls ∨ ∃ other, s'.calls = s.calls ++ [other]) →
      ∃ call', s'.calls[i]? = some call' ∧ call.GoesOn call' resumed := by
    intro s' resumed hresumed hcalls
    refine ⟨call, ?_, SyncCall.goesOn_self ?_⟩
    · rcases hcalls with heq | ⟨other, heq⟩
      · rw [heq, hcall]
      · obtain ⟨hlt, -⟩ := List.getElem?_eq_some_iff.mp hcall
        rw [heq, List.getElem?_append_left hlt, hcall]
    · rw [hresumed]
      exact fun hfalse => by cases hfalse
  cases event with
  | listens peer =>
      simp only [EventLoop.step]
      split
      · exact hsame rfl (Or.inl rfl)
      · exact hsame rfl (Or.inl rfl)
  | registers peer =>
      simp only [EventLoop.step]
      split
      · exact hsame rfl (Or.inl rfl)
      · exact hsame rfl (Or.inl rfl)
  | unregisters peer => exact hsame rfl (Or.inl rfl)
  | arrives peer frame => exact hsame rfl (Or.inl rfl)
  | reads peer now =>
      simp only [EventLoop.step]
      split
      · exact hsame rfl (handle_calls _ _ _ _)
      · exact hsame rfl (Or.inl rfl)
  | resumes peer =>
      simp only [EventLoop.step]
      split
      · exact hsame rfl (Or.inl rfl)
      · exact hsame rfl (compare_heights_calls _ _ _)
      · exact hsame rfl (Or.inl rfl)
  | wakes j =>
      simp only [EventLoop.step]
      split
      · rename_i woken id task hwait
        obtain ⟨hwoken, hwaits, -⟩ := wait_of_eq_some.mp hwait
        split
        · rw [continue_call_calls]
          by_cases hij : j = i
          · subst hij
            obtain rfl := Option.some.inj (hcall.symm.trans hwoken)
            obtain ⟨hlt, -⟩ := List.getElem?_eq_some_iff.mp hcall
            exact ⟨_, List.getElem?_set_self hlt, SyncCall.goes_on_goesOn hwaits _ _ _ _⟩
          · refine ⟨call, ?_, SyncCall.goesOn_self fun hresumed => by cases hresumed⟩
            rw [List.getElem?_set_ne hij, hcall]
        · exact hsame rfl (Or.inl rfl)
      · exact hsame rfl (Or.inl rfl)
  | times_out j =>
      simp only [EventLoop.step]
      by_cases hij : i = j
      · subst hij
        split
        · rename_i woken id task hwait
          obtain ⟨hwoken, hwaits, -⟩ := wait_of_eq_some.mp hwait
          obtain rfl := Option.some.inj (hcall.symm.trans hwoken)
          obtain ⟨hlt, -⟩ := List.getElem?_eq_some_iff.mp hcall
          rw [continue_call_calls]
          exact ⟨_, List.getElem?_set_self hlt, SyncCall.ask_goesOn hwaits _ _⟩
        · -- a call that waits has its session, so its timeout is not lost
          rename_i hnone
          refine ⟨call, hcall, SyncCall.goesOn_self ?_⟩
          intro _ id hwaits
          obtain ⟨task, k, htask, -⟩ := (h.calls call (List.mem_of_getElem? hcall)).waits id hwaits
          rw [wait_of_eq_some.mpr ⟨hcall, hwaits, htask⟩] at hnone
          cases hnone
      · have hnot : LoopEvent.timesOut i (.times_out j) = false := decide_eq_false hij
        rw [hnot]
        split
        · rw [continue_call_calls]
          refine ⟨call, ?_, SyncCall.goesOn_self fun hresumed => by cases hresumed⟩
          rw [List.getElem?_set_ne (Ne.symm hij), hcall]
        · exact hsame rfl (Or.inl rfl)
  | leaves peer =>
      simp only [EventLoop.step]
      split
      · exact hsame rfl (Or.inl rfl)
      · exact hsame rfl (Or.inl rfl)
  | syncs => exact hsame rfl (Or.inr (begin_call_calls _ _ _))
  | produces input => exact hsame rfl (Or.inl rfl)

/-! ## Runs -/

/-- Along a run: a call that still waits was asked on by each of its timeouts. -/
theorem Consistent.goesOn_run [Stringify] (h : s.Consistent) (events : List LoopEvent) {i : ℕ}
    {call : SyncCall} (hcall : s.calls[i]? = some call) :
    (run EventLoop.step s events).Consistent ∧
      ∃ call', (run EventLoop.step s events).calls[i]? = some call' ∧ call'.owner = call.owner ∧
        call'.peers = call.peers ∧ ∀ id, call'.progress = .waiting id →
          (∃ id, call.progress = .waiting id) ∧
            call.asked + events.countP (LoopEvent.timesOut i) ≤ call'.asked := by
  induction events generalizing s call with
  | nil => exact ⟨h, call, hcall, rfl, rfl, fun id hwaits => ⟨⟨id, hwaits⟩, le_refl _⟩⟩
  | cons event events ih =>
      obtain ⟨next, hnext, howner, hpeers, hwaits⟩ := h.goesOn_step event hcall
      obtain ⟨hconsistent, last, hlast, howner', hpeers', hwaits'⟩ := ih (h.step event) hnext
      refine ⟨hconsistent, last, hlast, howner'.trans howner, hpeers'.trans hpeers, ?_⟩
      intro id hprogress
      obtain ⟨⟨id', hid'⟩, hasked'⟩ := hwaits' id hprogress
      obtain ⟨hbefore, hasked⟩ := hwaits id' hid'
      refine ⟨hbefore, ?_⟩
      rw [List.countP_cons]
      cases htimes : event.timesOut i with
      | true =>
          rw [htimes, Bool.toNat_true] at hasked
          simp only [if_true]
          omega
      | false =>
          rw [htimes, Bool.toNat_false] at hasked
          simp only [Bool.false_eq_true, if_false]
          omega

/-- A handler that waits for sessions is released. In every reachable state of a
node a task that waits in a call can be resumed by the timeout of the session the
call waits for; and however the run goes on, with as many timeouts of the call as
it has peers, the task no longer waits in it. -/
theorem waiting_released [Stringify] (settings : GateSettings) (node : Node)
    (before after : List LoopEvent) (peer : Str) (i : ℕ)
    (hwaits : (run EventLoop.step (EventLoop.initial settings node) before).listen peer
      = some (.syncing i)) :
    ∃ call, (run EventLoop.step (EventLoop.initial settings node) before).calls[i]? = some call ∧
      call.owner = some peer ∧
      (∃ id task, (run EventLoop.step (EventLoop.initial settings node) before).wait_of i
        = some (call, id, task) ∧ task.waiting = true ∧ task.peer ∈ call.peers) ∧
      (call.peers.length ≤ after.countP (LoopEvent.timesOut i) →
        (run EventLoop.step (EventLoop.initial settings node) (before ++ after)).listen peer
          ≠ some (.syncing i)) := by
  have hreachable : (run EventLoop.step (EventLoop.initial settings node) before).Consistent :=
    @run_invariant _ _ (fun _ _ => True) EventLoop.step EventLoop.Consistent
      (fun _ event hs _ => hs.step event) _ (.initial settings node) _
      (alwaysMeets_true EventLoop.step _ before)
  obtain ⟨call, id, hcall, howner, hprogress⟩ := (hreachable.standing peer i).mp hwaits
  obtain ⟨task, k, htask, hwaiting, hasked, hpeer⟩ :=
    (hreachable.calls call (List.mem_of_getElem? hcall)).waits id hprogress
  refine ⟨call, hcall, howner, ?_, ?_⟩
  · exact ⟨id, task, wait_of_eq_some.mpr ⟨hcall, hprogress, htask⟩, hwaiting,
      List.mem_of_getElem? hpeer⟩
  · intro htimeouts hstill
    rw [run_append] at hstill
    obtain ⟨hconsistent, last, hlast, -, hpeers, hlast_waits⟩ :=
      hreachable.goesOn_run after hcall
    obtain ⟨call', id', hcall', -, hprogress'⟩ := (hconsistent.standing peer i).mp hstill
    obtain rfl := Option.some.inj (hlast.symm.trans hcall')
    -- it would have asked more peers than it has
    have hmany := (hlast_waits id' hprogress').2
    have hfew := (hconsistent.calls last (List.mem_of_getElem? hcall')).asked_le hprogress'
    rw [hpeers] at hfew
    omega

end EventLoop

end Waiting

/-! The task that waits for its own answer is released when its session runs out of
time. -/

namespace OwnAnswer

attribute [local instance] cpython letterRsa

local instance : Stringify := ⟨fun _ => []⟩

theorem unread_released :
    (after (unread.take 4)).listen (lit "p") = some (.syncing 0) ∧
      (after unread).listen (lit "p") ≠ some (.syncing 0) := by
  have hsyncing : (after (unread.take 4)).listen (lit "p") = some (.syncing 0) := by
    decide +kernel
  have hcall : (after (unread.take 4)).calls[0]?
      = some ⟨some (lit "p"), [lit "p"], 1, .waiting 0⟩ := by decide +kernel
  obtain ⟨call, hcall', -, -, hreleased⟩ := EventLoop.waiting_released BadAnswer.settings
    BadAnswer.node (unread.take 4) (unread.drop 4) (lit "p") 0 hsyncing
  obtain rfl := Option.some.inj (hcall.symm.trans hcall')
  refine ⟨hsyncing, ?_⟩
  have hrun : after unread = run EventLoop.step (.initial BadAnswer.settings BadAnswer.node)
      (unread.take 4 ++ unread.drop 4) := by
    rw [List.take_append_drop]
    rfl
  rw [hrun]
  exact hreleased (by decide)

end OwnAnswer

end EasyBlockchain
