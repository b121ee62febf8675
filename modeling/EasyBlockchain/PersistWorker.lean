/-
`network/node.py`: the debounced writer of a running node, and `stop`.

Every change of the chain sets a flag and makes sure that a worker task is
alive. The worker clears the flag, sleeps, saves, and starts over while the flag
is set. The steps below are the stretches between two points where the event
loop may run something else. A save can have any raises; an exception ends the
worker. `Kept.step` is the argument why no change is forgotten: a worker that
has not ended is going to save, and one that has ended saved after the last
change.
-/
import EasyBlockchain.Restart
import EasyBlockchain.ScheduledChange
import EasyBlockchain.Lib.Run

set_option autoImplicit false

namespace EasyBlockchain

open Py Lib

/-! ## Tasks -/

/-- How a task ended. -/
inductive TaskEnd
  | returned
  | cancelled
  | raised
  deriving DecidableEq

/-- Where a `_persist_worker` is suspended. -/
inductive WorkerPoint
  /-- it has not started -/
  | created
  | sleeping
  | done (result : TaskEnd)
  deriving DecidableEq

/-- A task of `_persist_worker`, and whether it has been told to stop. -/
structure PersistTask where
  point : WorkerPoint
  cancelled : Bool

/-- The negation of `done()`. -/
def PersistTask.live (task : PersistTask) : Bool :=
  match task.point with
  | .done _ => false
  | _ => true

/-- What `stop` is waiting for. -/
inductive StopPoint
  | not_called
  | ping_task
  | reconnect_task
  /-- the discovery and the servers are stopped -/
  | servers
  | persist_task (id : ℕ)
  | finished
  deriving DecidableEq

/-- A node with the tasks that it started. The workers are in the order of their
creation; `persist_task` is `_persist_task`, by position. Of the other tasks only
the ends are told: `some none` is one that runs. -/
structure RunningNode [Rsa] where
  live : LiveNode
  persist_pending : Bool
  persist_tasks : List PersistTask
  persist_task : Option ℕ
  ping_task : Option (Option TaskEnd)
  reconnect_task : Option (Option TaskEnd)
  stop_point : StopPoint
  /-- the loaded state, and every state that was to be saved, in order -/
  held : List PersistedState

/-- What happens to a node between two points where the event loop may run
something else. -/
inductive RunEvent
  | change (change : ChainChange)
  /-- `start` creates the loops, and the second one if reconnecting is enabled -/
  | start_loops (reconnect : Bool)
  | ping_ends (result : TaskEnd)
  | reconnect_ends (result : TaskEnd)
  /-- a worker runs; whether its save raises -/
  | worker (id : ℕ) (raises : Bool)
  /-- `stop` is called or goes on; whether stopping the servers raises -/
  | stop (raises : Bool)

/-- The event runs the worker. -/
def RunEvent.runs (id : ℕ) : RunEvent → Bool
  | .worker other _ => other = id
  | _ => false

namespace RunningNode

variable [Rsa] [PrivateKeys]

/-- After the constructor, which has loaded a state or saved its own. -/
def started (args : NodeArgs) (live : LiveNode) (loaded : Option PersistedState) : RunningNode where
  live := live
  persist_pending := false
  persist_tasks := []
  persist_task := none
  ping_task := none
  reconnect_task := none
  stop_point := .not_called
  held := [loaded.getD (live.build_persisted_state args)]

omit [PrivateKeys] in
def chain (self : RunningNode) : List Block := self.live.node.blockchain.chain

/-- `_persist_state`, whatever comes of it. -/
def persist_state (self : RunningNode) (args : NodeArgs) : RunningNode :=
  { self with held := self.held ++ [self.live.build_persisted_state args] }

/-! ## The worker -/

omit [PrivateKeys] in
/-- Whether the task at a position is there and has not ended. -/
def alive (self : RunningNode) (id : ℕ) : Bool := self.persist_tasks[id]?.any PersistTask.live

omit [PrivateKeys] in
/-- `_schedule_persist`. -/
def schedule_persist (self : RunningNode) : RunningNode :=
  let self := { self with persist_pending := true }
  if self.persist_task.any self.alive then self
  else { self with
    persist_tasks := self.persist_tasks ++ [⟨.created, false⟩]
    persist_task := some self.persist_tasks.length }

omit [PrivateKeys] in
def suspend (self : RunningNode) (id : ℕ) (point : WorkerPoint) : RunningNode :=
  { self with persist_tasks := self.persist_tasks.modify id fun task => { task with point := point } }

omit [PrivateKeys] in
/-- The head of the loop of `_persist_worker`. -/
def worker_loop (self : RunningNode) (id : ℕ) : RunningNode :=
  if self.persist_pending then { self with persist_pending := false }.suspend id .sleeping
  else self.suspend id (.done .returned)

/-- A worker runs until its next `await`. -/
def worker_step (self : RunningNode) (args : NodeArgs) (id : ℕ) (raises : Bool) :
    RunningNode :=
  match self.persist_tasks[id]? with
  | some ⟨.created, cancelled⟩ =>
    if cancelled then self.suspend id (.done .cancelled) else self.worker_loop id
  | some ⟨.sleeping, cancelled⟩ =>
    if cancelled then self.suspend id (.done .cancelled)
    else
      let self := self.persist_state args
      if raises then self.suspend id (.done .raised) else self.worker_loop id
  | _ => self

/-! ## `stop` -/

omit [PrivateKeys] in
def at_point (self : RunningNode) (point : StopPoint) : RunningNode :=
  { self with stop_point := point }

omit [PrivateKeys] in
/-- `await task` where cancellations are caught: goes on with `next` once the
task has ended, or raises what it has raised. -/
def await (self : RunningNode) (result : Option TaskEnd) (point : StopPoint) (next : RunningNode) :
    RunningNode :=
  match result with
  | none => self.at_point point
  | some .raised => self.at_point .finished
  | some _ => next

omit [PrivateKeys] in
/-- The end of a task, if it has ended. -/
def worker_end (self : RunningNode) (id : ℕ) : Option TaskEnd :=
  match self.persist_tasks[id]? with
  | some ⟨.done result, _⟩ => some result
  | _ => none

/-- The last save of `stop`. -/
def final_save (self : RunningNode) (args : NodeArgs) : RunningNode :=
  ({ self with persist_task := none }.persist_state args).at_point .finished

def await_persist (self : RunningNode) (args : NodeArgs) (id : ℕ) : RunningNode :=
  self.await (self.worker_end id) (.persist_task id) (self.final_save args)

/-- `stop`, from where it cancels the worker. -/
def stop_persist (self : RunningNode) (args : NodeArgs) : RunningNode :=
  let self := { self with persist_pending := false }
  match self.persist_task with
  | none => self.final_save args
  | some id =>
    { self with
      persist_tasks := self.persist_tasks.modify id fun task => { task with cancelled := true }
    }.await_persist args id

omit [PrivateKeys] in
/-- `stop`, from where it cancels the reconnect loop. -/
def stop_reconnect (self : RunningNode) : RunningNode :=
  match self.reconnect_task with
  | none => self.at_point .servers
  | some result => self.await result .reconnect_task (self.at_point .servers)

omit [PrivateKeys] in
/-- `stop`, from where it cancels the ping loop. -/
def stop_ping (self : RunningNode) : RunningNode :=
  match self.ping_task with
  | none => self.stop_reconnect
  | some result => self.await result .ping_task self.stop_reconnect

/-- `stop`, from where it stands to where it waits or ends. -/
def stop_step (self : RunningNode) (args : NodeArgs) (raises : Bool) : RunningNode :=
  match self.stop_point with
  | .not_called | .ping_task => self.stop_ping
  | .reconnect_task => self.stop_reconnect
  | .servers => if raises then self.at_point .finished else self.stop_persist args
  | .persist_task id => self.await_persist args id
  | .finished => self

omit [PrivateKeys] in
/-- The node after a change, which may schedule a save. -/
def changed (self : RunningNode) (result : Bool × Node) : RunningNode :=
  let self := { self with live := { self.live with node := result.2 } }
  if result.1 then self.schedule_persist else self

variable [Runtime]

def step (args : NodeArgs) (self : RunningNode) : RunEvent → RunningNode
  | .change change => self.changed (self.live.node.change change)
  | .start_loops reconnect =>
    if self.stop_point = .not_called then
      { self with
        ping_task := some none
        reconnect_task := if reconnect then some none else self.reconnect_task }
    else self
  | .ping_ends result =>
    if self.ping_task = some none then { self with ping_task := some (some result) } else self
  | .reconnect_ends result =>
    if self.reconnect_task = some none then { self with reconnect_task := some (some result) }
    else self
  | .worker id raises => self.worker_step args id raises
  | .stop raises => self.stop_step args raises

/-! ## Steps before `stop` comes to the worker -/

omit [PrivateKeys] [Runtime] in
/-- Whether `stop` has not cancelled the worker yet. -/
def serving (self : RunningNode) : Bool :=
  match self.stop_point with
  | .persist_task _ | .finished => false
  | _ => true

variable {args : NodeArgs} {self : RunningNode}

omit [PrivateKeys] [Runtime] in
theorem stop_reconnect_eq (self : RunningNode) :
    ∃ point, self.stop_reconnect = self.at_point point := by
  unfold stop_reconnect await
  split
  · exact ⟨_, rfl⟩
  · split
    · exact ⟨_, rfl⟩
    · exact ⟨_, rfl⟩
    · exact ⟨_, rfl⟩

omit [PrivateKeys] [Runtime] in
theorem stop_ping_eq (self : RunningNode) :
    ∃ point, self.stop_ping = self.at_point point := by
  unfold stop_ping await
  split
  · exact self.stop_reconnect_eq
  · split
    · exact ⟨_, rfl⟩
    · exact ⟨_, rfl⟩
    · exact self.stop_reconnect_eq

omit [Runtime] in
/-- Once the worker is awaited, the node serves no more. -/
theorem serving_await_persist (self : RunningNode) (args : NodeArgs) (id : ℕ) :
    (self.await_persist args id).serving = false := by
  unfold await_persist await
  split
  · rfl
  · rfl
  · rfl

omit [Runtime] in
theorem serving_stop_persist (self : RunningNode) (args : NodeArgs) :
    (self.stop_persist args).serving = false := by
  unfold stop_persist
  simp only
  split
  · rfl
  · exact serving_await_persist _ args _

omit [Runtime] in
/-- A step of `stop` that does not come to the worker changes only where it stands. -/
theorem stop_step_eq {raises : Bool} (h : (self.stop_step args raises).serving = true) :
    self.serving = true ∧
      ∃ point, self.stop_step args raises = self.at_point point := by
  unfold stop_step at h ⊢
  rcases hpoint : self.stop_point with _ | _ | _ | _ | id | _
  · exact ⟨by rw [serving, hpoint], self.stop_ping_eq⟩
  · exact ⟨by rw [serving, hpoint], self.stop_ping_eq⟩
  · exact ⟨by rw [serving, hpoint], self.stop_reconnect_eq⟩
  · rcases raises with _ | _
    · simp only [hpoint, Bool.false_eq_true, if_false, serving_stop_persist] at h
    · simp only [hpoint] at h
      cases h
  · simp only [hpoint, serving_await_persist] at h
    cases h
  · simp only [hpoint, serving] at h
    cases h

omit [PrivateKeys] [Runtime] in
theorem stop_point_worker_loop (self : RunningNode) (id : ℕ) :
    (self.worker_loop id).stop_point = self.stop_point := by
  unfold worker_loop
  split
  · rfl
  · rfl

/-- Only `stop` itself goes on with it. -/
theorem stop_point_step {event : RunEvent} (h : ∀ raises, event ≠ .stop raises) :
    (step args self event).stop_point = self.stop_point := by
  cases event with
  | change change =>
      rw [step, changed]
      split
      · unfold schedule_persist
        simp only
        split
        · rfl
        · rfl
      · rfl
  | start_loops reconnect =>
      rw [step]
      split
      · rfl
      · rfl
  | ping_ends result =>
      rw [step]
      split
      · rfl
      · rfl
  | reconnect_ends result =>
      rw [step]
      split
      · rfl
      · rfl
  | worker id raises =>
      rw [step]
      unfold worker_step
      split
      · split
        · rfl
        · exact self.stop_point_worker_loop id
      · split
        · rfl
        · rcases raises with _ | _
          · exact (self.persist_state args).stop_point_worker_loop id
          · rfl
      · rfl
  | stop raises => exact absurd rfl (h raises)

/-- A node that serves after a step has served before. -/
theorem serving_of_step {event : RunEvent} (h : (step args self event).serving = true) :
    self.serving = true := by
  by_cases hstop : ∀ raises, event ≠ .stop raises
  · rw [serving, stop_point_step hstop] at h
    exact h
  · obtain ⟨raises, hstop⟩ := not_forall.mp hstop
    obtain rfl := not_not.mp hstop
    exact (stop_step_eq h).1

theorem serving_of_run {events : List RunEvent} (h : (run (step args) self events).serving = true) :
    self.serving = true := by
  induction events generalizing self with
  | nil => exact h
  | cons event events ih => exact serving_of_step (ih h)

/-! ## No change is forgotten -/

omit [PrivateKeys] [Runtime] in
/-- The last state that was to be saved holds the chain. -/
def HoldsChain (self : RunningNode) : Prop :=
  self.held.getLast?.map PersistedState.chain = some self.chain

omit [PrivateKeys] [Runtime] in
/-- What holds until `stop` comes to the worker: only the current worker is
alive, it has not been cancelled and has work to do, and without one the last
save holds the chain. -/
structure Kept (running : RunningNode) : Prop where
  current : ∀ id task, running.persist_tasks[id]? = some task → task.live = true →
    running.persist_task = some id
  uncancelled : ∀ task ∈ running.persist_tasks, task.cancelled = false
  pending : ∀ task ∈ running.persist_tasks, task.point = .created → running.persist_pending = true
  saved : (∃ id, running.alive id = true) ∨ running.HoldsChain

omit [PrivateKeys] [Runtime] in
theorem alive_iff {id : ℕ} : self.alive id = true ↔
    ∃ task, self.persist_tasks[id]? = some task ∧ task.live = true := by
  rw [alive, Option.any_eq_true]

omit [PrivateKeys] [Runtime] in
/-- The worker of a live task is not seen by other changes. -/
theorem Kept.congr (h : self.Kept) {after : RunningNode}
    (htasks : after.persist_tasks = self.persist_tasks)
    (htask : after.persist_task = self.persist_task)
    (hpending : after.persist_pending = self.persist_pending) (hheld : after.held = self.held)
    (hchain : after.chain = self.chain) : after.Kept := by
  obtain ⟨hcurrent, huncancelled, hwork, hsaved⟩ := h
  refine ⟨?_, ?_, ?_, ?_⟩
  · rw [htasks, htask]
    exact hcurrent
  · rw [htasks]
    exact huncancelled
  · rw [htasks, hpending]
    exact hwork
  · simp only [alive, htasks, HoldsChain, hheld, hchain]
    exact hsaved

omit [PrivateKeys] [Runtime] in
/-- `_schedule_persist` leaves a worker with work to do, whatever the chain is. -/
theorem Kept.schedule_persist (h : self.Kept) (live : LiveNode) :
    ({ self with live := live }.schedule_persist).Kept := by
  unfold RunningNode.schedule_persist
  simp only
  by_cases hany : self.persist_task.any self.alive = true
  · obtain ⟨id, -, halive⟩ := (Option.any_eq_true _ _).mp hany
    have hany' : self.persist_task.any
        ({ self with live := live, persist_pending := true }).alive = true := hany
    rw [if_pos hany']
    exact ⟨h.current, h.uncancelled, fun _ _ _ => rfl, Or.inl ⟨id, halive⟩⟩
  · have hdead : ∀ task ∈ self.persist_tasks, task.live = false := by
      intro task hmem
      obtain ⟨id, hid⟩ := List.mem_iff_getElem?.mp hmem
      by_contra hlive
      rw [Bool.not_eq_false] at hlive
      apply hany
      rw [h.current id task hid hlive]
      exact alive_iff.mpr ⟨task, hid, hlive⟩
    have hany' : ¬ self.persist_task.any
        ({ self with live := live, persist_pending := true }).alive = true := hany
    rw [if_neg hany']
    refine ⟨?_, ?_, fun _ _ _ => rfl, ?_⟩
    · intro id task hid hlive
      simp only at hid ⊢
      rw [List.getElem?_append] at hid
      split at hid
      · rw [hdead task (List.mem_of_getElem? hid)] at hlive
        cases hlive
      · have hlt := (List.getElem?_eq_some_iff.mp hid).1
        simp only [List.length_singleton] at hlt
        rw [Option.some.injEq]
        omega
    · intro task hmem
      rcases List.mem_append.mp hmem with hmem | hmem
      · exact h.uncancelled task hmem
      · rw [List.mem_singleton.mp hmem]
    · left
      refine ⟨self.persist_tasks.length, alive_iff.mpr ⟨⟨.created, false⟩, ?_, rfl⟩⟩
      simp

omit [PrivateKeys] [Runtime] in
/-- The worker goes on: it sleeps, or it has ended after a save of the chain. -/
theorem Kept.suspend (h : self.Kept) {id : ℕ} {task : PersistTask}
    (hid : self.persist_tasks[id]? = some task) (hlive : task.live = true) {point : WorkerPoint}
    (hpoint : point ≠ .created) {after : RunningNode}
    (htasks : after.persist_tasks = (self.suspend id point).persist_tasks)
    (htask : after.persist_task = self.persist_task)
    (hsaved : point = .sleeping ∨ after.HoldsChain) : after.Kept := by
  have hget : ∀ j, after.persist_tasks[j]? = (self.persist_tasks[j]?).map fun task =>
      if id = j then { task with point := point } else task := by
    intro j
    rw [htasks, RunningNode.suspend, List.getElem?_modify]
    rcases self.persist_tasks[j]? with _ | task
    · rfl
    · by_cases hj : id = j
      · simp [hj]
      · simp [hj]
  have hothers : ∀ j other, id ≠ j → self.persist_tasks[j]? = some other → other.live = false := by
    intro j other hne hj
    by_contra hother
    rw [Bool.not_eq_false] at hother
    have heq := h.current j other hj hother
    rw [h.current id task hid hlive, Option.some.injEq] at heq
    exact hne heq
  refine ⟨?_, ?_, ?_, ?_⟩
  · intro j other hj hother
    rw [hget, Option.map_eq_some_iff] at hj
    obtain ⟨old, hold, rfl⟩ := hj
    rw [htask]
    by_cases hne : id = j
    · rw [← hne]
      exact h.current id task hid hlive
    · rw [if_neg hne] at hother
      exact h.current j old hold hother
  · intro other hmem
    obtain ⟨j, hj⟩ := List.mem_iff_getElem?.mp hmem
    rw [hget, Option.map_eq_some_iff] at hj
    obtain ⟨old, hold, rfl⟩ := hj
    have hcancelled := h.uncancelled old (List.mem_of_getElem? hold)
    split
    · exact hcancelled
    · exact hcancelled
  · intro other hmem hcreated
    obtain ⟨j, hj⟩ := List.mem_iff_getElem?.mp hmem
    rw [hget, Option.map_eq_some_iff] at hj
    obtain ⟨old, hold, rfl⟩ := hj
    by_cases hne : id = j
    · rw [if_pos hne] at hcreated
      exact absurd hcreated hpoint
    · rw [if_neg hne] at hcreated
      have hdead := hothers j old hne hold
      rw [PersistTask.live, hcreated] at hdead
      cases hdead
  · rcases hsaved with rfl | hsaved
    · left
      refine ⟨id, alive_iff.mpr ⟨{ task with point := .sleeping }, ?_, rfl⟩⟩
      rw [hget, hid, Option.map_some, if_pos rfl]
    · exact Or.inr hsaved

omit [Runtime] in
/-- What a worker that has not been cancelled does when it runs. -/
theorem worker_step_cases (self : RunningNode) (args : NodeArgs) (id : ℕ) (raises : Bool)
    (huncancelled : ∀ task ∈ self.persist_tasks, task.cancelled = false) :
    (∃ task, self.persist_tasks[id]? = some task ∧ task.point = .created ∧
        self.worker_step args id raises = self.worker_loop id) ∨
      (∃ task, self.persist_tasks[id]? = some task ∧ task.point = .sleeping ∧
        ((self.persist_state args).persist_pending = true ∧
            self.worker_step args id raises = { self.persist_state args with
              persist_pending := false }.suspend id .sleeping ∨
          ∃ result, self.worker_step args id raises
            = (self.persist_state args).suspend id (.done result))) ∨
      (∀ task, self.persist_tasks[id]? = some task → task.live = false) ∧
        self.worker_step args id raises = self := by
  unfold worker_step
  rcases hid : self.persist_tasks[id]? with _ | ⟨point, cancelled⟩
  · refine Or.inr (Or.inr ⟨?_, rfl⟩)
    intro task htask
    cases htask
  have hcancelled : cancelled = false := huncancelled _ (List.mem_of_getElem? hid)
  subst hcancelled
  cases point with
  | created => exact Or.inl ⟨_, rfl, rfl, rfl⟩
  | sleeping =>
      refine Or.inr (Or.inl ⟨_, rfl, rfl, ?_⟩)
      rcases raises with _ | _
      · simp only [Bool.false_eq_true, if_false, worker_loop]
        by_cases hpending : (self.persist_state args).persist_pending = true
        · rw [if_pos hpending]
          exact Or.inl ⟨hpending, rfl⟩
        · rw [if_neg hpending]
          exact Or.inr ⟨_, rfl⟩
      · exact Or.inr ⟨_, rfl⟩
  | done result =>
      refine Or.inr (Or.inr ⟨?_, rfl⟩)
      intro task htask
      rw [← Option.some.inj htask]
      rfl

omit [Runtime] in
theorem length_held_persist_state (self : RunningNode) (args : NodeArgs) :
    self.held.length < (self.persist_state args).held.length := by
  rw [persist_state, List.length_append]
  exact Nat.lt_succ_self _

omit [Runtime] in
theorem holdsChain_persist_state (self : RunningNode) (args : NodeArgs) :
    (self.persist_state args).HoldsChain := by
  rw [HoldsChain, persist_state, List.getLast?_append]
  rfl

omit [Runtime] in
theorem Kept.worker_step (h : self.Kept) (id : ℕ) (raises : Bool) :
    (self.worker_step args id raises).Kept := by
  rcases worker_step_cases self args id raises h.uncancelled with ⟨task, hid, hpoint, hstep⟩ |
    ⟨task, hid, hpoint, ⟨-, hstep⟩ | ⟨result, hstep⟩⟩ | ⟨-, hstep⟩
  · have hlive : task.live = true := by rw [PersistTask.live, hpoint]
    have hpending := h.pending task (List.mem_of_getElem? hid) hpoint
    rw [hstep, worker_loop, if_pos hpending]
    exact h.suspend hid hlive (by simp) rfl rfl (Or.inl rfl)
  · have hlive : task.live = true := by rw [PersistTask.live, hpoint]
    rw [hstep]
    exact h.suspend hid hlive (by simp) rfl rfl (Or.inl rfl)
  · have hlive : task.live = true := by rw [PersistTask.live, hpoint]
    rw [hstep]
    exact h.suspend hid hlive (by simp) rfl rfl (Or.inr (self.holdsChain_persist_state args))
  · rw [hstep]
    exact h

/-- One step. -/
theorem Kept.step (h : self.Kept) {event : RunEvent}
    (hserving : (step args self event).serving = true) : (step args self event).Kept := by
  cases event with
  | change change =>
      rw [RunningNode.step, changed]
      rcases hscheduled : (self.live.node.change change).1 with _ | _
      · -- without a schedule the chain has not changed
        rw [if_neg (by simp), change_unscheduled self.live.node change hscheduled]
        exact h.congr rfl rfl rfl rfl rfl
      · rw [if_pos rfl]
        exact h.schedule_persist _
  | start_loops reconnect =>
      rw [RunningNode.step]
      split
      · exact h.congr rfl rfl rfl rfl rfl
      · exact h
  | ping_ends result =>
      rw [RunningNode.step]
      split
      · exact h.congr rfl rfl rfl rfl rfl
      · exact h
  | reconnect_ends result =>
      rw [RunningNode.step]
      split
      · exact h.congr rfl rfl rfl rfl rfl
      · exact h
  | worker id raises => exact h.worker_step id raises
  | stop raises =>
      rw [RunningNode.step] at hserving ⊢
      obtain ⟨-, point, hpoint⟩ := stop_step_eq hserving
      rw [hpoint]
      exact h.congr rfl rfl rfl rfl rfl

/-- Every run. -/
theorem Kept.along_run (h : self.Kept) {events : List RunEvent}
    (hserving : (run (RunningNode.step args) self events).serving = true) :
    (run (RunningNode.step args) self events).Kept := by
  induction events generalizing self with
  | nil => exact h
  | cons event events ih => exact ih (h.step (serving_of_run hserving)) hserving

/-! ## A worker that is alive saves -/

omit [PrivateKeys] [Runtime] in
/-- How often the event loop runs a worker until it has begun a save. -/
def runs_needed (task : PersistTask) : ℕ :=
  match task.point with
  | .created => 2
  | .sleeping => 1
  | .done _ => 0

/-- No save is taken back. -/
theorem length_held_step {event : RunEvent} (h : self.Kept)
    (hserving : (step args self event).serving = true) :
    self.held.length ≤ (step args self event).held.length := by
  cases event with
  | change change =>
      rw [RunningNode.step, changed]
      split
      · unfold RunningNode.schedule_persist
        simp only
        split
        · exact le_rfl
        · exact le_rfl
      · exact le_rfl
  | start_loops reconnect =>
      rw [RunningNode.step]
      split
      · exact le_rfl
      · exact le_rfl
  | ping_ends result =>
      rw [RunningNode.step]
      split
      · exact le_rfl
      · exact le_rfl
  | reconnect_ends result =>
      rw [RunningNode.step]
      split
      · exact le_rfl
      · exact le_rfl
  | worker id raises =>
      rw [RunningNode.step]
      rcases worker_step_cases self args id raises h.uncancelled with ⟨task, -, -, hstep⟩ |
        ⟨task, -, -, ⟨-, hstep⟩ | ⟨result, hstep⟩⟩ | ⟨-, hstep⟩
      · rw [hstep, worker_loop]
        split
        · exact le_rfl
        · exact le_rfl
      · rw [hstep]
        exact Nat.le_of_lt (length_held_persist_state self args)
      · rw [hstep]
        exact Nat.le_of_lt (length_held_persist_state self args)
      · rw [hstep]
  | stop raises =>
      rw [RunningNode.step] at hserving ⊢
      obtain ⟨-, point, hpoint⟩ := stop_step_eq hserving
      rw [hpoint]
      exact le_rfl

theorem length_held_run {events : List RunEvent} (h : self.Kept)
    (hserving : (run (step args) self events).serving = true) :
    self.held.length ≤ (run (step args) self events).held.length := by
  induction events generalizing self with
  | nil => exact le_rfl
  | cons event events ih =>
      have hstep : (step args self event).serving = true := serving_of_run hserving
      exact le_trans (length_held_step h hstep) (ih (h.step hstep) hserving)

/-- Only the worker itself changes where it is suspended. -/
theorem getElem?_step {event : RunEvent} (h : self.Kept)
    (hserving : (step args self event).serving = true) {id : ℕ} (hother : event.runs id = false)
    {task : PersistTask} (hid : self.persist_tasks[id]? = some task) :
    (step args self event).persist_tasks[id]? = some task := by
  cases event with
  | change change =>
      rw [RunningNode.step, changed]
      split
      · unfold RunningNode.schedule_persist
        simp only
        split
        · exact hid
        · have hlt := (List.getElem?_eq_some_iff.mp hid).1
          simp only
          rw [List.getElem?_append_left hlt]
          exact hid
      · exact hid
  | start_loops reconnect =>
      rw [RunningNode.step]
      split
      · exact hid
      · exact hid
  | ping_ends result =>
      rw [RunningNode.step]
      split
      · exact hid
      · exact hid
  | reconnect_ends result =>
      rw [RunningNode.step]
      split
      · exact hid
      · exact hid
  | worker other raises =>
      have hne : other ≠ id := by simpa [RunEvent.runs] using hother
      have hsuspend : ∀ (after : RunningNode) (point : WorkerPoint),
          after.persist_tasks = self.persist_tasks →
          (after.suspend other point).persist_tasks[id]? = some task := by
        intro after point htasks
        rw [suspend]
        simp only
        rw [List.getElem?_modify_ne _ _ hne, htasks]
        exact hid
      rw [RunningNode.step]
      rcases worker_step_cases self args other raises h.uncancelled with ⟨_, -, -, hstep⟩ |
        ⟨_, -, -, ⟨-, hstep⟩ | ⟨result, hstep⟩⟩ | ⟨-, hstep⟩
      · rw [hstep, worker_loop]
        split
        · exact hsuspend _ _ rfl
        · exact hsuspend _ _ rfl
      · rw [hstep]
        exact hsuspend _ _ rfl
      · rw [hstep]
        exact hsuspend _ _ rfl
      · rw [hstep]
        exact hid
  | stop raises =>
      rw [RunningNode.step] at hserving ⊢
      obtain ⟨-, point, hpoint⟩ := stop_step_eq hserving
      rw [hpoint]
      exact hid

/-- Whatever happens meanwhile, a worker that is alive begins a save once the
event loop has run it often enough. -/
theorem Kept.saves (h : self.Kept) {id : ℕ} {task : PersistTask}
    (hid : self.persist_tasks[id]? = some task) (hlive : task.live = true) {events : List RunEvent}
    (hserving : (run (RunningNode.step args) self events).serving = true)
    (hruns : runs_needed task ≤ events.countP (·.runs id)) :
    self.held.length < (run (RunningNode.step args) self events).held.length := by
  induction events generalizing self task with
  | nil =>
      rw [List.countP_nil, Nat.le_zero] at hruns
      unfold PersistTask.live at hlive
      unfold runs_needed at hruns
      split at hlive
      · cases hlive
      · rename_i hpoint
        split at hruns
        · cases hruns
        · cases hruns
        · rename_i result hdone
          exact absurd hdone (hpoint result)
  | cons event events ih =>
      have hstep : (RunningNode.step args self event).serving = true := serving_of_run hserving
      have hkept := h.step hstep
      rw [List.countP_cons] at hruns
      rcases hrun : event.runs id with _ | _
      · rw [hrun, if_neg (by simp), Nat.add_zero] at hruns
        exact lt_of_le_of_lt (length_held_step h hstep)
          (ih hkept (getElem?_step h hstep hrun hid) hlive hserving hruns)
      · rw [hrun, if_pos rfl] at hruns
        cases event with
        | worker other raises =>
            obtain rfl : other = id := by simpa [RunEvent.runs] using hrun
            rw [run, List.foldl_cons] at hserving ⊢
            rcases worker_step_cases self args other raises h.uncancelled with
              ⟨task', hid', hpoint, heq⟩ | ⟨task', hid', hpoint, hsaved⟩ | ⟨hdead, -⟩
            · -- the first run takes it to its sleep, and the second saves
              rw [hid, Option.some.injEq] at hid'
              subst hid'
              have hpending := h.pending task (List.mem_of_getElem? hid) hpoint
              rw [worker_loop, if_pos hpending] at heq
              have hheld : (RunningNode.step args self (.worker other raises)).held = self.held := by
                rw [RunningNode.step, heq]
                rfl
              have hget : (RunningNode.step args self (.worker other raises)).persist_tasks[other]?
                  = some { task with point := .sleeping } := by
                rw [RunningNode.step, heq, RunningNode.suspend]
                simp only
                rw [List.getElem?_modify_eq, hid]
                rfl
              rw [← hheld]
              refine ih hkept hget rfl hserving ?_
              simp only [runs_needed, hpoint] at hruns ⊢
              omega
            · have hlonger : self.held.length
                  < (RunningNode.step args self (.worker other raises)).held.length := by
                rw [RunningNode.step]
                rcases hsaved with ⟨-, heq⟩ | ⟨result, heq⟩
                · rw [heq]
                  exact length_held_persist_state self args
                · rw [heq]
                  exact length_held_persist_state self args
              exact lt_of_lt_of_le hlonger (length_held_run hkept hserving)
            · rw [hdead task hid] at hlive
              cases hlive
        | change | start_loops | ping_ends | reconnect_ends | stop => cases hrun

/-! ## From the constructor on -/

omit [Runtime] in
theorem kept_started {live : LiveNode} {loaded : Option PersistedState}
    (h : (loaded.getD (live.build_persisted_state args)).chain = live.node.blockchain.chain) :
    (started args live loaded).Kept := by
  refine ⟨?_, ?_, ?_, Or.inr ?_⟩
  · intro id task hid
    cases hid
  · intro task hmem
    cases hmem
  · intro task hmem
    cases hmem
  · exact congrArg some h

/-- The chain of a constructed node is the one it has loaded, or saved. -/
theorem chain_of_init [Stringify] {generated : Generated} {files files' : Files} {live : LiveNode}
    {loaded : Option PersistedState} (hload : load args.settings.persistence files = .ok loaded)
    (hinit : LiveNode.init args generated files = (.ok live, files')) :
    (loaded.getD (live.build_persisted_state args)).chain = live.node.blockchain.chain := by
  unfold LiveNode.init at hinit
  rw [hload] at hinit
  rcases hconstruct : LiveNode.construct args generated loaded with e | constructed
  · simp only [hconstruct] at hinit
    cases hinit
  simp only [hconstruct] at hinit
  cases loaded with
  | none => rfl
  | some saved =>
      have hstarted := LiveNode.started_of_construct hconstruct
      obtain ⟨_, _, _, -, -, -, hconstructed⟩ := LiveNode.construct_eq_ok.mp hconstruct
      obtain ⟨c, hruns⟩ := hstarted.runs
      obtain ⟨-, ⟨hempty, heq⟩ | ⟨-, -, heq⟩⟩ :=
        (LiveNode.restore_chain_eq_ok hruns).mp (Prod.mk.inj hinit).1
      · rw [Option.getD_some, hempty, heq, hconstructed]
        rfl
      · rw [heq]
        rfl

/-- In every state of a running node, the last save, or the load at its start,
holds the chain, or the worker task is alive: whatever happens meanwhile, the
second time the event loop runs it it has begun a save. -/
theorem no_change_forgotten [Stringify] {generated : Generated} {files files' : Files}
    {live : LiveNode} {loaded : Option PersistedState}
    (hload : load args.settings.persistence files = .ok loaded)
    (hinit : LiveNode.init args generated files = (.ok live, files')) (events : List RunEvent)
    (hserving : (run (step args) (started args live loaded) events).serving = true) :
    (run (step args) (started args live loaded) events).HoldsChain ∨
      ∃ id, (run (step args) (started args live loaded) events).persist_task = some id ∧
        (run (step args) (started args live loaded) events).alive id = true ∧
        ∀ later, (run (step args) (started args live loaded) (events ++ later)).serving = true →
          2 ≤ later.countP (·.runs id) →
          (run (step args) (started args live loaded) events).held.length
            < (run (step args) (started args live loaded) (events ++ later)).held.length := by
  have hkept := (kept_started (chain_of_init hload hinit)).along_run hserving
  rcases hkept.saved with ⟨id, halive⟩ | hholds
  · right
    obtain ⟨task, hid, hlive⟩ := alive_iff.mp halive
    refine ⟨id, hkept.current id task hid hlive, halive, ?_⟩
    intro later hlater hruns
    rw [run_append] at hlater ⊢
    have hneeded : runs_needed task ≤ 2 := by
      unfold runs_needed
      split
      · exact le_rfl
      · exact Nat.le_succ 1
      · exact Nat.zero_le 2
    exact hkept.saves hid hlive hlater (le_trans hneeded hruns)
  · exact Or.inl hholds

end RunningNode

/-! ## A received block -/

namespace PersistRun

open RunningNode Restarted

attribute [local instance] cpython letterRsa letterKeys

local instance : Stringify := ⟨fun _ => []⟩

/-- A proof-of-work node that receives a block. -/
def block_received : List RunEvent :=
  [.start_loops false, .change (.new_block [(.str (lit "block"), FutureBlock.received)])]

/-- The theorem on it. -/
theorem received_block_not_forgotten :
    (run (step (args "pow")) (started (args "pow") pow_node none) block_received).HoldsChain ∨
      ∃ id, (run (step (args "pow")) (started (args "pow") pow_node none)
            block_received).persist_task = some id ∧
        (run (step (args "pow")) (started (args "pow") pow_node none) block_received).alive id
          = true ∧
        ∀ later, (run (step (args "pow")) (started (args "pow") pow_node none)
            (block_received ++ later)).serving = true →
          2 ≤ later.countP (·.runs id) →
          (run (step (args "pow")) (started (args "pow") pow_node none) block_received).held.length
            < (run (step (args "pow")) (started (args "pow") pow_node none)
              (block_received ++ later)).held.length :=
  no_change_forgotten (load_of_no_meta _ rfl) init_pow block_received (by decide +kernel)

end PersistRun

end EasyBlockchain
