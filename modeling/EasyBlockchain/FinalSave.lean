/-
The last save of `stop`.

`stop` awaits the ping loop, the reconnect loop and the worker, and catches
their cancellations only. A task that has ended with an exception raises it
again there, so `stop` ends without its save. For the worker this is the case
when its last save failed and the chain has not changed since.
-/
import EasyBlockchain.PersistWorker

set_option autoImplicit false

namespace EasyBlockchain

open Py Lib

namespace RunningNode

section FinalSave

variable [Rsa] [PrivateKeys]

omit [PrivateKeys] in
/-- The tasks that `stop` comes to in this step have not ended with an exception,
and the servers are stopped without one. -/
def StopsWell (self : RunningNode) : RunEvent → Prop
  | .stop raises =>
    match self.stop_point with
    | .not_called | .ping_task =>
      self.ping_task ≠ some (some .raised) ∧
        (self.ping_task ≠ some none → self.reconnect_task ≠ some (some .raised))
    | .reconnect_task => self.reconnect_task ≠ some (some .raised)
    | .servers => raises = false ∧
      ∀ id, self.persist_task = some id → self.worker_end id ≠ some .raised
    | .persist_task id => self.worker_end id ≠ some .raised
    | .finished => True
  | _ => True

omit [PrivateKeys] in
/-- The step was to save one more state, the one with the chain as it is then. -/
def SavesChain (before after : RunningNode) : Prop :=
  ∃ state, after.held = before.held ++ [state] ∧ state.chain = after.chain

variable {args : NodeArgs} {self : RunningNode}

omit [PrivateKeys] in
theorem not_savesChain {after : RunningNode} (h : after.held = self.held) :
    ¬ self.SavesChain after := by
  rintro ⟨state, hheld, -⟩
  have hlength := congrArg List.length (h.symm.trans hheld)
  rw [List.length_append, List.length_singleton] at hlength
  omega

theorem savesChain_final_save (self : RunningNode) (args : NodeArgs) :
    self.SavesChain (self.final_save args) :=
  ⟨self.live.build_persisted_state args, rfl, rfl⟩

omit [PrivateKeys] in
/-- An awaited task, if it has ended, has raised or lets `stop` go on. -/
theorem await_cases (self : RunningNode) (result : Option TaskEnd) (point : StopPoint)
    (next : RunningNode) :
    (result = none ∧ self.await result point next = self.at_point point) ∨
      (result = some .raised ∧ self.await result point next = self.at_point .finished) ∨
      (result ≠ none ∧ result ≠ some .raised) ∧ self.await result point next = next := by
  rcases result with _ | _ | _ | _
  · exact Or.inl ⟨rfl, rfl⟩
  · exact Or.inr (Or.inr ⟨by simp, rfl⟩)
  · exact Or.inr (Or.inr ⟨by simp, rfl⟩)
  · exact Or.inr (Or.inl ⟨rfl, rfl⟩)

omit [PrivateKeys] in
/-- While it awaits the reconnect loop, `stop` can end only by its exception. -/
theorem stop_reconnect_finished (h : self.stop_reconnect.stop_point = .finished) :
    self.reconnect_task = some (some .raised) ∧ self.stop_reconnect.held = self.held := by
  unfold stop_reconnect at h ⊢
  rcases hreconnect : self.reconnect_task with _ | result
  · simp only [hreconnect] at h
    cases h
  · simp only [hreconnect] at h ⊢
    rcases self.await_cases result .reconnect_task (self.at_point .servers) with
      ⟨-, heq⟩ | ⟨hraised, heq⟩ | ⟨-, heq⟩
    · rw [heq] at h
      cases h
    · rw [heq, hraised]
      exact ⟨rfl, rfl⟩
    · rw [heq] at h
      cases h

omit [PrivateKeys] in
theorem stop_ping_finished (h : self.stop_ping.stop_point = .finished) :
    (self.ping_task = some (some .raised) ∨
        self.ping_task ≠ some none ∧ self.reconnect_task = some (some .raised)) ∧
      self.stop_ping.held = self.held := by
  unfold stop_ping at h ⊢
  rcases hping : self.ping_task with _ | result
  · simp only [hping] at h
    obtain ⟨hraised, hheld⟩ := stop_reconnect_finished h
    exact ⟨Or.inr ⟨by simp, hraised⟩, hheld⟩
  · simp only [hping] at h ⊢
    rcases self.await_cases result .ping_task self.stop_reconnect with
      ⟨-, heq⟩ | ⟨hraised, heq⟩ | ⟨hended, heq⟩
    · rw [heq] at h
      cases h
    · rw [heq, hraised]
      exact ⟨Or.inl rfl, rfl⟩
    · rw [heq] at h ⊢
      obtain ⟨hraised, hheld⟩ := stop_reconnect_finished h
      exact ⟨Or.inr ⟨by simpa using hended.1, hraised⟩, hheld⟩

/-- When it awaits the worker, `stop` ends with the save or by its exception. -/
theorem await_persist_finished {id : ℕ} (h : (self.await_persist args id).stop_point = .finished) :
    self.SavesChain (self.await_persist args id) ↔ self.worker_end id ≠ some .raised := by
  unfold await_persist at h ⊢
  rcases self.await_cases (self.worker_end id) (.persist_task id) (self.final_save args) with
    ⟨-, heq⟩ | ⟨hraised, heq⟩ | ⟨hwell, heq⟩
  · rw [heq] at h
    cases h
  · rw [heq, hraised]
    simp only [ne_eq, not_true_eq_false, iff_false]
    exact not_savesChain rfl
  · rw [heq]
    exact iff_of_true (self.savesChain_final_save args) hwell.2

omit [PrivateKeys] in
/-- A worker that is told to stop has ended as before. -/
theorem worker_end_cancel (self : RunningNode) (id : ℕ) :
    { self with
      persist_pending := false
      persist_tasks := self.persist_tasks.modify id fun task => { task with cancelled := true }
      }.worker_end id = self.worker_end id := by
  unfold worker_end
  simp only [List.getElem?_modify_eq]
  rcases self.persist_tasks[id]? with _ | ⟨point, cancelled⟩
  · rfl
  · cases point with
    | created => rfl
    | sleeping => rfl
    | done result => rfl

theorem stop_persist_finished (h : (self.stop_persist args).stop_point = .finished) :
    self.SavesChain (self.stop_persist args) ↔
      ∀ id, self.persist_task = some id → self.worker_end id ≠ some .raised := by
  unfold stop_persist at h ⊢
  rcases hworker : self.persist_task with _ | id
  · simp only
    refine iff_of_true ?_ (by simp)
    exact savesChain_final_save { self with persist_pending := false } args
  · simp only [hworker, Option.some.injEq, forall_eq'] at h ⊢
    rw [← self.worker_end_cancel id]
    exact await_persist_finished h

variable [Runtime]

/-- The step with which `stop` ends saves the chain exactly if all goes well. -/
theorem finished_iff {event : RunEvent} (hbefore : self.stop_point ≠ .finished)
    (hafter : (step args self event).stop_point = .finished) :
    self.SavesChain (step args self event) ↔ self.StopsWell event := by
  by_cases hstop : ∀ raises, event ≠ .stop raises
  · rw [stop_point_step hstop] at hafter
    exact absurd hafter hbefore
  obtain ⟨raises, hstop⟩ := not_forall.mp hstop
  obtain rfl := not_not.mp hstop
  unfold step stop_step at hafter ⊢
  rw [StopsWell]
  rcases hpoint : self.stop_point with _ | _ | _ | _ | id | _
  · simp only [hpoint] at hafter ⊢
    obtain ⟨hraised, hheld⟩ := stop_ping_finished hafter
    refine iff_of_false (not_savesChain hheld) ?_
    rintro ⟨hping, hreconnect⟩
    rcases hraised with hraised | ⟨hended, hraised⟩
    · exact hping hraised
    · exact hreconnect hended hraised
  · simp only [hpoint] at hafter ⊢
    obtain ⟨hraised, hheld⟩ := stop_ping_finished hafter
    refine iff_of_false (not_savesChain hheld) ?_
    rintro ⟨hping, hreconnect⟩
    rcases hraised with hraised | ⟨hended, hraised⟩
    · exact hping hraised
    · exact hreconnect hended hraised
  · simp only [hpoint] at hafter ⊢
    obtain ⟨hraised, hheld⟩ := stop_reconnect_finished hafter
    exact iff_of_false (not_savesChain hheld) (not_not.mpr hraised)
  · rcases raises with _ | _
    · simp only [hpoint, Bool.false_eq_true, if_false, true_and] at hafter ⊢
      exact stop_persist_finished hafter
    · simp only [if_true, Bool.true_eq_false, false_and, iff_false]
      exact not_savesChain rfl
  · simp only [hpoint] at hafter ⊢
    exact await_persist_finished hafter
  · exact absurd hpoint hbefore

omit [Runtime] in
/-- An exception of the worker ends `stop`. -/
theorem await_persist_raised {id : ℕ} (h : self.worker_end id = some .raised) :
    (self.await_persist args id).stop_point = .finished := by
  rw [await_persist, h]
  rfl

/-- A step after which `stop` has not ended goes well. -/
theorem stopsWell_of_unfinished {event : RunEvent}
    (h : (step args self event).stop_point ≠ .finished) : self.StopsWell event := by
  cases event with
  | stop raises =>
      rw [StopsWell]
      unfold step stop_step at h
      have hreconnect : self.reconnect_task = some (some .raised) →
          self.stop_reconnect.stop_point = .finished := by
        intro hraised
        rw [stop_reconnect, hraised]
        rfl
      have hping : self.stop_ping.stop_point ≠ .finished →
          self.ping_task ≠ some (some .raised) ∧
            (self.ping_task ≠ some none → self.reconnect_task ≠ some (some .raised)) := by
        intro hunfinished
        constructor
        · intro hraised
          rw [stop_ping, hraised] at hunfinished
          exact hunfinished rfl
        · intro hended hraised
          apply hunfinished
          unfold stop_ping
          rcases hresult : self.ping_task with _ | _ | _ | _ | _
          · exact hreconnect hraised
          · exact absurd hresult hended
          · exact hreconnect hraised
          · exact hreconnect hraised
          · rfl
      rcases hpoint : self.stop_point with _ | _ | _ | _ | id | _
      · simp only [hpoint] at h ⊢
        exact hping h
      · simp only [hpoint] at h ⊢
        exact hping h
      · simp only [hpoint] at h ⊢
        exact fun hraised => h (hreconnect hraised)
      · simp only [hpoint] at h ⊢
        rcases raises with _ | _
        · refine ⟨rfl, ?_⟩
          intro id hid hraised
          apply h
          simp only [Bool.false_eq_true, if_false, stop_persist, hid]
          exact await_persist_raised ((self.worker_end_cancel id).trans hraised)
        · exact absurd rfl h
      · simp only [hpoint] at h ⊢
        exact fun hraised => h (await_persist_raised hraised)
      · trivial
  | change | start_loops | ping_ends | reconnect_ends | worker => trivial

theorem finished_stays {event : RunEvent} (h : self.stop_point = .finished) :
    (step args self event).stop_point = .finished := by
  by_cases hstop : ∀ raises, event ≠ .stop raises
  · rw [stop_point_step hstop, h]
  · obtain ⟨raises, hstop⟩ := not_forall.mp hstop
    obtain rfl := not_not.mp hstop
    rw [step]
    simp only [stop_step, h]

theorem finished_stays_run {events : List RunEvent} (h : self.stop_point = .finished) :
    (run (step args) self events).stop_point = .finished := by
  induction events generalizing self with
  | nil => exact h
  | cons event events ih => exact ih (finished_stays h)

/-- As long as `stop` has not ended, every step went well. -/
theorem stopsWell_before {events : List RunEvent}
    (h : (run (step args) self events).stop_point ≠ .finished) :
    AlwaysMeets StopsWell (step args) self events := by
  induction events generalizing self with
  | nil => trivial
  | cons event events ih =>
      have hunfinished : (step args self event).stop_point ≠ .finished := by
        intro hfinished
        apply h
        rw [run, List.foldl_cons]
        exact finished_stays_run hfinished
      exact ⟨stopsWell_of_unfinished hunfinished, ih h⟩

/-- In every run in which `stop` ends, it ends with a save of the chain as it is
then exactly if all steps went well. -/
theorem final_save_iff (args : NodeArgs) (live : LiveNode) (loaded : Option PersistedState)
    (events : List RunEvent) (event : RunEvent)
    (hbefore : (run (step args) (started args live loaded) events).stop_point ≠ .finished)
    (hafter : (run (step args) (started args live loaded) (events ++ [event])).stop_point
      = .finished) :
    (run (step args) (started args live loaded) events).SavesChain
        (run (step args) (started args live loaded) (events ++ [event])) ↔
      AlwaysMeets StopsWell (step args) (started args live loaded) (events ++ [event]) := by
  rw [run_append] at hafter ⊢
  rw [alwaysMeets_append, and_iff_right (stopsWell_before hbefore)]
  simp only [AlwaysMeets, and_true]
  exact finished_iff hbefore hafter

end FinalSave

end RunningNode

/-! ## A failed save, and a good one -/

namespace PersistRun

open RunningNode Restarted

attribute [local instance] cpython letterRsa letterKeys

local instance : Stringify := ⟨fun _ => []⟩

/-- The worker has ended with a failed save, and the discovery and the servers
are being stopped. -/
def failed_save : List RunEvent :=
  block_received ++ [.worker 0 false, .worker 0 true,
    .stop false, .ping_ends .cancelled, .stop false]

/-- The same with a save that succeeds. -/
def good_save : List RunEvent :=
  block_received ++ [.worker 0 false, .worker 0 false, .stop false, .ping_ends .cancelled,
    .stop false]

/-- The theorem on a run with a save that succeeds. -/
theorem final_save_of_good :
    (run (step (args "pow")) (started (args "pow") pow_node none) good_save).SavesChain
        (run (step (args "pow")) (started (args "pow") pow_node none)
          (good_save ++ [.stop false])) ↔
      AlwaysMeets StopsWell (step (args "pow")) (started (args "pow") pow_node none)
        (good_save ++ [.stop false]) :=
  final_save_iff (args "pow") pow_node none good_save (.stop false) (by decide +kernel)
    (by decide +kernel)

/-- After a failed save `stop` ends without one: it has saved nothing since, and
raises what the worker has raised. -/
theorem no_final_save :
    LiveNode.init (args "pow") generated (fun _ => none)
      = (.ok pow_node, (pow_node.persist_state (args "pow") fun _ => none).2) ∧
    (run (step (args "pow")) (started (args "pow") pow_node none) failed_save).stop_point
      = .servers ∧
    (run (step (args "pow")) (started (args "pow") pow_node none)
      (failed_save ++ [.stop false])).stop_point = .finished ∧
    ¬ (run (step (args "pow")) (started (args "pow") pow_node none) failed_save).SavesChain
        (run (step (args "pow")) (started (args "pow") pow_node none)
          (failed_save ++ [.stop false])) := by
  refine ⟨init_pow, by decide +kernel, by decide +kernel, ?_⟩
  rintro ⟨state, hheld, -⟩
  have hlength := congrArg List.length hheld
  rw [List.length_append, List.length_singleton] at hlength
  revert hlength
  decide +kernel

end PersistRun

end EasyBlockchain
