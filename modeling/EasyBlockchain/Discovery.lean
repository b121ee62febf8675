/-
`network/discovery.py`: the table of known peers under any interleaving.

`add_peer` reads `local_url`, validates the URL, and only then takes the lock, so
other threads run between its three parts; `add_peers` runs it on the beginning of a
message, and the constructor on the bootstrap peers. A task is one such call. What
it decides about each URL is recorded, with the values the decision was made from,
and the table is read off the record: the most recent of the URLs that were added.
-/
import EasyBlockchain.Lib.Recency
import EasyBlockchain.Lib.Run
import EasyBlockchain.PeerUrl
import EasyBlockchain.Py.StrDict

set_option autoImplicit false

namespace EasyBlockchain

open Py Lib Recency

/-- What `PeerDiscovery` reads of the `NetworkSettings`. -/
structure DiscoverySettings where
  url : UrlSettings
  bootstrap_peers : List Str
  max_peers_per_message : ℕ
  max_known_peers : ℕ

/-- The calls that add peers. -/
inductive AddCall
  /-- the loop of the constructor -/
  | bootstrap
  | add_peer (url : Str)
  | add_peers (urls : List Str)

/-- The URLs a call runs `add_peer` on. -/
def AddCall.urls (settings : DiscoverySettings) : AddCall → List Str
  | bootstrap => settings.bootstrap_peers
  | add_peer url => [url]
  | add_peers urls => urls.take settings.max_peers_per_message

/-- Where a call is suspended. -/
inductive AddPoint
  /-- before the next `add_peer` -/
  | between
  /-- past the first `if`, which compared the URL with this `local_url` -/
  | differs (url local_url : Str)
  /-- past the second `if`, at the lock -/
  | valid (url local_url : Str) (getaddrinfo : Resolver)

/-- The URL a suspended `add_peer` was called with. -/
def AddPoint.url : AddPoint → Option Str
  | between => none
  | differs url _ | valid url _ _ => some url

structure AddTask where
  call : AddCall
  remaining : List Str
  point : AddPoint

/-- What a task does next: the first `if`, the second `if`, the locked section. -/
inductive AddInput
  | compares
  | validates (getaddrinfo : Resolver)
  | locks

/-- How an `add_peer` ended, and what it depended on. -/
inductive Verdict
  /-- empty, or this `local_url` -/
  | skipped (local_url : Str)
  | rejected (getaddrinfo : Resolver)
  | added (local_url : Str) (getaddrinfo : Resolver)

/-- The end of an `add_peer` of a task. -/
structure AddOutcome where
  task : ℕ
  url : Str
  verdict : Verdict

structure PeerDiscovery where
  settings : DiscoverySettings
  environment : Environment
  local_url : Str
  known_peers : StrDict Unit
  tasks : List AddTask
  outcomes : List AddOutcome

inductive DiscoveryEvent
  | calls (call : AddCall)
  | runs (task : ℕ) (input : AddInput)
  /-- `Node.start` sets `local_url` -/
  | sets_local_url (url : Str)

/-- The call an event makes. -/
def DiscoveryEvent.call? : DiscoveryEvent → Option AddCall
  | .calls call => some call
  | _ => none

/-! ## The code -/

section Code

variable [NetLibrary]

/-- The `while` loop of `add_peer` on the entries of the table. -/
def evictEntries (max_known : ℕ) : List (Str × Unit) → List (Str × Unit)
  | [] => []
  | first :: rest =>
    if max_known < (first :: rest).length then evictEntries max_known rest else first :: rest

omit [NetLibrary] in
theorem evictEntries_eq_rtake (max_known : ℕ) (entries : List (Str × Unit)) :
    evictEntries max_known entries = entries.rtake max_known := by
  induction entries with
  | nil => simp [evictEntries]
  | cons first rest ih =>
      rw [evictEntries, ih, List.rtake, List.rtake, List.length_cons]
      split_ifs with hfull
      · rw [Nat.sub_add_comm (by omega), List.drop_succ_cons]
      · rw [Nat.sub_eq_zero_of_le (by omega), List.drop_zero]

def evict (max_known : ℕ) (m : StrDict Unit) : StrDict Unit :=
  ⟨evictEntries max_known m.entries, by
    rw [evictEntries_eq_rtake]
    exact m.nodup.sublist ((List.drop_sublist _ _).map _)⟩

namespace PeerDiscovery

/-- The locked section of `add_peer`. -/
def remember (max_known : ℕ) (known : StrDict Unit) (url : Str) : StrDict Unit :=
  let known := if known.contains url then known.pop url else known
  evict max_known (known.set url ())

/-- One part of an `add_peer`, and how it ended if it did. -/
def advance (self : PeerDiscovery) (task : AddTask) : AddInput → AddTask × Option (Str × Verdict)
  | .compares =>
    match task.remaining, task.point with
    | url :: remaining, .between =>
      if url.isEmpty || url = self.local_url then
        (⟨task.call, remaining, .between⟩, some (url, .skipped self.local_url))
      else (⟨task.call, remaining, .differs url self.local_url⟩, none)
    | _, _ => (task, none)
  | .validates getaddrinfo =>
    match task.point with
    | .differs url local_url =>
      if validate_peer_url getaddrinfo url self.settings.url self.environment = none then
        (⟨task.call, task.remaining, .between⟩, some (url, .rejected getaddrinfo))
      else (⟨task.call, task.remaining, .valid url local_url getaddrinfo⟩, none)
    | _ => (task, none)
  | .locks =>
    match task.point with
    | .valid url local_url getaddrinfo =>
      (⟨task.call, task.remaining, .between⟩, some (url, .added local_url getaddrinfo))
    | _ => (task, none)

/-- The table after an `add_peer` has ended. -/
def after (self : PeerDiscovery) : Option (Str × Verdict) → StrDict Unit
  | some (url, .added _ _) => remember self.settings.max_known_peers self.known_peers url
  | _ => self.known_peers

def start_call (self : PeerDiscovery) (call : AddCall) : PeerDiscovery :=
  { self with tasks := self.tasks ++ [⟨call, call.urls self.settings, .between⟩] }

def step (self : PeerDiscovery) : DiscoveryEvent → PeerDiscovery
  | .calls call => self.start_call call
  | .sets_local_url url => { self with local_url := url }
  | .runs i input =>
    match self.tasks[i]? with
    | none => self
    | some task =>
      let (task, ended) := self.advance task input
      { self with
        known_peers := self.after ended
        tasks := self.tasks.set i task
        outcomes := self.outcomes ++ (ended.map fun e => ⟨i, e.1, e.2⟩).toList }

/-- The constructor up to its loop. -/
def init (settings : DiscoverySettings) (local_url : Str) (environment : Environment) :
    PeerDiscovery :=
  start_call ⟨settings, environment, local_url, .empty, [], []⟩ .bootstrap

/-- The `known_peers` property. -/
def known_urls (self : PeerDiscovery) : List Str :=
  (self.known_peers.sorted.map Prod.fst).filter (· ≠ self.local_url)

/-! ## What was added -/

/-- The URLs that were added, in the order of the locked sections. -/
def added (outcomes : List AddOutcome) : List Str :=
  outcomes.filterMap fun o =>
    match o.verdict with
    | .added _ _ => some o.url
    | _ => none

/-- A URL passes the checks of `add_peer`. -/
structure Passes (settings : DiscoverySettings) (environment : Environment) (url local_url : Str)
    (getaddrinfo : Resolver) : Prop where
  nonempty : url ≠ []
  other : url ≠ local_url
  valid : validate_peer_url getaddrinfo url settings.url environment ≠ none

/-- The verdict follows from the values it was made from. -/
def Verdict.Right (settings : DiscoverySettings) (environment : Environment) (url : Str) :
    Verdict → Prop
  | .skipped local_url => url = [] ∨ url = local_url
  | .rejected getaddrinfo => validate_peer_url getaddrinfo url settings.url environment = none
  | .added local_url getaddrinfo => Passes settings environment url local_url getaddrinfo

/-- A suspended `add_peer` has passed the checks before the point. -/
def PointRight (settings : DiscoverySettings) (environment : Environment) : AddPoint → Prop
  | .between => True
  | .differs url local_url => url ≠ [] ∧ url ≠ local_url
  | .valid url local_url getaddrinfo => Passes settings environment url local_url getaddrinfo

/-- The URLs a task has not decided yet. -/
def pending (task : AddTask) : List Str := task.point.url.toList ++ task.remaining

variable {self : PeerDiscovery} {task : AddTask}

/-- A part of an `add_peer` decides the first pending URL or none. -/
structure Advances (start : PeerDiscovery) (task after : AddTask) (ended : Option (Str × Verdict)) :
    Prop where
  call : after.call = task.call
  pending : pending task = (ended.map Prod.fst).toList ++ pending after
  point : PointRight start.settings start.environment after.point
  right : ∀ url verdict, ended = some (url, verdict) →
    Verdict.Right start.settings start.environment url verdict

theorem advance_spec (h : PointRight self.settings self.environment task.point) (input : AddInput) :
    Advances self task (self.advance task input).1 (self.advance task input).2 := by
  have hstay : Advances self task task none := ⟨rfl, rfl, h, fun _ _ hnone => by cases hnone⟩
  obtain ⟨call, remaining, point⟩ := task
  cases input with
  | compares =>
      rcases remaining with _ | ⟨url, remaining⟩
      · exact hstay
      cases point with
      | differs url' local_url => exact hstay
      | valid url' local_url getaddrinfo => exact hstay
      | between =>
          simp only [advance]
          split_ifs with hskip
          · refine ⟨rfl, rfl, trivial, ?_⟩
            intro u verdict heq
            obtain ⟨rfl, rfl⟩ := Prod.mk.inj (Option.some.inj heq)
            simpa [Verdict.Right] using hskip
          · refine ⟨rfl, rfl, ?_, fun _ _ hnone => by cases hnone⟩
            simpa [PointRight] using hskip
  | validates getaddrinfo =>
      cases point with
      | between => exact hstay
      | valid url' local_url getaddrinfo' => exact hstay
      | differs url local_url =>
          simp only [advance]
          split_ifs with hreject
          · refine ⟨rfl, rfl, trivial, ?_⟩
            intro u verdict heq
            obtain ⟨rfl, rfl⟩ := Prod.mk.inj (Option.some.inj heq)
            exact hreject
          · exact ⟨rfl, rfl, ⟨h.1, h.2, hreject⟩, fun _ _ hnone => by cases hnone⟩
  | locks =>
      cases point with
      | between => exact hstay
      | differs url' local_url => exact hstay
      | valid url local_url getaddrinfo =>
          refine ⟨rfl, rfl, trivial, ?_⟩
          intro u verdict heq
          obtain ⟨rfl, rfl⟩ := Prod.mk.inj (Option.some.inj heq)
          exact h

omit [NetLibrary] in
/-- The locked section makes the URL the newest of the table. -/
theorem keys_remember (max_known : ℕ) (known : StrDict Unit) (url : Str) :
    (remember max_known known url).keys = touch max_known known.keys url := by
  have hpop : (if known.contains url then known.pop url else known).entries
      = known.entries.filter fun p => p.1 ≠ url := by
    split_ifs with hknown
    · rfl
    · symm
      apply List.filter_eq_self.mpr
      intro p hp
      have hne : p.1 ≠ url := by
        rintro rfl
        exact hknown (StrDict.mem_map_fst.mp (List.mem_map_of_mem hp))
      simpa using hne
  have hset : ((if known.contains url then known.pop url else known).set url ()).entries
      = (known.entries.filter fun p => p.1 ≠ url) ++ [(url, ())] := by
    rw [StrDict.set]
    dsimp only
    rw [hpop]
    apply StrDict.setEntries_of_not_mem
    simp
  rw [StrDict.keys, remember, evict]
  dsimp only
  rw [evictEntries_eq_rtake, hset, touch, StrDict.keys, List.rtake, List.rtake, List.map_drop,
    List.map_append, List.filter_map]
  simp [Function.comp_def]

/-! ## The invariant -/

omit [NetLibrary] in
theorem added_snoc (outcomes : List AddOutcome) (i : ℕ) (url : Str) (verdict : Verdict) :
    added (outcomes ++ [⟨i, url, verdict⟩]) = added outcomes ++
      match verdict with
      | .added _ _ => [url]
      | _ => [] := by
  rw [added, List.filterMap_append, ← added]
  cases verdict <;> rfl

/-- The URLs a task has decided, in order. -/
def decided (outcomes : List AddOutcome) (i : ℕ) : List Str :=
  (outcomes.filter (·.task = i)).map (·.url)

omit [NetLibrary] in
theorem decided_append (outcomes : List AddOutcome) (i j : ℕ) (ended : Option (Str × Verdict)) :
    decided (outcomes ++ (ended.map fun e => ⟨j, e.1, e.2⟩).toList) i
      = decided outcomes i ++ if j = i then (ended.map Prod.fst).toList else [] := by
  cases ended with
  | none => simp [decided]
  | some e =>
      by_cases hj : j = i
      · simp [decided, hj]
      · simp [decided, hj]

/-- The table is read off the record, and the record is right and complete. -/
structure Recorded (d : PeerDiscovery) : Prop where
  table : d.known_peers.keys = newest d.settings.max_known_peers (added d.outcomes)
  right : ∀ o ∈ d.outcomes, Verdict.Right d.settings d.environment o.url o.verdict
  points : ∀ task ∈ d.tasks, PointRight d.settings d.environment task.point
  decided : ∀ (i : ℕ) (task : AddTask), d.tasks[i]? = some task →
    decided d.outcomes i ++ pending task = task.call.urls d.settings
  tasks : ∀ o ∈ d.outcomes, o.task < d.tasks.length

theorem recorded_start_call (h : self.Recorded) (call : AddCall) : (self.start_call call).Recorded := by
  refine ⟨h.table, h.right, ?_, ?_, ?_⟩
  · intro task htask
    rcases List.mem_append.mp htask with htask | htask
    · exact h.points task htask
    · rw [List.mem_singleton.mp htask]
      trivial
  · intro i task htask
    change (self.tasks ++ [_])[i]? = some task at htask
    rcases Nat.lt_or_ge i self.tasks.length with hi | hi
    · rw [List.getElem?_append_left hi] at htask
      exact h.decided i task htask
    · -- nothing is decided for a task that has just begun
      have hnone : PeerDiscovery.decided self.outcomes i = [] := by
        rw [PeerDiscovery.decided, List.map_eq_nil_iff, List.filter_eq_nil_iff]
        intro o ho heq
        have := h.tasks o ho
        have := of_decide_eq_true heq
        omega
      rw [List.getElem?_append_right hi] at htask
      have hzero : i - self.tasks.length = 0 := by
        have := (List.getElem?_eq_some_iff.mp htask).1
        rw [List.length_singleton] at this
        omega
      rw [hzero] at htask
      obtain rfl := Option.some.inj htask
      change PeerDiscovery.decided self.outcomes i ++ _ = _
      rw [hnone]
      rfl
  · intro o ho
    have := h.tasks o ho
    change o.task < (self.tasks ++ [_]).length
    rw [List.length_append]
    omega

theorem recorded_step (h : self.Recorded) (e : DiscoveryEvent) : (self.step e).Recorded := by
  cases e with
  | calls call => exact recorded_start_call h call
  | sets_local_url url => exact ⟨h.table, h.right, h.points, h.decided, h.tasks⟩
  | runs i input =>
      rw [step]
      cases htask : self.tasks[i]? with
      | none => exact h
      | some task =>
          have hmem : task ∈ self.tasks := List.mem_of_getElem? htask
          obtain ⟨hi, -⟩ := List.getElem?_eq_some_iff.mp htask
          have hadvance := advance_spec (h.points task hmem) input
          dsimp only
          generalize self.advance task input = result at hadvance
          obtain ⟨task', ended⟩ := result
          refine ⟨?_, ?_, ?_, ?_, ?_⟩
          · change (self.after ended).keys = newest self.settings.max_known_peers
              (added (self.outcomes ++ (ended.map fun e => ⟨i, e.1, e.2⟩).toList))
            rcases ended with _ | ⟨url, verdict⟩
            · rw [Option.map_none, Option.toList_none, List.append_nil]
              exact h.table
            · rw [Option.map_some, Option.toList_some, added_snoc]
              cases verdict with
              | skipped local_url => exact h.table.trans (by rw [List.append_nil])
              | rejected getaddrinfo => exact h.table.trans (by rw [List.append_nil])
              | added local_url getaddrinfo =>
                  rw [after, keys_remember, h.table, newest_snoc]
          · intro o ho
            rcases List.mem_append.mp ho with ho | ho
            · exact h.right o ho
            · rcases ended with _ | ⟨url, verdict⟩
              · cases ho
              · rw [Option.map_some, Option.toList_some, List.mem_singleton] at ho
                rw [ho]
                exact hadvance.right url verdict rfl
          · intro t ht
            rcases List.mem_or_eq_of_mem_set ht with ht | rfl
            · exact h.points t ht
            · exact hadvance.point
          · intro j t ht
            change (self.tasks.set i task')[j]? = some t at ht
            change PeerDiscovery.decided
              (self.outcomes ++ (ended.map fun e => ⟨i, e.1, e.2⟩).toList) j ++ _ = _
            rw [decided_append]
            by_cases hij : i = j
            · subst hij
              rw [List.getElem?_set_self hi] at ht
              obtain rfl := Option.some.inj ht
              rw [if_pos rfl, List.append_assoc, ← hadvance.pending, hadvance.call]
              exact h.decided i task htask
            · rw [List.getElem?_set_ne hij] at ht
              rw [if_neg hij, List.append_nil]
              exact h.decided j t ht
          · intro o ho
            change o.task < (self.tasks.set i task').length
            rw [List.length_set]
            rcases List.mem_append.mp ho with ho | ho
            · exact h.tasks o ho
            · rcases ended with _ | ⟨url, verdict⟩
              · cases ho
              · rw [Option.map_some, Option.toList_some, List.mem_singleton] at ho
                rw [ho]
                exact hi

theorem recorded_init (settings : DiscoverySettings) (local_url : Str) (environment : Environment) :
    (init settings local_url environment).Recorded := by
  apply recorded_start_call
  refine ⟨?_, ?_, ?_, ?_, ?_⟩
  · exact (newest_nil _).symm
  all_goals simp

/-- What is never written after the constructor. -/
theorem settings_step (self : PeerDiscovery) (e : DiscoveryEvent) :
    (self.step e).settings = self.settings ∧ (self.step e).environment = self.environment := by
  cases e with
  | calls call => exact ⟨rfl, rfl⟩
  | sets_local_url url => exact ⟨rfl, rfl⟩
  | runs i input =>
      rw [step]
      split <;> exact ⟨rfl, rfl⟩

theorem settings_run (self : PeerDiscovery) (events : List DiscoveryEvent) :
    (run step self events).settings = self.settings ∧
      (run step self events).environment = self.environment := by
  induction events generalizing self with
  | nil => exact ⟨rfl, rfl⟩
  | cons e rest ih =>
      obtain ⟨hsettings, henvironment⟩ := settings_step self e
      obtain ⟨hrest, hrest'⟩ := ih (self.step e)
      exact ⟨hrest.trans hsettings, hrest'.trans henvironment⟩

theorem advance_call (self : PeerDiscovery) (task : AddTask) (input : AddInput) :
    (self.advance task input).1.call = task.call := by
  cases input with
  | compares =>
      rw [advance]
      split
      · split_ifs <;> rfl
      · rfl
  | validates getaddrinfo =>
      rw [advance]
      split
      · split_ifs <;> rfl
      · rfl
  | locks =>
      rw [advance]
      split <;> rfl

/-- The tasks are the calls that were made. -/
theorem calls_step (self : PeerDiscovery) (e : DiscoveryEvent) :
    (self.step e).tasks.map (·.call) = self.tasks.map (·.call) ++ e.call?.toList := by
  cases e with
  | calls call => simp [step, start_call, DiscoveryEvent.call?]
  | sets_local_url url => simp [step, DiscoveryEvent.call?]
  | runs i input =>
      rw [step]
      cases htask : self.tasks[i]? with
      | none => simp [DiscoveryEvent.call?]
      | some task =>
          obtain ⟨hi, hget⟩ := List.getElem?_eq_some_iff.mp htask
          change (self.tasks.set i (self.advance task input).1).map (·.call) = _
          rw [List.map_set, advance_call]
          refine Eq.trans ?_ (List.append_nil _).symm
          apply List.ext_getElem?
          intro j
          by_cases hij : i = j
          · subst hij
            simp [hi, hget]
          · rw [List.getElem?_set_ne hij]

theorem calls_run (self : PeerDiscovery) (events : List DiscoveryEvent) :
    (run step self events).tasks.map (·.call)
      = self.tasks.map (·.call) ++ events.filterMap DiscoveryEvent.call? := by
  induction events generalizing self with
  | nil => simp [run]
  | cons e rest ih =>
      refine (ih (self.step e)).trans ?_
      rw [calls_step, List.append_assoc]
      congr 1
      cases h : e.call? with
      | none => rw [List.filterMap_cons_none h, Option.toList_none, List.nil_append]
      | some call => rw [List.filterMap_cons_some h, Option.toList_some, List.singleton_append]

omit [NetLibrary] in
/-- The property lists the table without the node's own URL. -/
theorem mem_known_urls {url : Str} :
    url ∈ self.known_urls ↔ url ∈ self.known_peers.keys ∧ url ≠ self.local_url := by
  have hperm : (self.known_peers.sorted.map Prod.fst).Perm self.known_peers.keys :=
    (List.perm_insertionSort _ self.known_peers.entries).map Prod.fst
  rw [known_urls, List.mem_filter, hperm.mem_iff]
  simp

/-- The table holds the most recent of the URLs that passed the checks. -/
structure MostRecent (settings : DiscoverySettings) (environment : Environment)
    (calls : List AddCall) (d : PeerDiscovery) : Prop where
  nodup : d.known_peers.keys.Nodup
  bounded : d.known_peers.keys.length ≤ settings.max_known_peers
  recent : d.known_peers.keys = newest settings.max_known_peers (added d.outcomes)
  /-- A URL is added if it passes the checks, and left out for the check it fails. -/
  right : ∀ o ∈ d.outcomes, Verdict.Right settings environment o.url o.verdict
  calls : d.tasks.map (·.call) = .bootstrap :: calls
  /-- A call decides its URLs in order; those beyond the limit of a message are none of
  them. -/
  complete : ∀ (i : ℕ) (task : AddTask), d.tasks[i]? = some task →
    decided d.outcomes i ++ pending task = task.call.urls settings
  newest : 0 < settings.max_known_peers → ∀ before url, added d.outcomes = before ++ [url] →
    d.known_peers.keys.getLast? = some url
  listed : ∀ url, url ∈ d.known_urls ↔ url ∈ d.known_peers.keys ∧ url ≠ d.local_url

/-- After any calls in any interleaving, the table holds the most recent distinct URLs
among those that were added. -/
theorem known_peers_most_recent (settings : DiscoverySettings) (local_url : Str)
    (environment : Environment) (events : List DiscoveryEvent) :
    MostRecent settings environment (events.filterMap DiscoveryEvent.call?)
      (run step (init settings local_url environment) events) := by
  have h : (run step (init settings local_url environment) events).Recorded :=
    @run_invariant _ _ (fun _ _ => True) step Recorded (fun _ e hd _ => recorded_step hd e) _
      (recorded_init settings local_url environment) _ (alwaysMeets_true step _ events)
  obtain ⟨hsettings, henvironment⟩ := settings_run (init settings local_url environment) events
  have hcalls := calls_run (init settings local_url environment) events
  generalize run step (init settings local_url environment) events = d at *
  obtain rfl : d.settings = settings := hsettings
  obtain rfl : d.environment = environment := henvironment
  refine ⟨d.known_peers.nodup, ?_, h.table, h.right, hcalls, h.decided, ?_, fun _ => mem_known_urls⟩
  · rw [h.table]
    exact length_newest_le _ _
  · intro hpos before url hadded
    rw [h.table, hadded]
    exact getLast?_newest_snoc hpos before url

end PeerDiscovery

end Code

end EasyBlockchain
