/-
`network/server.py`: what an address can do to the others.

A server has two limiters for all its connections. One counts the websockets of an
address, the other the frames of all connections of an address together, so that
closing and coming back gains nothing. What the server does with an address is
compared with a reaction that is computed from the history of that address: the
limiters are the only thing that connections have in common, and they keep the
addresses apart.

Whether `_handle_connection` finds room in the table is said by the event; the
table is shared, and `max_peers` is the limit there.
-/
import EasyBlockchain.RateLimit
import EasyBlockchain.PeerGate

set_option autoImplicit false

namespace EasyBlockchain

open Py Lib SlidingWindow

/-! ## The server and its traffic -/

/-- `RateLimitSettings` of `types.py`. -/
structure RateLimitSettings where
  max_connections_per_ip_per_minute : ℤ
  max_messages_per_peer_per_second : ℤ
  max_decode_errors_before_disconnect : ℤ

/-- The limiters of a `P2PServer`, and its connections, those with one
`rate_limit_key` in the order of their creation. -/
structure LimitedServer where
  rate_limit : RateLimitSettings
  peer_auth_enabled : Bool
  connection_limiter : SlidingWindowRateLimiter ℚ
  message_limiter : SlidingWindowRateLimiter ℚ
  connections : Str → List ListenState

/-- What reaches a server. A connection is named by its `rate_limit_key` and its
position among those with this key. -/
inductive TrafficEvent
  /-- a websocket is accepted; whether there is room in the table -/
  | connects (client_ip peer_id : Str) (room : Bool) (now : ℚ)
  /-- `connect_peer` dialed the host -/
  | dialed (host peer_id : Str)
  | frame (key : Str) (i : ℕ) (raw : Str) (now : ℚ)
  | authenticates (key : Str) (i : ℕ)
  /-- anyone calls `close` of a connection -/
  | closes (key : Str) (i : ℕ)
  /-- the loop of a `listen` task ends for another reason than a frame -/
  | ends (key : Str) (i : ℕ)

/-- What a server does about it. -/
inductive Reaction
  /-- a websocket, and whether the limit let it in -/
  | admits (client_ip : Str) (now : ℚ) (allowed : Bool)
  /-- a frame, whether the limit let it be decoded, and what came of it -/
  | reads (key : Str) (now : ℚ) (allowed : Bool) (reading : Reading)

namespace TrafficEvent

def key : TrafficEvent → Str
  | connects key _ _ _ | dialed key _ | frame key _ _ _ | authenticates key _ | closes key _
  | ends key _ => key

/-- The reading of `time.monotonic()`, where there is one. -/
def time : TrafficEvent → Option ℚ
  | connects _ _ _ now | frame _ _ _ now => some now
  | _ => none

end TrafficEvent

namespace Reaction

def key : Reaction → Str
  | admits key _ _ | reads key _ _ _ => key

/-- The call of the connection limiter. -/
def connection : Reaction → Option (Entry Str ℚ)
  | admits client_ip now allowed => some (.answered client_ip now allowed)
  | reads _ _ _ _ => none

/-- The call of the message limiter. -/
def message : Reaction → Option (Entry Str ℚ)
  | admits _ _ _ => none
  | reads key now allowed _ => some (.answered key now allowed)

end Reaction

namespace LimitedServer

/-- `P2PServer.__init__`. -/
def start (rate_limit : RateLimitSettings) (peer_auth_enabled : Bool) : LimitedServer where
  rate_limit := rate_limit
  peer_auth_enabled := peer_auth_enabled
  connection_limiter := .init rate_limit.max_connections_per_ip_per_minute 60
  message_limiter := .init rate_limit.max_messages_per_peer_per_second 1
  connections := fun _ => []

/-- The connections of one key act. -/
def update (self : LimitedServer) (key : Str) (act : List ListenState → List ListenState) :
    LimitedServer :=
  { self with connections := Function.update self.connections key (act (self.connections key)) }

/-- A new `PeerConnection` with its `listen` task. -/
def connect (self : LimitedServer) (key peer_id : Str) : LimitedServer :=
  self.update key (· ++ [ListenState.create peer_id self.peer_auth_enabled])

/-- `_handle_connection`, up to the start of the `listen` task. -/
def handle_connection (self : LimitedServer) (client_ip peer_id : Str) (room : Bool) (now : ℚ) :
    PyM (List Reaction × LimitedServer) := do
  let (allowed, connection_limiter) ← self.connection_limiter.allow client_ip now
  let self := { self with connection_limiter }
  let reactions := [.admits client_ip now allowed]
  if !allowed then return (reactions, self)
  if !room then return (reactions, self)
  return (reactions, self.connect client_ip peer_id)

section Steps

variable [Runtime]

/-- One round of the loop of `listen`. -/
def receive (self : LimitedServer) (key : Str) (i : ℕ) (raw : Str) (now : ℚ) :
    PyM (List Reaction × LimitedServer) :=
  match (self.connections key)[i]? with
  | none => .ok ([], self)
  | some connection =>
    if connection.listening then do
      let (allowed, message_limiter) ← self.message_limiter.allow key now
      let (reading, connection) :=
        connection.read self.rate_limit.max_decode_errors_before_disconnect raw allowed
      let self := { self with message_limiter }
      return ([.reads key now allowed reading], self.update key (·.modify i fun _ => connection))
    else .ok ([], self)

def step (self : LimitedServer) : TrafficEvent → PyM (List Reaction × LimitedServer)
  | .connects client_ip peer_id room now => self.handle_connection client_ip peer_id room now
  | .dialed host peer_id => .ok ([], self.connect host peer_id)
  | .frame key i raw now => self.receive key i raw now
  | .authenticates key i => .ok ([], self.update key (·.modify i ListenState.mark_authenticated))
  | .closes key i => .ok ([], self.update key (·.modify i ListenState.close))
  | .ends key i => .ok ([], self.update key (·.modify i ListenState.finish))

/-- The events one after the other, and everything the server does. -/
def run (self : LimitedServer) : List TrafficEvent → PyM (List Reaction × LimitedServer)
  | [] => .ok ([], self)
  | event :: rest => do
    let (reactions, after) ← self.step event
    let (trace, last) ← after.run rest
    return (reactions ++ trace, last)

/-! ## The reaction to one address -/

/-- The calls of the connection limiter in a history. -/
def admissions (trace : List Reaction) : List (Entry Str ℚ) := trace.filterMap Reaction.connection

/-- The calls of the message limiter in a history. -/
def readings (trace : List Reaction) : List (Entry Str ℚ) := trace.filterMap Reaction.message

/-- The answer of the limit after a history. -/
def answer (limit : ℤ) (window : ℚ) (log : List (Entry Str ℚ)) (key : Str) (now : ℚ) : Bool :=
  decide (((recent window key log now).length : ℤ) < limit)

/-- The reaction to an event, from the history and the connections of its key. -/
def react (rate_limit : RateLimitSettings) (peer_auth_enabled : Bool) (trace : List Reaction)
    (connections : List ListenState) : TrafficEvent → List Reaction × List ListenState
  | .connects client_ip peer_id room now =>
    let allowed := answer rate_limit.max_connections_per_ip_per_minute 60 (admissions trace)
      client_ip now
    ([.admits client_ip now allowed],
      if allowed && room then connections ++ [ListenState.create peer_id peer_auth_enabled]
      else connections)
  | .dialed _ peer_id => ([], connections ++ [ListenState.create peer_id peer_auth_enabled])
  | .frame key i raw now =>
    match connections[i]? with
    | none => ([], connections)
    | some connection =>
      if connection.listening then
        let allowed := answer rate_limit.max_messages_per_peer_per_second 1 (readings trace) key now
        let read := connection.read rate_limit.max_decode_errors_before_disconnect raw allowed
        ([.reads key now allowed read.1], connections.modify i fun _ => read.2)
      else ([], connections)
  | .authenticates _ i => ([], connections.modify i ListenState.mark_authenticated)
  | .closes _ i => ([], connections.modify i ListenState.close)
  | .ends _ i => ([], connections.modify i ListenState.finish)

/-- The reaction of a server with this history. -/
def reaction (self : LimitedServer) (trace : List Reaction) (event : TrafficEvent) :
    List Reaction × List ListenState :=
  react self.rate_limit self.peer_auth_enabled trace (self.connections event.key) event

end Steps

/-! ## The limiters and the history -/

section Limits

/-- A limiter after its calls, the last of them not after `clock`. -/
structure Counted (limiter : SlidingWindowRateLimiter ℚ) (limit : ℤ) (window : ℚ)
    (log : List (Entry Str ℚ)) (clock : ℚ) : Prop where
  tracks : limiter.Tracks log clock
  max_events : limiter.max_events = limit
  window_seconds : limiter.window_seconds = window
  follows : SlidingWindow.Follows limit window log
  uncleared : ∀ key, .cleared key ∉ log
  ordered : ∀ key, (asked_times key log).Pairwise (· ≤ ·)
  past : ∀ key, ∀ t ∈ asked_times key log, t ≤ clock

variable {limiter : SlidingWindowRateLimiter ℚ} {limit : ℤ} {window clock now : ℚ}
  {log : List (Entry Str ℚ)} {key : Str}

theorem counted_init (limit : ℤ) (window clock : ℚ) :
    Counted (.init limit window) limit window [] clock where
  tracks := SlidingWindowRateLimiter.tracks_init clock limit window
  max_events := rfl
  window_seconds := rfl
  follows := follows_nil
  uncleared := fun _ => List.not_mem_nil
  ordered := fun _ => List.Pairwise.nil
  past := fun _ _ ht => absurd ht List.not_mem_nil

theorem Counted.later (h : Counted limiter limit window log clock) (hnow : clock ≤ now) :
    Counted limiter limit window log now :=
  { h with
    tracks := h.tracks.later hnow
    past := fun key t ht => le_trans (h.past key t ht) hnow }

theorem Counted.prune (h : Counted limiter limit window log clock) (hnow : clock ≤ now) :
    ∃ pruned, limiter.prune_stale_keys now = .ok pruned ∧
      Counted pruned limit window log now := by
  obtain ⟨pruned, hprune, htracks, hmax, hwindow⟩ := h.tracks.prune hnow
  exact ⟨pruned, hprune, { h.later hnow with
    tracks := htracks
    max_events := hmax.trans h.max_events
    window_seconds := hwindow.trans h.window_seconds }⟩

theorem asked_times_snoc (key k : Str) (log : List (Entry Str ℚ)) (now : ℚ) (allowed : Bool) :
    asked_times k (log ++ [.answered key now allowed])
      = asked_times k log ++ if key = k then [now] else [] := by
  by_cases hk : key = k
  · simp [asked_times, Entry.ask, hk]
  · simp [asked_times, Entry.ask, hk]

/-- A call gets the answer of the limit. -/
theorem Counted.allow (h : Counted limiter limit window log clock) (hnow : clock ≤ now)
    (key : Str) : ∃ after, limiter.allow key now = .ok (answer limit window log key now, after) ∧
      Counted after limit window
        (log ++ [.answered key now (answer limit window log key now)]) now := by
  obtain ⟨pruned, hprune, hpruned⟩ := h.prune hnow
  obtain ⟨hanswer, hafter, hmax, hwindow⟩ := hpruned.tracks.allow_unpruned key
  rw [hpruned.max_events] at hanswer hmax
  rw [hpruned.window_seconds] at hanswer hwindow
  have hsame : (pruned.allow_unpruned key now).1 = answer limit window log key now := by
    rw [Bool.eq_iff_iff, hanswer, answer, decide_eq_true_eq]
  rw [hsame] at hafter
  have hlast : ∀ k, ∀ t ∈ (if key = k then [now] else []), t = now := by
    intro k t ht
    split_ifs at ht with hk
    · exact List.mem_singleton.mp ht
    · exact absurd ht List.not_mem_nil
  refine ⟨(pruned.allow_unpruned key now).2, ?_, hafter, hmax, hwindow, ?_, ?_, ?_, ?_⟩
  · rw [SlidingWindowRateLimiter.allow, hprune, ok_bind, ← hsame]
    rfl
  · refine h.follows.snoc ?_
    intro k t allowed heq
    obtain ⟨rfl, rfl, rfl⟩ := Entry.answered.inj heq
    rw [answer, decide_eq_true_eq]
  · intro k hk
    rcases List.mem_append.mp hk with hk | hk
    · exact h.uncleared k hk
    · cases List.mem_singleton.mp hk
  · intro k
    rw [asked_times_snoc]
    refine List.pairwise_append.mpr ⟨h.ordered k, ?_, ?_⟩
    · split_ifs
      · exact List.pairwise_singleton _ _
      · exact List.Pairwise.nil
    · intro t ht u hu
      rw [hlast k u hu]
      exact le_trans (h.past k t ht) hnow
  · intro k t ht
    rw [asked_times_snoc] at ht
    rcases List.mem_append.mp ht with ht | ht
    · exact le_trans (h.past k t ht) hnow
    · exact (hlast k t ht).le

theorem Counted.window_bound (h : Counted limiter limit window log clock) (key : Str) (t : ℚ) :
    (((allowed_times key log).filter fun u => t ≤ u ∧ u ≤ t + window).length : ℤ)
      ≤ max limit 0 := by
  have hwhole : log = [] ++ log ++ [] := by simp
  refine h.follows.max_zero.window_bound (le_max_right limit 0) hwhole ?_ t
  intro e he heq
  exact h.uncleared key (heq ▸ he)

/-- The answer to one address is found in its own part of the history. -/
theorem answer_filter (limit : ℤ) (window : ℚ) (log : List (Entry Str ℚ)) (key : Str) (now : ℚ) :
    answer limit window (log.filter (·.key = key)) key now = answer limit window log key now := by
  rw [answer, recent, since_filter, ← recent, ← answer]

/-- Both limiters have counted what the server did. -/
structure Counts (server : LimitedServer) (trace : List Reaction) (clock : ℚ) : Prop where
  connections : Counted server.connection_limiter
    server.rate_limit.max_connections_per_ip_per_minute 60 (admissions trace) clock
  messages : Counted server.message_limiter
    server.rate_limit.max_messages_per_peer_per_second 1 (readings trace) clock

theorem counts_start (rate_limit : RateLimitSettings) (peer_auth_enabled : Bool) (clock : ℚ) :
    (start rate_limit peer_auth_enabled).Counts [] clock :=
  ⟨counted_init _ _ _, counted_init _ _ _⟩

theorem admissions_append (trace reactions : List Reaction) :
    admissions (trace ++ reactions) = admissions trace ++ admissions reactions :=
  List.filterMap_append

theorem readings_append (trace reactions : List Reaction) :
    readings (trace ++ reactions) = readings trace ++ readings reactions :=
  List.filterMap_append

theorem filterMap_filter_key {f : Reaction → Option (Entry Str ℚ)}
    (hf : ∀ r e, f r = some e → e.key = r.key) (trace : List Reaction) (key : Str) :
    (trace.filter (·.key = key)).filterMap f = (trace.filterMap f).filter (·.key = key) := by
  rw [List.filterMap_filter, List.filter_filterMap]
  congr 1
  funext r
  cases he : f r with
  | none => simp
  | some e =>
      by_cases hk : r.key = key
      · simp [Option.filter, hf r e he, hk]
      · simp [Option.filter, hf r e he, hk]

theorem admissions_filter (trace : List Reaction) (key : Str) :
    admissions (trace.filter (·.key = key)) = (admissions trace).filter (·.key = key) := by
  refine filterMap_filter_key ?_ trace key
  intro r e h
  cases r with
  | admits client_ip now allowed =>
      rw [← Option.some.inj h]
      rfl
  | reads k now allowed reading => cases h

theorem readings_filter (trace : List Reaction) (key : Str) :
    readings (trace.filter (·.key = key)) = (readings trace).filter (·.key = key) := by
  refine filterMap_filter_key ?_ trace key
  intro r e h
  cases r with
  | admits client_ip now allowed => cases h
  | reads k now allowed reading =>
      rw [← Option.some.inj h]
      rfl

theorem Counts.later {server : LimitedServer} {trace : List Reaction}
    (h : server.Counts trace clock) (hnow : clock ≤ now) : server.Counts trace now :=
  ⟨h.connections.later hnow, h.messages.later hnow⟩

end Limits

/-! ## Runs -/

section Runs

variable [Runtime] {server alone : LimitedServer} {trace : List Reaction} {clock : ℚ}
  {event : TrafficEvent}

/-- Another server, with the limits of this one. -/
structure SameSettings (server alone : LimitedServer) : Prop where
  rate_limit : alone.rate_limit = server.rate_limit
  peer_auth_enabled : alone.peer_auth_enabled = server.peer_auth_enabled

omit [Runtime] in
theorem SameSettings.trans {other : LimitedServer} (h : SameSettings server alone)
    (h' : SameSettings alone other) : SameSettings server other :=
  ⟨h'.rate_limit.trans h.rate_limit, h'.peer_auth_enabled.trans h.peer_auth_enabled⟩

omit [Runtime] in
theorem SameSettings.symm (h : SameSettings server alone) : SameSettings alone server :=
  ⟨h.rate_limit.symm, h.peer_auth_enabled.symm⟩

/-- The reaction to an event is the one computed from the history; the other keys keep
their connections. -/
structure Reacts (server : LimitedServer) (trace : List Reaction) (clock : ℚ) (event : TrafficEvent)
    (after : LimitedServer) : Prop where
  step : server.step event = .ok ((server.reaction trace event).1, after)
  connections : after.connections
    = Function.update server.connections event.key (server.reaction trace event).2
  settings : SameSettings server after
  counts : after.Counts (trace ++ (server.reaction trace event).1) (event.time.getD clock)

/-- An event that asks no limiter. -/
theorem Counts.reacts_update (h : server.Counts trace clock)
    {act : List ListenState → List ListenState}
    (hstep : server.step event = .ok ([], server.update event.key act))
    (hreact : server.reaction trace event = ([], act (server.connections event.key)))
    (htime : clock ≤ event.time.getD clock) :
    server.Reacts trace clock event (server.update event.key act) := by
  refine ⟨?_, ?_, ⟨rfl, rfl⟩, ?_⟩
  · rw [hreact]
    exact hstep
  · rw [hreact]
    rfl
  · rw [hreact, List.append_nil]
    exact ⟨(h.later htime).connections, (h.later htime).messages⟩

theorem Counts.connects (h : server.Counts trace clock) {now : ℚ} (hnow : clock ≤ now)
    (client_ip peer_id : Str) (room : Bool) :
    ∃ after, server.Reacts trace clock (.connects client_ip peer_id room now) after := by
  obtain ⟨limiter, hallow, hcounted⟩ := h.connections.allow hnow client_ip
  have hstep : server.step (.connects client_ip peer_id room now)
      = server.handle_connection client_ip peer_id room now := rfl
  rw [handle_connection, hallow, ok_bind] at hstep
  generalize hallowed : answer server.rate_limit.max_connections_per_ip_per_minute 60
    (admissions trace) client_ip now = allowed at hstep hcounted
  have hreact : server.reaction trace (.connects client_ip peer_id room now)
      = ([.admits client_ip now allowed],
        if allowed && room then
          server.connections client_ip ++ [ListenState.create peer_id server.peer_auth_enabled]
        else server.connections client_ip) := by
    rw [reaction, react, TrafficEvent.key, hallowed]
  have hcounts : ∀ after : LimitedServer, after.connection_limiter = limiter →
      after.message_limiter = server.message_limiter → after.rate_limit = server.rate_limit →
      after.Counts (trace ++ [.admits client_ip now allowed]) now := by
    intro after hlimiter hmessages hsettings
    refine ⟨?_, ?_⟩
    · rw [hlimiter, hsettings, admissions_append]
      exact hcounted
    · rw [hmessages, hsettings, readings_append]
      exact (List.append_nil (readings trace)).symm ▸ (h.messages.later hnow)
  by_cases hin : allowed = true ∧ room = true
  · obtain ⟨rfl, rfl⟩ := hin
    have hlet : server.step (.connects client_ip peer_id true now) = .ok
        ([.admits client_ip now true],
          { server with connection_limiter := limiter }.connect client_ip peer_id) := hstep
    refine ⟨_, ⟨by rw [hreact, hlet], ?_, ?_, ?_⟩⟩
    · rw [hreact]
      rfl
    · exact ⟨rfl, rfl⟩
    · rw [hreact]
      exact hcounts _ rfl rfl rfl
  · have hkept : server.step (.connects client_ip peer_id room now)
        = .ok ([.admits client_ip now allowed], { server with connection_limiter := limiter }) := by
      rw [hstep]
      cases allowed with
      | false => rfl
      | true =>
          cases room with
          | false => rfl
          | true => exact absurd ⟨rfl, rfl⟩ hin
    rw [← Bool.and_eq_true] at hin
    rw [if_neg hin] at hreact
    refine ⟨_, ⟨by rw [hreact, hkept], ?_, ?_, ?_⟩⟩
    · rw [hreact]
      exact (Function.update_eq_self _ _).symm
    · exact ⟨rfl, rfl⟩
    · rw [hreact]
      exact hcounts _ rfl rfl rfl

theorem Counts.frame (h : server.Counts trace clock) {now : ℚ} (hnow : clock ≤ now)
    (key : Str) (i : ℕ) (raw : Str) :
    ∃ after, server.Reacts trace clock (.frame key i raw now) after := by
  have hstep : server.step (.frame key i raw now) = server.receive key i raw now := rfl
  -- a frame of a connection that is not read changes nothing
  have hignored : server.receive key i raw now = .ok ([], server) →
      server.reaction trace (.frame key i raw now) = ([], server.connections key) →
      ∃ after, server.Reacts trace clock (.frame key i raw now) after := by
    intro hreceive hreact
    have hsame : server.update key id = server := by
      rw [update, id, Function.update_eq_self]
    have hnothing : server.step (.frame key i raw now) = .ok ([], server.update key id) := by
      rw [hstep, hreceive, hsame]
    exact ⟨_, h.reacts_update hnothing hreact hnow⟩
  cases hconnection : (server.connections key)[i]? with
  | none =>
      exact hignored (by rw [receive, hconnection])
        (by rw [reaction, react, TrafficEvent.key, hconnection])
  | some connection =>
      by_cases hlistening : connection.listening = true
      · obtain ⟨limiter, hallow, hcounted⟩ := h.messages.allow hnow key
        generalize hallowed : answer server.rate_limit.max_messages_per_peer_per_second 1
          (readings trace) key now = allowed at hallow hcounted
        have hreact : server.reaction trace (.frame key i raw now)
            = ([.reads key now allowed (connection.read
                server.rate_limit.max_decode_errors_before_disconnect raw allowed).1],
              (server.connections key).modify i fun _ => (connection.read
                server.rate_limit.max_decode_errors_before_disconnect raw allowed).2) := by
          rw [reaction, react, TrafficEvent.key, hconnection, ← hallowed]
          exact if_pos hlistening
        rw [receive, hconnection] at hstep
        dsimp only at hstep
        rw [if_pos hlistening, hallow, ok_bind] at hstep
        refine ⟨_, ⟨by rw [hreact, hstep]; rfl, ?_, ?_, ?_⟩⟩
        · rw [hreact]
          rfl
        · exact ⟨rfl, rfl⟩
        · rw [hreact]
          refine ⟨?_, ?_⟩
          · rw [admissions_append]
            exact (List.append_nil (admissions trace)).symm ▸ (h.connections.later hnow)
          · rw [readings_append]
            exact hcounted
      · exact hignored (by rw [receive, hconnection]; exact if_neg hlistening)
          (by rw [reaction, react, TrafficEvent.key, hconnection]; exact if_neg hlistening)

/-- Every event gets the reaction computed from the history. -/
theorem Counts.step (h : server.Counts trace clock)
    (htime : ∀ t, event.time = some t → clock ≤ t) :
    ∃ after, server.Reacts trace clock event after := by
  cases event with
  | connects client_ip peer_id room now => exact h.connects (htime now rfl) client_ip peer_id room
  | dialed host peer_id => exact ⟨_, h.reacts_update rfl rfl (le_refl clock)⟩
  | frame key i raw now => exact h.frame (htime now rfl) key i raw
  | authenticates key i => exact ⟨_, h.reacts_update rfl rfl (le_refl clock)⟩
  | closes key i => exact ⟨_, h.reacts_update rfl rfl (le_refl clock)⟩
  | ends key i => exact ⟨_, h.reacts_update rfl rfl (le_refl clock)⟩

theorem mem_reaction {r : Reaction} (h : r ∈ (server.reaction trace event).1) :
    r.key = event.key := by
  rw [reaction] at h
  cases event with
  | connects client_ip peer_id room now =>
      rw [List.mem_singleton.mp h]
      rfl
  | frame key i raw now =>
      rw [react] at h
      split at h
      · exact absurd h List.not_mem_nil
      · split_ifs at h
        · rw [List.mem_singleton.mp h]
          rfl
        · exact absurd h List.not_mem_nil
  | _ => exact absurd h List.not_mem_nil

/-- Only the history of its own address counts for an event. -/
theorem react_filter (rate_limit : RateLimitSettings) (peer_auth_enabled : Bool)
    (trace : List Reaction) (connections : List ListenState) (event : TrafficEvent) :
    react rate_limit peer_auth_enabled (trace.filter (·.key = event.key)) connections event
      = react rate_limit peer_auth_enabled trace connections event := by
  cases event with
  | connects client_ip peer_id room now =>
      rw [react, react, admissions_filter, TrafficEvent.key, answer_filter]
  | frame key i raw now => rw [react, react, readings_filter, TrafficEvent.key, answer_filter]
  | _ => rfl

omit [Runtime] in
/-- The times go on from the time of the first event, where it has one. -/
theorem times_cons {rest : List TrafficEvent}
    (h : (clock :: (event :: rest).filterMap TrafficEvent.time).Pairwise (· ≤ ·)) :
    (∀ t, event.time = some t → clock ≤ t) ∧
      (event.time.getD clock :: rest.filterMap TrafficEvent.time).Pairwise (· ≤ ·) := by
  cases htime : event.time with
  | none =>
      rw [List.filterMap_cons_none htime] at h
      exact ⟨fun t ht => absurd ht (by simp), h⟩
  | some now =>
      rw [List.filterMap_cons_some htime, List.pairwise_cons] at h
      refine ⟨?_, h.2⟩
      intro t ht
      exact Option.some.inj ht ▸ h.1 now List.mem_cons_self

theorem run_cons {after last : LimitedServer} {reactions others : List Reaction}
    {rest : List TrafficEvent} (hstep : server.step event = .ok (reactions, after))
    (hrest : after.run rest = .ok (others, last)) :
    server.run (event :: rest) = .ok (reactions ++ others, last) := by
  rw [LimitedServer.run, hstep, ok_bind]
  dsimp only
  rw [hrest]
  rfl

/-- No event raises, and the limiters count all of them. -/
theorem Counts.run (h : server.Counts trace clock) {events : List TrafficEvent}
    (htimes : (clock :: events.filterMap TrafficEvent.time).Pairwise (· ≤ ·)) :
    ∃ reactions last later, server.run events = .ok (reactions, last) ∧
      last.Counts (trace ++ reactions) later ∧ SameSettings server last := by
  induction events generalizing server trace clock with
  | nil => exact ⟨[], server, clock, rfl, by rwa [List.append_nil], rfl, rfl⟩
  | cons event rest ih =>
      obtain ⟨htime, hrest⟩ := times_cons htimes
      obtain ⟨after, hreacts⟩ := h.step htime
      obtain ⟨reactions, last, later, hrun, hcounts, hsettings⟩ := ih hreacts.counts hrest
      refine ⟨_, last, later, run_cons hreacts.step hrun, ?_, hreacts.settings.trans hsettings⟩
      rw [← List.append_assoc]
      exact hcounts

/-- A server that hears one address only does for it what a server does that hears
the others as well. The induction is on the events; those of the other addresses
change neither the connections of this one nor its part of the history. -/
theorem Counts.run_alone {key : Str} (h : server.Counts trace clock)
    (halone : alone.Counts (trace.filter (·.key = key)) clock)
    (hsettings : SameSettings server alone)
    (hsame : alone.connections key = server.connections key) {events : List TrafficEvent}
    (htimes : (clock :: events.filterMap TrafficEvent.time).Pairwise (· ≤ ·))
    {reactions : List Reaction} {last : LimitedServer}
    (hrun : server.run events = .ok (reactions, last)) :
    ∃ last', alone.run (events.filter (·.key = key))
      = .ok (reactions.filter (·.key = key), last') := by
  induction events generalizing server alone trace clock reactions with
  | nil =>
      rw [LimitedServer.run] at hrun
      obtain ⟨rfl, -⟩ := Prod.mk.inj (Except.ok.inj hrun)
      exact ⟨alone, rfl⟩
  | cons event rest ih =>
      obtain ⟨htime, hrest⟩ := times_cons htimes
      obtain ⟨after, hreacts⟩ := h.step htime
      rw [LimitedServer.run, hreacts.step, ok_bind] at hrun
      obtain ⟨⟨others, last'⟩, hothers, hrun⟩ := bind_eq_ok.mp hrun
      obtain ⟨rfl, rfl⟩ := Prod.mk.inj (Except.ok.inj hrun)
      have hafter : (trace ++ (server.reaction trace event).1).filter (·.key = key)
          = trace.filter (·.key = key) ++ (server.reaction trace event).1.filter (·.key = key) :=
        List.filter_append ..
      by_cases hkey : event.key = key
      · subst hkey
        obtain ⟨after', hreacts'⟩ := halone.step htime
        -- both servers react alike, and go on with the same connections
        have hreaction : alone.reaction (trace.filter (·.key = event.key)) event
            = server.reaction trace event := by
          rw [reaction, hsettings.rate_limit, hsettings.peer_auth_enabled, hsame, react_filter,
            reaction]
        have hown : (server.reaction trace event).1.filter (·.key = event.key)
            = (server.reaction trace event).1 :=
          List.filter_eq_self.mpr fun r hr => decide_eq_true (mem_reaction hr)
        have hcounts : after'.Counts ((trace ++ (server.reaction trace event).1).filter
            (·.key = event.key)) (event.time.getD clock) := by
          rw [hafter, hown, ← hreaction]
          exact hreacts'.counts
        have hagain : SameSettings after after' :=
          hreacts.settings.symm.trans (hsettings.trans hreacts'.settings)
        have hstill : after'.connections event.key = after.connections event.key := by
          rw [hreacts'.connections, hreacts.connections, hreaction, Function.update_self,
            Function.update_self]
        obtain ⟨last'', hlast⟩ := ih hreacts.counts hcounts hagain hstill hrest hothers
        refine ⟨last'', ?_⟩
        rw [List.filter_cons_of_pos (by simp), run_cons hreacts'.step hlast, hreaction,
          List.filter_append, hown]
      · have hnone : (server.reaction trace event).1.filter (·.key = key) = [] := by
          refine List.filter_eq_nil_iff.mpr ?_
          intro r hr
          rw [mem_reaction hr]
          simpa using hkey
        have hlater : clock ≤ event.time.getD clock := by
          cases hnow : event.time with
          | none => exact le_refl clock
          | some now => exact htime now hnow
        rw [List.filter_cons_of_neg (by simpa using hkey), List.filter_append, hnone]
        refine ih hreacts.counts ?_ ?_ ?_ hrest hothers
        · rw [hafter, hnone, List.append_nil]
          exact halone.later hlater
        · exact hreacts.settings.symm.trans hsettings
        · rw [hreacts.connections, Function.update_of_ne (Ne.symm hkey)]
          exact hsame

/-- What an address gets from a server in a run. -/
structure Contained (rate_limit : RateLimitSettings) (peer_auth_enabled : Bool)
    (events : List TrafficEvent) (trace : List Reaction) (key : Str) : Prop where
  /-- The others might as well not be there. -/
  alone : ∃ last, (start rate_limit peer_auth_enabled).run (events.filter (·.key = key))
    = .ok (trace.filter (·.key = key), last)
  /-- Its websockets are let in at the limit. -/
  connections : ∀ t, (((allowed_times key (admissions trace)).filter
    fun u => t ≤ u ∧ u ≤ t + 60).length : ℤ) ≤ max rate_limit.max_connections_per_ip_per_minute 0
  /-- The frames of all its connections together are decoded at the limit. -/
  messages : ∀ t, (((allowed_times key (readings trace)).filter
    fun u => t ≤ u ∧ u ≤ t + 1).length : ℤ) ≤ max rate_limit.max_messages_per_peer_per_second 0
  /-- It is not turned away as long as it stays within the limit itself. -/
  admitted : (∀ t, (((asked_times key (admissions trace)).filter
      fun u => t ≤ u ∧ u ≤ t + 60).length : ℤ) ≤ rate_limit.max_connections_per_ip_per_minute) →
    ∀ now allowed, .admits key now allowed ∈ trace → allowed = true
  heard : (∀ t, (((asked_times key (readings trace)).filter
      fun u => t ≤ u ∧ u ≤ t + 1).length : ℤ) ≤ rate_limit.max_messages_per_peer_per_second) →
    ∀ now allowed reading, .reads key now allowed reading ∈ trace → allowed = true

end Runs

end LimitedServer

/-! ## An address that sends too much -/

namespace TwoAddresses

attribute [local instance] cpython

def rate_limit : RateLimitSettings := ⟨2, 2, 5⟩

def noisy : Str := lit "10.0.0.1"

def quiet : Str := lit "10.0.0.2"

def ping : Str := lit "\x7b\"type\": \"PING\"\x7d"

/-- Three frames over two connections of one address, then a frame of another. -/
def traffic : List TrafficEvent :=
  [.connects noisy (lit "a") true 0, .connects noisy (lit "b") true 0,
    .connects quiet (lit "c") true 0, .frame noisy 0 ping 1, .frame noisy 1 ping 1,
    .frame noisy 0 ping 1, .frame quiet 0 ping 1]

end TwoAddresses

end EasyBlockchain
