/-
`network/server.py`: the two tables of a `P2PServer`, under every order of
accepting, dialing, timing out and closing.

The events are the stretches of a task between two points where the event loop
may run another one. `_peer_lock` is held only inside such a stretch, so it is
free whenever a task comes to ask for it (`Inv.unlocked`), and entering the lock
does not suspend: a dialed connection is in the table before its `listen` task
takes its first step. That is the argument why a connection whose `listen` task
has ended is never found in the table.
-/
import EasyBlockchain.Py.StrDict
import EasyBlockchain.Lib.Run
import Mathlib.Tactic.Linarith

set_option autoImplicit false

namespace EasyBlockchain

open Py Lib

/-! ## Tasks -/

/-- Where the `listen` task of a connection is. -/
inductive ListenPoint
  | running
  /-- in its `finally`, closing the websocket -/
  | closing
  | finished
  deriving DecidableEq

/-- A `PeerConnection`, and whether `connect_peer` turned it away. -/
structure Connection where
  peer_id : Str
  closed : Bool
  authenticated : Bool
  listen : ListenPoint
  rejected : Bool
  deriving DecidableEq

/-- Where a `_handle_connection` is suspended, after it registered its
connection. -/
inductive HandlerPoint
  /-- waits for the first of the `listen` task and the authentication -/
  | handshake
  /-- closed the connection after the timeout, waits for the `listen` task -/
  | closing
  /-- waits for the `listen` task -/
  | listening
  | done
  deriving DecidableEq

/-- A task of `_handle_connection`; the connection is named by its position. -/
structure Handler where
  connection : ℕ
  point : HandlerPoint
  deriving DecidableEq

/-- Where a `connect_peer` is suspended. -/
inductive CallPoint
  | resolving
  | dialing
  /-- connected, waits for the lock -/
  | registering (i : ℕ)
  /-- closes a connection there is no room for -/
  | rejecting (i : ℕ)
  | returned (peer_id : Option Str)
  | raised
  deriving DecidableEq

/-- A call of `connect_peer`. -/
structure Call where
  url : Str
  point : CallPoint
  deriving DecidableEq

/-- What `P2PServer` reads of its settings; `rejects_plain` is
`rejects_plain_websocket(settings.tls.enabled, environment)`. -/
structure ServerSettings where
  max_peers : ℤ
  peer_auth_enabled : Bool
  rejects_plain : Bool

/-- The tables of a server and every task it started, in the order of their
creation. `peers` finds a connection by its position. -/
structure P2PServer where
  settings : ServerSettings
  peers : StrDict ℕ
  peer_urls : StrDict Str
  peer_lock : Bool
  connections : List Connection
  handlers : List Handler
  calls : List Call

/-- What happens to a server between two points where the event loop may run
something else. -/
inductive ServerEvent
  /-- a websocket is accepted; whether the rate limiter allows it -/
  | accepts (peer_id : Str) (allowed : Bool)
  /-- `connect_peer` is called -/
  | connect_peer (url : Str)
  /-- `resolve_peer_connect_target` returns to a call -/
  | resolved (call : ℕ) (found : Bool)
  /-- `connect_to_peer` returns to a call -/
  | connected (call : ℕ) (peer_id : Str)
  /-- a call that waits for the lock goes on -/
  | registers (call : ℕ)
  /-- the resolution, the dialing or the closing of a rejected connection raises -/
  | call_fails (call : ℕ)
  /-- the rejected connection of a call is closed -/
  | call_closed (call : ℕ)
  /-- the loop of a `listen` task ends, for whatever reason -/
  | listen_ends (i : ℕ)
  /-- a `listen` task calls `_handle_peer_closed` and ends -/
  | on_closed (i : ℕ)
  | authenticates (i : ℕ)
  /-- anyone calls `close` of a connection -/
  | closes (i : ℕ)
  /-- a handler sees the authentication -/
  | handshake_done (handler : ℕ)
  | handshake_timeout (handler : ℕ)
  /-- a handler sees the end of its `listen` task, or is cancelled -/
  | handler_ends (handler : ℕ) (cancelled : Bool)
  /-- `stop` clears the tables -/
  | clears

namespace P2PServer

/-! ## The parts of the methods -/

def start (settings : ServerSettings) : P2PServer where
  settings := settings
  peers := .empty
  peer_urls := .empty
  peer_lock := false
  connections := []
  handlers := []
  calls := []

/-- `async with self._peer_lock` around a body that does not await; where the lock
is held, the task has to wait. -/
def with_lock {α : Type} (self : P2PServer) (body : P2PServer → P2PServer × α) :
    Option (P2PServer × α) :=
  if self.peer_lock then none
  else
    let (self, a) := body { self with peer_lock := true }
    some ({ self with peer_lock := false }, a)

/-- `len(self.peers) >= self.settings.max_peers`. -/
def full (self : P2PServer) : Bool := self.settings.max_peers ≤ self.peers.entries.length

/-- `PeerConnection(peer_id, ...)`. -/
def new_connection (self : P2PServer) (peer_id : Str) : Connection :=
  ⟨peer_id, false, !self.settings.peer_auth_enabled, .running, false⟩

/-- An identifier that a connection has. -/
def knows (self : P2PServer) (peer_id : Str) : Bool :=
  self.connections.any (·.peer_id = peer_id)

def update (self : P2PServer) (i : ℕ) (act : Connection → Connection) : P2PServer :=
  { self with connections := self.connections.modify i act }

def suspend_call (self : P2PServer) (call : ℕ) (point : CallPoint) : P2PServer :=
  { self with calls := self.calls.modify call fun c => { c with point := point } }

def suspend_handler (self : P2PServer) (handler : ℕ) (point : HandlerPoint) : P2PServer :=
  { self with handlers := self.handlers.modify handler fun h => { h with point := point } }

/-- The two `pop`s, which `_handle_peer_closed` and the `finally` of
`_handle_connection` have. -/
def unregister (self : P2PServer) (peer_id : Str) : P2PServer :=
  { self with peers := self.peers.pop peer_id, peer_urls := self.peer_urls.pop peer_id }

/-- `_handle_connection` up to its first `await`; `uuid4` draws no identifier
twice. -/
def handle_connection (self : P2PServer) (peer_id : Str) (allowed : Bool) : P2PServer :=
  if !allowed || self.knows peer_id then self
  else
    let register (self : P2PServer) : P2PServer × Option ℕ :=
      if self.full then (self, none)
      else
        ({ self with
            peers := self.peers.set peer_id self.connections.length
            connections := self.connections ++ [self.new_connection peer_id] },
          some self.connections.length)
    match self.with_lock register with
    | none => self
    | some (self, none) => self
    | some (self, some i) =>
      let point := if self.settings.peer_auth_enabled then .handshake else .listening
      { self with handlers := self.handlers ++ [⟨i, point⟩] }

/-- `connect_peer` up to its first `await`. -/
def connect_peer (self : P2PServer) (url : Str) : P2PServer :=
  let call (self : P2PServer) (point : CallPoint) : P2PServer :=
    { self with calls := self.calls ++ [⟨url, point⟩] }
  let plain := (lit "ws://").isPrefixOf url
  if !plain && !(lit "wss://").isPrefixOf url then call self (.returned none)
  else if plain && self.settings.rejects_plain then call self (.returned none)
  else
    match self.with_lock fun self => (self, self.full) with
    | none => self
    | some (self, true) => call self (.returned none)
    | some (self, false) => call self .resolving

/-- The second lock of `connect_peer`: room for the connection, or `peer.close()`. -/
def register (self : P2PServer) (call : ℕ) (url : Str) (i : ℕ) (peer_id : Str) : P2PServer :=
  let body (self : P2PServer) : P2PServer × Bool :=
    if self.full then (self, true)
    else
      ({ self with
          peers := self.peers.set peer_id i, peer_urls := self.peer_urls.set peer_id url }, false)
  match self.with_lock body with
  | none => self.suspend_call call (.registering i)
  | some (self, true) =>
    (self.update i fun c => { c with closed := true, rejected := true }).suspend_call call
      (.rejecting i)
  | some (self, false) => self.suspend_call call (.returned (some peer_id))

/-- `connect_peer` from the return of `connect_to_peer` on, which has created the
`listen` task. -/
def connected (self : P2PServer) (call : ℕ) (url : Str) (peer_id : Str) : P2PServer :=
  if self.knows peer_id then self
  else
    let i := self.connections.length
    let self := { self with connections := self.connections ++ [self.new_connection peer_id] }
    self.register call url i peer_id

/-- `_handle_peer_closed`, with which a `listen` task ends. -/
def handle_peer_closed (self : P2PServer) (i : ℕ) (peer_id : Str) : P2PServer :=
  match self.with_lock fun self => (self.unregister peer_id, ()) with
  | none => self
  | some (self, ()) => self.update i fun c => { c with listen := .finished }

/-- The `finally` of `_handle_connection`. -/
def end_handler (self : P2PServer) (handler : ℕ) (peer_id : Str) : P2PServer :=
  match self.with_lock fun self => (self.unregister peer_id, ()) with
  | none => self
  | some (self, ()) => self.suspend_handler handler .done

/-- The connection of a handler that is suspended at a point. -/
def handled (self : P2PServer) (handler : ℕ) : Option (HandlerPoint × ℕ × Connection) := do
  let h ← self.handlers[handler]?
  let c ← self.connections[h.connection]?
  return (h.point, h.connection, c)

def step (self : P2PServer) : ServerEvent → P2PServer
  | .accepts peer_id allowed => self.handle_connection peer_id allowed
  | .connect_peer url => self.connect_peer url
  | .resolved call found =>
    match self.calls[call]? with
    | some ⟨_, .resolving⟩ =>
      self.suspend_call call (if found then .dialing else .returned none)
    | _ => self
  | .connected call peer_id =>
    match self.calls[call]? with
    | some ⟨url, .dialing⟩ => self.connected call url peer_id
    | _ => self
  | .registers call =>
    match self.calls[call]? with
    | some ⟨url, .registering i⟩ =>
      match self.connections[i]? with
      | some c => self.register call url i c.peer_id
      | none => self
    | _ => self
  | .call_fails call =>
    match self.calls[call]? with
    -- `try` begins after the resolution
    | some ⟨_, .resolving⟩ => self.suspend_call call .raised
    | some ⟨_, .dialing⟩ | some ⟨_, .rejecting _⟩ => self.suspend_call call (.returned none)
    | _ => self
  | .call_closed call =>
    match self.calls[call]? with
    | some ⟨_, .rejecting _⟩ => self.suspend_call call (.returned none)
    | _ => self
  | .listen_ends i => self.update i fun c =>
    if c.listen = .running then { c with listen := .closing, closed := true } else c
  | .on_closed i =>
    match self.connections[i]? with
    | some c => if c.listen = .closing then self.handle_peer_closed i c.peer_id else self
    | none => self
  | .authenticates i => self.update i fun c => { c with authenticated := true }
  | .closes i => self.update i fun c => { c with closed := true }
  | .handshake_done handler =>
    match self.handled handler with
    | some (.handshake, _, c) =>
      if c.authenticated then self.suspend_handler handler .listening else self
    | _ => self
  | .handshake_timeout handler =>
    match self.handled handler with
    | some (.handshake, i, _) =>
      (self.update i fun c => { c with closed := true }).suspend_handler handler .closing
    | _ => self
  | .handler_ends handler cancelled =>
    match self.handled handler with
    | some (.done, _, _) => self
    | some (_, _, c) =>
      if c.listen = .finished || cancelled then self.end_handler handler c.peer_id else self
    | none => self
  | .clears => { self with peers := .empty, peer_urls := .empty }

/-! ## The lock is free

Where the lock is free, the stretches with a lock run through. -/

section Unlocked

variable {self : P2PServer} (h : self.peer_lock = false)
include h

theorem handle_peer_closed_eq (i : ℕ) (peer_id : Str) :
    self.handle_peer_closed i peer_id
      = (self.unregister peer_id).update i fun c => { c with listen := .finished } := by
  obtain ⟨settings, peers, peer_urls, lock, connections, handlers, calls⟩ := self
  obtain rfl : lock = false := h
  rfl

theorem end_handler_eq (handler : ℕ) (peer_id : Str) :
    self.end_handler handler peer_id
      = (self.unregister peer_id).suspend_handler handler .done := by
  obtain ⟨settings, peers, peer_urls, lock, connections, handlers, calls⟩ := self
  obtain rfl : lock = false := h
  rfl

theorem register_eq (call : ℕ) (url : Str) (i : ℕ) (peer_id : Str) :
    self.register call url i peer_id =
      if self.full then
        (self.update i fun c => { c with closed := true, rejected := true }).suspend_call call
          (.rejecting i)
      else
        { self with
          peers := self.peers.set peer_id i
          peer_urls := self.peer_urls.set peer_id url }.suspend_call call
          (.returned (some peer_id)) := by
  obtain ⟨settings, peers, peer_urls, lock, connections, handlers, calls⟩ := self
  obtain rfl : lock = false := h
  by_cases hfull : settings.max_peers ≤ peers.entries.length
  · simp [register, with_lock, full, hfull, update, suspend_call]
  · simp [register, with_lock, full, hfull, suspend_call]

/-- What `_handle_connection` does before its first `await`, if it gets there. -/
theorem handle_connection_eq (peer_id : Str) (allowed : Bool) :
    self.handle_connection peer_id allowed = self ∨
      (self.knows peer_id = false ∧ self.full = false ∧ ∃ point,
        self.handle_connection peer_id allowed = { self with
          peers := self.peers.set peer_id self.connections.length
          connections := self.connections ++ [self.new_connection peer_id]
          handlers := self.handlers ++ [⟨self.connections.length, point⟩] }) := by
  obtain ⟨settings, peers, peer_urls, lock, connections, handlers, calls⟩ := self
  obtain rfl : lock = false := h
  by_cases hskip : (!allowed || (knows ⟨settings, peers, peer_urls, false, connections, handlers,
      calls⟩ peer_id)) = true
  · exact Or.inl (by rw [handle_connection, if_pos hskip])
  rw [handle_connection, if_neg hskip]
  simp only [Bool.or_eq_true, not_or, Bool.not_eq_true] at hskip
  by_cases hfull : settings.max_peers ≤ peers.entries.length
  · exact Or.inl (by simp [with_lock, full, hfull])
  · refine Or.inr ⟨hskip.2, by simp [full, hfull], ?_⟩
    refine ⟨if settings.peer_auth_enabled then .handshake else .listening, ?_⟩
    simp [with_lock, full, hfull, new_connection]

/-- What `connect_peer` does before its first `await`: a new call. -/
theorem connect_peer_eq (url : Str) : ∃ point, (point = .resolving ∨ point = .returned none) ∧
    self.connect_peer url = { self with calls := self.calls ++ [⟨url, point⟩] } := by
  obtain ⟨settings, peers, peer_urls, lock, connections, handlers, calls⟩ := self
  obtain rfl : lock = false := h
  unfold connect_peer
  dsimp only
  split_ifs
  · exact ⟨_, Or.inr rfl, rfl⟩
  · exact ⟨_, Or.inr rfl, rfl⟩
  · by_cases hfull : settings.max_peers ≤ peers.entries.length
    · exact ⟨_, Or.inr rfl, by simp [with_lock, full, hfull]⟩
    · exact ⟨_, Or.inl rfl, by simp [with_lock, full, hfull]⟩

end Unlocked

/-! ## The invariant -/

/-- The tables agree with each other and with the connections: an entry leads to
the connection of that identifier, which was not turned away and whose `listen`
task has not ended. No task waits for the lock. -/
structure Inv (settings : ServerSettings) (server : P2PServer) : Prop where
  settings_eq : server.settings = settings
  unlocked : server.peer_lock = false
  settled : ∀ c ∈ server.calls, ∀ i, c.point ≠ .registering i
  cap : (server.peers.entries.length : ℤ) ≤ max 0 settings.max_peers
  urls : ∀ peer_id, server.peer_urls.contains peer_id = true → server.peers.contains peer_id = true
  distinct : (server.connections.map (·.peer_id)).Nodup
  table : ∀ peer_id i, server.peers.find peer_id = some i →
    ∃ c, server.connections[i]? = some c ∧ c.peer_id = peer_id ∧ c.rejected = false ∧
      c.listen ≠ .finished

theorem Inv.start (settings : ServerSettings) : Inv settings (start settings) where
  settings_eq := rfl
  unlocked := rfl
  settled := by simp [P2PServer.start]
  cap := le_max_left _ _
  urls := by simp [P2PServer.start, StrDict.contains, StrDict.find, StrDict.empty]
  distinct := by simp [P2PServer.start]
  table := by simp [P2PServer.start, StrDict.find, StrDict.empty]

section Preservation

variable {settings : ServerSettings} {self : P2PServer} (h : Inv settings self)
include h

/-- An identifier that no connection has is not in the table. -/
theorem Inv.contains_of_knows {peer_id : Str} (hknows : self.knows peer_id = false) :
    self.peers.contains peer_id = false := by
  rw [Bool.eq_false_iff]
  intro hcontains
  obtain ⟨i, hi⟩ := Option.isSome_iff_exists.mp hcontains
  obtain ⟨c, hc, hid, -⟩ := h.table peer_id i hi
  have hmem := List.mem_of_getElem? hc
  simp only [knows, List.any_eq_false, decide_eq_true_eq] at hknows
  exact hknows c hmem hid

/-- The entry of a connection is the one with its position. -/
theorem Inv.position {peer_id : Str} {i j : ℕ} {c : Connection}
    (hfind : self.peers.find peer_id = some j) (hc : self.connections[i]? = some c)
    (hid : c.peer_id = peer_id) : j = i := by
  obtain ⟨c', hc', hid', -⟩ := h.table peer_id j hfind
  have hget : (self.connections.map (·.peer_id))[i]? = some peer_id := by simp [hc, hid]
  have hget' : (self.connections.map (·.peer_id))[j]? = some peer_id := by simp [hc', hid']
  obtain ⟨hi, hat⟩ := List.getElem?_eq_some_iff.mp hget
  obtain ⟨hj, hat'⟩ := List.getElem?_eq_some_iff.mp hget'
  exact h.distinct.getElem_inj_iff.mp (hat'.trans hat.symm)

/-- A connection that was turned away or has ended is not in the table. -/
theorem Inv.contains_of_gone {c : Connection} (hc : c ∈ self.connections)
    (hgone : c.rejected = true ∨ c.listen = .finished) :
    self.peers.contains c.peer_id = false := by
  rw [Bool.eq_false_iff]
  intro hcontains
  obtain ⟨j, hj⟩ := Option.isSome_iff_exists.mp hcontains
  obtain ⟨i, hi⟩ := List.mem_iff_getElem?.mp hc
  obtain rfl := h.position hj hi rfl
  obtain ⟨c', hc', -, hrejected, hlisten⟩ := h.table c.peer_id j hj
  rw [hi] at hc'
  obtain rfl := Option.some.inj hc'
  rcases hgone with hgone | hgone
  · rw [hrejected] at hgone
    cases hgone
  · exact hlisten hgone

/-- A connection that keeps its identifier may change, as long as it is not one of
the table that is turned away or ends. -/
theorem Inv.update {i : ℕ} {act : Connection → Connection}
    (hact : ∀ c, self.connections[i]? = some c → (act c).peer_id = c.peer_id ∧
      (self.peers.contains c.peer_id = true → c.rejected = false → c.listen ≠ .finished →
        (act c).rejected = false ∧ (act c).listen ≠ .finished)) :
    Inv settings (self.update i act) where
  settings_eq := h.settings_eq
  unlocked := h.unlocked
  settled := h.settled
  cap := h.cap
  urls := h.urls
  distinct := by
    have hids : (self.connections.modify i act).map (·.peer_id)
        = self.connections.map (·.peer_id) := by
      apply List.ext_getElem?
      intro j
      simp only [List.getElem?_map, List.getElem?_modify]
      rcases hj : self.connections[j]? with _ | c
      · rfl
      · by_cases hij : i = j
        · subst hij
          simp [(hact c hj).1]
        · simp [hij]
    exact hids ▸ h.distinct
  table := by
    intro peer_id j hj
    obtain ⟨c, hc, hid, hrejected, hlisten⟩ := h.table peer_id j hj
    by_cases hij : i = j
    · subst hij
      have hcontains : self.peers.contains c.peer_id = true := by
        rw [hid]
        exact Option.isSome_of_eq_some hj
      obtain ⟨hkeep, hrest⟩ := hact c hc
      exact ⟨act c, by simp [P2PServer.update, hc], hkeep.trans hid,
        hrest hcontains hrejected hlisten⟩
    · exact ⟨c, by simp [P2PServer.update, hc, hij], hid, hrejected, hlisten⟩

theorem Inv.unregister (peer_id : Str) : Inv settings (self.unregister peer_id) where
  settings_eq := h.settings_eq
  unlocked := h.unlocked
  settled := h.settled
  cap := by
    have hle := StrDict.length_pop_le self.peers peer_id
    have hcap := h.cap
    simp only [P2PServer.unregister]
    omega
  urls := by
    intro k hk
    simp only [P2PServer.unregister, StrDict.contains_pop, Bool.and_eq_true] at hk ⊢
    exact ⟨hk.1, h.urls k hk.2⟩
  distinct := h.distinct
  table := by
    intro k i hi
    simp only [P2PServer.unregister, StrDict.find_pop] at hi
    split at hi
    · cases hi
    · exact h.table k i hi

theorem Inv.suspend_call (call : ℕ) {point : CallPoint} (hpoint : ∀ i, point ≠ .registering i) :
    Inv settings (self.suspend_call call point) where
  settings_eq := h.settings_eq
  unlocked := h.unlocked
  settled := by
    intro c hc i
    obtain ⟨j, hj⟩ := List.mem_iff_getElem?.mp hc
    simp only [P2PServer.suspend_call, List.getElem?_modify] at hj
    obtain ⟨c', hc', rfl⟩ := Option.map_eq_some_iff.mp hj
    by_cases hij : call = j
    · simpa [hij] using hpoint i
    · simpa [hij] using h.settled c' (List.mem_of_getElem? hc') i
  cap := h.cap
  urls := h.urls
  distinct := h.distinct
  table := h.table

theorem Inv.suspend_handler (handler : ℕ) (point : HandlerPoint) :
    Inv settings (self.suspend_handler handler point) :=
  ⟨h.settings_eq, h.unlocked, h.settled, h.cap, h.urls, h.distinct, h.table⟩

/-- A new connection with a new identifier. -/
theorem Inv.append {peer_id : Str} (hknows : self.knows peer_id = false) :
    Inv settings { self with
      connections := self.connections ++ [self.new_connection peer_id] } where
  settings_eq := h.settings_eq
  unlocked := h.unlocked
  settled := h.settled
  cap := h.cap
  urls := h.urls
  distinct := by
    rw [List.map_append, List.nodup_append]
    refine ⟨h.distinct, by simp, ?_⟩
    intro a ha b hb
    obtain ⟨c, hc, rfl⟩ := List.mem_map.mp ha
    simp only [List.map_cons, List.map_nil, List.mem_singleton] at hb
    subst hb
    simp only [knows, List.any_eq_false, decide_eq_true_eq] at hknows
    exact hknows c hc
  table := by
    intro k i hi
    obtain ⟨c, hc, hrest⟩ := h.table k i hi
    refine ⟨c, ?_, hrest⟩
    rw [List.getElem?_append_left (List.getElem?_eq_some_iff.mp hc).1]
    exact hc

/-- A connection that is not in the table yet, and for which there is room. -/
theorem Inv.insert {peer_id : Str} {i : ℕ} {c : Connection} (hfull : self.full = false)
    (hc : self.connections[i]? = some c) (hid : c.peer_id = peer_id) (hrejected : c.rejected = false)
    (hlisten : c.listen ≠ .finished) (hnew : self.peers.contains peer_id = false) :
    Inv settings { self with peers := self.peers.set peer_id i } where
  settings_eq := h.settings_eq
  unlocked := h.unlocked
  settled := h.settled
  cap := by
    simp only [full, decide_eq_false_iff_not, not_le, h.settings_eq] at hfull
    simp only [StrDict.length_set_of_not_contains hnew]
    push_cast
    omega
  urls := by
    intro k hk
    simp only [StrDict.contains_set, h.urls k hk, Bool.or_true]
  distinct := h.distinct
  table := by
    intro k j hj
    simp only [StrDict.find_set] at hj
    split at hj
    · rename_i hk
      obtain rfl := Option.some.inj hj
      exact ⟨c, hc, hid.trans hk.symm, hrejected, hlisten⟩
    · exact h.table k j hj

end Preservation

/-! ## Every step keeps it -/

section Steps

variable {settings : ServerSettings} {self : P2PServer} (h : Inv settings self)
include h

theorem Inv.handle_connection (peer_id : Str) (allowed : Bool) :
    Inv settings (self.handle_connection peer_id allowed) := by
  rcases handle_connection_eq h.unlocked peer_id allowed with heq | ⟨hknows, hfull, point, heq⟩
  · rw [heq]
    exact h
  · rw [heq]
    have happend := h.append hknows
    have hinsert := happend.insert hfull (i := self.connections.length)
      (List.getElem?_concat_length) rfl rfl (by simp [new_connection])
      (h.contains_of_knows hknows)
    exact ⟨h.settings_eq, h.unlocked, h.settled, hinsert.cap, hinsert.urls, hinsert.distinct, hinsert.table⟩

theorem Inv.connect_peer (url : Str) : Inv settings (self.connect_peer url) := by
  obtain ⟨point, hpoint, heq⟩ := connect_peer_eq h.unlocked url
  rw [heq]
  refine ⟨h.settings_eq, h.unlocked, ?_, h.cap, h.urls, h.distinct, h.table⟩
  intro c hc i
  rcases List.mem_append.mp hc with hc | hc
  · exact h.settled c hc i
  · rw [List.mem_singleton.mp hc]
    rcases hpoint with rfl | rfl <;> simp

theorem Inv.register {call i : ℕ} {url peer_id : Str} {c : Connection}
    (hc : self.connections[i]? = some c) (hid : c.peer_id = peer_id) (hrejected : c.rejected = false)
    (hlisten : c.listen ≠ .finished) (hnew : self.peers.contains peer_id = false) :
    Inv settings (self.register call url i peer_id) := by
  rw [register_eq h.unlocked]
  split_ifs with hfull
  · -- the connection is turned away, and it is not in the table
    have hupdate : Inv settings
        (self.update i fun c => { c with closed := true, rejected := true }) := by
      refine h.update fun c' hc' => ⟨rfl, fun hcontains => ?_⟩
      rw [hc] at hc'
      obtain rfl := Option.some.inj hc'
      rw [hid, hnew] at hcontains
      cases hcontains
    exact hupdate.suspend_call call fun _ => CallPoint.noConfusion
  · have hinsert := h.insert (Bool.eq_false_iff.mpr hfull) hc hid hrejected hlisten hnew
    have hboth : Inv settings { self with
        peers := self.peers.set peer_id i
        peer_urls := self.peer_urls.set peer_id url } := by
      refine ⟨h.settings_eq, h.unlocked, h.settled, hinsert.cap, ?_, h.distinct, hinsert.table⟩
      intro k hk
      simp only [StrDict.contains_set, Bool.or_eq_true, decide_eq_true_eq] at hk ⊢
      exact hk.imp id (h.urls k)
    exact hboth.suspend_call call fun _ => CallPoint.noConfusion

theorem Inv.connected (call : ℕ) (url peer_id : Str) : Inv settings (self.connected call url peer_id) := by
  unfold P2PServer.connected
  split_ifs with hknows
  · exact h
  · have hknows := Bool.eq_false_iff.mpr hknows
    exact (h.append hknows).register List.getElem?_concat_length rfl rfl
      (by simp [new_connection]) (h.contains_of_knows hknows)

theorem Inv.handle_peer_closed {i : ℕ} {c : Connection} (hc : self.connections[i]? = some c) :
    Inv settings (self.handle_peer_closed i c.peer_id) := by
  rw [handle_peer_closed_eq h.unlocked]
  refine (h.unregister c.peer_id).update fun c' hc' => ⟨rfl, fun hcontains => ?_⟩
  -- its entry has just been removed
  have hcc : c' = c := by
    have hsame : self.connections[i]? = some c' := hc'
    rw [hc] at hsame
    exact (Option.some.inj hsame).symm
  rw [hcc] at hcontains
  simp [P2PServer.unregister, StrDict.contains_pop] at hcontains

theorem Inv.end_handler (handler : ℕ) (peer_id : Str) : Inv settings (self.end_handler handler peer_id) := by
  rw [end_handler_eq h.unlocked]
  exact (h.unregister peer_id).suspend_handler handler .done

theorem Inv.step (e : ServerEvent) : Inv settings (self.step e) := by
  cases e with
  | accepts peer_id allowed => exact h.handle_connection peer_id allowed
  | connect_peer url => exact h.connect_peer url
  | resolved call found =>
      simp only [P2PServer.step]
      split
      · exact h.suspend_call _ (by cases found <;> simp)
      · exact h
  | connected call peer_id =>
      simp only [P2PServer.step]
      split
      · exact h.connected call _ peer_id
      · exact h
  | registers call =>
      -- no call waits for the lock
      simp only [P2PServer.step]
      split
      · rename_i url i hcall
        exact absurd rfl (h.settled _ (List.mem_of_getElem? hcall) i)
      · exact h
  | call_fails call =>
      simp only [P2PServer.step]
      split
      · exact h.suspend_call _ (by simp)
      · exact h.suspend_call _ (by simp)
      · exact h.suspend_call _ (by simp)
      · exact h
  | call_closed call =>
      simp only [P2PServer.step]
      split
      · exact h.suspend_call _ (by simp)
      · exact h
  | listen_ends i =>
      refine h.update fun c _ => ⟨?_, fun _ hrejected hlisten => ?_⟩
      · split <;> rfl
      · split
        · exact ⟨hrejected, by simp⟩
        · exact ⟨hrejected, hlisten⟩
  | on_closed i =>
      simp only [P2PServer.step]
      split
      · rename_i c hc
        split_ifs
        · exact h.handle_peer_closed hc
        · exact h
      · exact h
  | authenticates i => exact h.update fun c _ => ⟨rfl, fun _ hr hl => ⟨hr, hl⟩⟩
  | closes i => exact h.update fun c _ => ⟨rfl, fun _ hr hl => ⟨hr, hl⟩⟩
  | handshake_done handler =>
      simp only [P2PServer.step]
      split
      · split_ifs
        · exact h.suspend_handler handler .listening
        · exact h
      · exact h
  | handshake_timeout handler =>
      simp only [P2PServer.step]
      split
      · rename_i i _ _
        have hclosed : Inv settings (self.update i fun c => { c with closed := true }) :=
          h.update fun c _ => ⟨rfl, fun _ hr hl => ⟨hr, hl⟩⟩
        exact hclosed.suspend_handler handler .closing
      · exact h
  | handler_ends handler cancelled =>
      simp only [P2PServer.step]
      split
      · exact h
      · split_ifs
        · exact h.end_handler handler _
        · exact h
      · exact h
  | clears =>
      refine ⟨h.settings_eq, h.unlocked, h.settled, ?_, ?_, h.distinct, ?_⟩
      · simp [P2PServer.step, StrDict.empty]
      · simp [P2PServer.step, StrDict.contains, StrDict.find, StrDict.empty]
      · simp [P2PServer.step, StrDict.find, StrDict.empty]

end Steps

/-- In every state of every run the table holds at most `max_peers` connections (none
where that is negative), every dialed URL belongs to one of them, and a connection that was turned away
or whose `listen` task has ended is in neither table. -/
theorem peers_within_cap (settings : ServerSettings) (events : List ServerEvent) :
    let server := run step (start settings) events
    (server.peers.entries.length : ℤ) ≤ max 0 settings.max_peers ∧
      (∀ c ∈ server.connections, c.rejected = true ∨ c.listen = .finished →
        server.peers.contains c.peer_id = false ∧ server.peer_urls.contains c.peer_id = false) ∧
      ∀ peer_id, server.peer_urls.contains peer_id = true →
        server.peers.contains peer_id = true := by
  intro server
  have h : Inv settings server := run_invariant (fun _ e h _ => h.step e) (Inv.start settings)
    (alwaysMeets_true step (start settings) events)
  refine ⟨h.cap, ?_, h.urls⟩
  intro c hc hgone
  have hpeers := h.contains_of_gone hc hgone
  refine ⟨hpeers, ?_⟩
  rw [Bool.eq_false_iff]
  intro hurl
  rw [h.urls c.peer_id hurl] at hpeers
  cases hpeers

end P2PServer

/-! A place for one: the dialed connection finds the table full. -/

namespace FullServer

def settings : ServerSettings := ⟨1, true, false⟩

def events : List ServerEvent :=
  [.connect_peer (lit "ws://b"), .resolved 0 true, .accepts (lit "a") true, .connected 0 (lit "b"),
    .listen_ends 1, .on_closed 1, .call_closed 0]

/-- The accepted connection stays, the dialed one was turned away. -/
example : (run P2PServer.step (P2PServer.start settings) events).peers.entries = [(lit "a", 0)] := by
  decide

end FullServer

end EasyBlockchain
