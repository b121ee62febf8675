/-
`network/node.py`: the URLs a node is connected to, or is about to be.

`connect_peer` of the node wraps `P2PServer.connect_peer`: it dials a URL unless it
is active or being dialed, enters the connection under its URL, and waits until it
is authenticated. A HELLO of an accepted connection enters the URL it advertises.
Both write `_active_urls` and `_url_by_peer`, and the end of a connection takes
its URL out of both.

A dial, and a HELLO whose answer is being sent, are suspended at the points named
below; everything between two points is one event. What `P2PServer.connect_peer`
returns is handled in the event in which it returns.
-/
import EasyBlockchain.P2PServer
import EasyBlockchain.Reconnect
import EasyBlockchain.Py.Value
import Mathlib.Data.Finset.Insert
import Mathlib.Data.Finset.SDiff

set_option autoImplicit false

namespace EasyBlockchain

open Py Lib

/-! ## Tasks -/

/-- Where a `Node.connect_peer` is suspended. -/
inductive DialPoint
  /-- in `P2PServer.connect_peer` -/
  | calling (call : ℕ)
  | sending_hello (peer_id : Str)
  /-- sleeps in `_wait_for_peer_authenticated` -/
  | authenticating (peer_id : Str)
  | sending_peers
  /-- in `_close_peer` of an unauthenticated peer -/
  | closing
  | returned
  deriving DecidableEq

/-- A `Node.connect_peer` that got as far as `_connecting_urls`. -/
structure Dial where
  url : Str
  point : DialPoint
  deriving DecidableEq

/-- An `_on_hello` that awaits its `_send_hello`. -/
structure Greeting where
  connection : ℕ
  advertised : PyVal
  done : Bool

/-- A dial attempt that is decided: whether it came to an authenticated connection,
and when. -/
structure Outcome where
  url : Str
  authenticated : Bool
  time : PyFloat

/-- The part of a node that keeps its connections. -/
structure DialingNode where
  local_url : Str
  server : P2PServer
  active_urls : Finset Str
  connecting_urls : Finset Str
  url_by_peer : StrDict Str
  reconnect : ReconnectManager
  dials : List Dial
  greetings : List Greeting
  /-- the dial attempts that are decided, in order -/
  outcomes : List Outcome

/-- How a `P2PServer.connect_peer` goes on. -/
inductive CallStep
  | resolved (found : Bool)
  | connected (peer_id : Str)
  | registers
  | fails
  | closed

/-- What happens to a node between two points where the event loop may run
something else; `now` is the time. -/
inductive DialEvent
  | connect_peer (url : Str) (now : PyFloat)
  /-- the call of a dial goes on -/
  | call (dial : ℕ) (step : CallStep) (now : PyFloat)
  /-- `_send_hello` returns to a dial, which looks at its peer -/
  | hello_sent (dial : ℕ) (now : PyFloat)
  /-- a dial looks at its peer again, unless its time is over -/
  | polls (dial : ℕ) (expired : Bool) (now : PyFloat)
  /-- the last `await` of a dial returns -/
  | dial_ends (dial : ℕ)
  /-- a connection reads a HELLO; whether it passes the checks of `_on_hello` -/
  | hello (i : ℕ) (passes : Bool) (advertised : PyVal)
  /-- `_send_hello` returns to an `_on_hello` -/
  | greeted (greeting : ℕ)
  | accepts (peer_id : Str) (allowed : Bool)
  | listen_ends (i : ℕ)
  | on_closed (i : ℕ) (now : PyFloat)
  | closes (i : ℕ)
  | handshake_done (handler : ℕ)
  | handshake_timeout (handler : ℕ)
  | handler_ends (handler : ℕ)

/-- The event of the server. -/
def CallStep.event (call : ℕ) : CallStep → ServerEvent
  | .resolved found => .resolved call found
  | .connected peer_id => .connected call peer_id
  | .registers => .registers call
  | .fails => .call_fails call
  | .closed => .call_closed call

namespace DialingNode

def start (local_url : Str) (server : ServerSettings) (reconnect : ReconnectSettings) :
    DialingNode where
  local_url := local_url
  server := .start server
  active_urls := ∅
  connecting_urls := ∅
  url_by_peer := .empty
  reconnect := .start reconnect
  dials := []
  greetings := []
  outcomes := []

/-! ## Dialing -/

def suspend (self : DialingNode) (dial : ℕ) (point : DialPoint) : DialingNode :=
  { self with dials := self.dials.modify dial fun d => { d with point := point } }

/-- The `finally` of `connect_peer`. -/
def end_dial (self : DialingNode) (dial : ℕ) (url : Str) : DialingNode :=
  { self with connecting_urls := self.connecting_urls.erase url }.suspend dial .returned

/-- A dial attempt is decided. -/
def decided (self : DialingNode) (url : Str) (authenticated : Bool) (now : PyFloat) :
    DialingNode :=
  { self with outcomes := self.outcomes ++ [⟨url, authenticated, now⟩] }

section Dialing

variable [Runtime] [FloatMath]

def record_failure (self : DialingNode) (url : Str) (now : PyFloat) : DialingNode :=
  { self with reconnect := (self.reconnect.record_failure url now).1 }

/-- The connection is up: the bookkeeping before `_send_hello`. -/
def dialed (self : DialingNode) (dial : ℕ) (url peer_id : Str) : DialingNode :=
  { self with
    reconnect := self.reconnect.record_success url
    active_urls := insert url self.active_urls
    url_by_peer := self.url_by_peer.set peer_id url }.suspend dial (.sending_hello peer_id)

/-- `connect_peer` after `await self.p2p.connect_peer(url)`, if that has returned. -/
def resume (self : DialingNode) (dial : ℕ) (url : Str) (call : ℕ) (now : PyFloat) : DialingNode :=
  match self.server.calls[call]? with
  | some ⟨_, .returned none⟩ =>
    ((self.decided url false now).record_failure url now).end_dial dial url
  | some ⟨_, .returned (some peer_id)⟩ => self.dialed dial url peer_id
  | some ⟨_, .raised⟩ => (self.decided url false now).end_dial dial url
  | _ => self

/-- `connect_peer` up to its first suspension. -/
def connect_peer (self : DialingNode) (url : Str) (now : PyFloat) : DialingNode :=
  if url.isEmpty ∨ url = self.local_url ∨ url ∈ self.active_urls ∨ url ∈ self.connecting_urls then
    self
  else if !self.reconnect.should_retry url now then self
  else
    let call := self.server.calls.length
    let calling : DialingNode := { self with
      connecting_urls := insert url self.connecting_urls
      server := self.server.connect_peer url
      dials := self.dials ++ [⟨url, .calling call⟩] }
    calling.resume self.dials.length url call now

omit [Runtime] [FloatMath] in
/-- `self.p2p.peers.get(peer_id)`. -/
def peer (self : DialingNode) (peer_id : Str) : Option Connection := do
  let i ← self.server.peers.find peer_id
  self.server.connections[i]?

omit [Runtime] [FloatMath] in
/-- `_close_peer`. -/
def close_peer (self : DialingNode) (peer_id : Str) : DialingNode :=
  match self.server.peers.find peer_id with
  | some i => { self with server := self.server.update i fun c => { c with closed := true } }
  | none => self

/-- `connect_peer` after `_wait_for_peer_authenticated`. -/
def auth_result (self : DialingNode) (dial : ℕ) (url peer_id : Str) (authenticated : Bool)
    (now : PyFloat) : DialingNode :=
  if authenticated then (self.decided url true now).suspend dial .sending_peers
  else
    let self := { self.decided url false now with
      url_by_peer := self.url_by_peer.pop peer_id
      active_urls := self.active_urls.erase url }
    if (self.reconnect.record_failure url now).2 then
      -- `record_failure` raises, and the peer is not closed
      (self.record_failure url now).end_dial dial url
    else ((self.record_failure url now).close_peer peer_id).suspend dial .closing

omit [Runtime] [FloatMath] in
/-- One round of `_wait_for_peer_authenticated`; `none` goes to sleep. -/
def look (self : DialingNode) (peer_id : Str) (expired : Bool) : Option Bool :=
  if expired then some false
  else
    match self.peer peer_id with
    | none => some false
    | some c => if c.closed then some false else if c.authenticated then some true else none

/-- A round, and what follows it. -/
def poll (self : DialingNode) (dial : ℕ) (url peer_id : Str) (expired : Bool) (now : PyFloat) :
    DialingNode :=
  match self.look peer_id expired with
  | some authenticated => self.auth_result dial url peer_id authenticated now
  | none => self.suspend dial (.authenticating peer_id)

/-! ## HELLO and disconnect -/

/-- `_on_peer_disconnected`. -/
def on_peer_disconnected (self : DialingNode) (peer_id : Str) (now : PyFloat) : DialingNode :=
  let url := self.url_by_peer.find peer_id
  let self := { self with url_by_peer := self.url_by_peer.pop peer_id }
  match url with
  | none => self
  | some url =>
    if url.isEmpty then self
    else { self with active_urls := self.active_urls.erase url }.record_failure url now

omit [Runtime] [FloatMath] in
/-- The URL that `_on_hello` enters for a peer, if it enters one. -/
def advertises (self : DialingNode) (peer_id : Str) (advertised : PyVal) : Option Str :=
  match advertised with
  | .str url =>
    if ((lit "ws://").isPrefixOf url || (lit "wss://").isPrefixOf url) && url ≠ self.local_url &&
      !self.url_by_peer.contains peer_id then some url
    else none
  | _ => none

omit [Runtime] [FloatMath] in
/-- A connection that handles a HELLO already. -/
def greeting (self : DialingNode) (i : ℕ) : Bool :=
  self.greetings.any fun g => g.connection = i && !g.done

omit [Runtime] [FloatMath] in
/-- `_on_hello` up to its first suspension. -/
def on_hello (self : DialingNode) (i : ℕ) (passes : Bool) (advertised : PyVal) : DialingNode :=
  match self.server.connections[i]? with
  | none => self
  | some c =>
    if c.listen ≠ .running || self.greeting i then self
    else
      match self.server.peers.find c.peer_id with
      | none => self
      | some j =>
        if !passes then
          { self with server := self.server.update j fun c => { c with closed := true } }
        else
          let self :=
            { self with server := self.server.update j fun c => { c with authenticated := true } }
          if self.url_by_peer.contains c.peer_id then self
          else { self with greetings := self.greetings ++ [⟨i, advertised, false⟩] }

omit [Runtime] [FloatMath] in
/-- The peer and the URL that an `_on_hello` enters when its `_send_hello` returns. -/
def enters (self : DialingNode) (greeting : ℕ) : Option (Str × Str) := do
  let g ← self.greetings[greeting]?
  if g.done then none
  let c ← self.server.connections[g.connection]?
  let url ← self.advertises c.peer_id g.advertised
  return (c.peer_id, url)

omit [Runtime] [FloatMath] in
/-- `_on_hello` after its `_send_hello`. -/
def greeted (self : DialingNode) (greeting : ℕ) : DialingNode :=
  let entry := self.enters greeting
  let self := { self with
    greetings := self.greetings.modify greeting fun g => { g with done := true } }
  match entry with
  | none => self
  | some (peer_id, url) => { self with
      active_urls := insert url self.active_urls
      url_by_peer := self.url_by_peer.set peer_id url }

/-! ## Steps -/

omit [Runtime] [FloatMath] in
/-- An event that concerns the server only. -/
def serve (self : DialingNode) (e : ServerEvent) : DialingNode :=
  { self with server := self.server.step e }

def step (self : DialingNode) : DialEvent → DialingNode
  | .connect_peer url now => self.connect_peer url now
  | .call dial step now =>
    match self.dials[dial]? with
    | some ⟨url, .calling call⟩ => (self.serve (step.event call)).resume dial url call now
    | _ => self
  | .hello_sent dial now =>
    match self.dials[dial]? with
    | some ⟨url, .sending_hello peer_id⟩ =>
      if self.server.settings.peer_auth_enabled then self.poll dial url peer_id false now
      else (self.decided url true now).suspend dial .sending_peers
    | _ => self
  | .polls dial expired now =>
    match self.dials[dial]? with
    | some ⟨url, .authenticating peer_id⟩ => self.poll dial url peer_id expired now
    | _ => self
  | .dial_ends dial =>
    match self.dials[dial]? with
    | some ⟨url, .sending_peers⟩ | some ⟨url, .closing⟩ => self.end_dial dial url
    | _ => self
  | .hello i passes advertised => self.on_hello i passes advertised
  | .greeted greeting => self.greeted greeting
  | .accepts peer_id allowed => self.serve (.accepts peer_id allowed)
  | .listen_ends i => if self.greeting i then self else self.serve (.listen_ends i)
  | .on_closed i now =>
    match self.server.connections[i]? with
    | some c =>
      if c.listen = .closing then (self.serve (.on_closed i)).on_peer_disconnected c.peer_id now
      else self
    | none => self
  | .closes i => self.serve (.closes i)
  | .handshake_done handler => self.serve (.handshake_done handler)
  | .handshake_timeout handler => self.serve (.handshake_timeout handler)
  | .handler_ends handler => self.serve (.handler_ends handler false)

end Dialing

end DialingNode

end EasyBlockchain
