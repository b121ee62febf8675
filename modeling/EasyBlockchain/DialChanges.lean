/-
`network/node.py`: what one event can do to the connections of a node.

`Change` names the stretches of `connect_peer`, `_on_hello` and
`_on_peer_disconnected` with what holds before them; `Wf` is what the tasks rely
on. What is proved of the bookkeeping and of the backoff goes through the cases
of `Change`.
-/
import EasyBlockchain.ConnectPeer

set_option autoImplicit false

namespace EasyBlockchain

open Py Lib

/-! ## What the server leaves alone -/

/-- The call has not returned. -/
def CallPoint.pending : CallPoint → Prop
  | .returned _ | .raised => False
  | _ => True

namespace P2PServer

/-- A change of the server that takes no entry out of the table and makes no new
dialed connection: what the bookkeeping of the node relies on. `held` are the
connections that handle a HELLO. -/
structure Keeps (held : ℕ → Prop) (before after : P2PServer) : Prop where
  peers : ∀ peer_id i, before.peers.find peer_id = some i → after.peers.find peer_id = some i
  gone : ∀ peer_id, before.knows peer_id = true → before.peers.contains peer_id = false →
    after.peers.contains peer_id = false
  urls : ∀ peer_id url i c, after.peer_urls.find peer_id = some url →
    after.peers.find peer_id = some i → after.connections[i]? = some c → c.closed = false →
    before.peer_urls.find peer_id = some url ∧ before.peers.find peer_id = some i ∧
      ∃ c', before.connections[i]? = some c' ∧ c'.closed = false
  knows : ∀ peer_id, before.knows peer_id = true → after.knows peer_id = true
  held : ∀ i c, held i → before.connections[i]? = some c → c.listen = .running →
    ∃ c', after.connections[i]? = some c' ∧ c'.peer_id = c.peer_id ∧ c'.listen = .running

section Keeps

variable {held : ℕ → Prop} {settings : ServerSettings} {self : P2PServer}

theorem Keeps.refl : Keeps held self self :=
  ⟨fun _ _ h => h, fun _ _ h => h, fun _ _ _ _ hu hp hc hopen => ⟨hu, hp, _, hc, hopen⟩,
    fun _ h => h, fun _ c _ hc hlisten => ⟨c, hc, rfl, hlisten⟩⟩

/-- The tasks of the server are not looked at. -/
theorem Keeps.of_eq {after : P2PServer} (hpeers : after.peers = self.peers)
    (hurls : after.peer_urls = self.peer_urls)
    (hconnections : after.connections = self.connections) : Keeps held self after := by
  have hrefl : Keeps held self self := .refl
  obtain ⟨h₁, h₂, h₃, h₄, h₅⟩ := hrefl
  constructor
  · simpa only [hpeers] using h₁
  · simpa only [hpeers] using h₂
  · simpa only [hpeers, hurls, hconnections] using h₃
  · simpa only [P2PServer.knows, hconnections] using h₄
  · simpa only [hconnections] using h₅

/-- A connection may close, and its `listen` task may end where it handles no
HELLO. -/
theorem Keeps.update {i : ℕ} {act : Connection → Connection}
    (hid : ∀ c, (act c).peer_id = c.peer_id)
    (hclosed : ∀ c, (act c).closed = false → c.closed = false)
    (hlisten : held i → ∀ c, c.listen = .running → (act c).listen = .running) :
    Keeps held self (self.update i act) where
  peers _ _ h := h
  gone _ _ h := h
  urls := by
    intro peer_id url j c hurl hpeer hc hopen
    refine ⟨hurl, hpeer, ?_⟩
    simp only [P2PServer.update, List.getElem?_modify] at hc
    obtain ⟨c', hc', rfl⟩ := Option.map_eq_some_iff.mp hc
    refine ⟨c', hc', ?_⟩
    by_cases hij : i = j
    · simp only [hij, if_true] at hopen
      exact hclosed c' hopen
    · simpa only [hij, if_false] using hopen
  knows := by
    intro peer_id hknows
    simp only [P2PServer.knows, List.any_eq_true, decide_eq_true_eq] at hknows ⊢
    obtain ⟨c, hc, hcid⟩ := hknows
    obtain ⟨j, hj⟩ := List.mem_iff_getElem?.mp hc
    by_cases hij : i = j
    · subst hij
      refine ⟨act c, List.mem_iff_getElem?.mpr ⟨i, ?_⟩, (hid c).trans hcid⟩
      simp [P2PServer.update, hj]
    · refine ⟨c, List.mem_iff_getElem?.mpr ⟨j, ?_⟩, hcid⟩
      simp [P2PServer.update, hij, hj]
  held := by
    intro j c hj hc hrunning
    by_cases hij : i = j
    · subst hij
      exact ⟨act c, by simp [P2PServer.update, hc], hid c, hlisten hj c hrunning⟩
    · exact ⟨c, by simp [P2PServer.update, hij, hc], rfl, hrunning⟩

/-- A new connection, which may be entered in the table of peers. -/
theorem Keeps.append (h : Inv settings self) {c : Connection} (hnew : self.knows c.peer_id = false)
    {peers : StrDict ℕ}
    (hpeers : ∀ k, peers.find k = self.peers.find k ∨ k = c.peer_id) {handlers : List Handler}
    {calls : List Call} :
    Keeps held self { self with
      peers := peers, connections := self.connections ++ [c], handlers := handlers,
      calls := calls } := by
  have habsent := h.contains_of_knows hnew
  have hold : ∀ k, self.peers.contains k = true → peers.find k = self.peers.find k := by
    intro k hk
    rcases hpeers k with hk' | rfl
    · exact hk'
    · rw [hk] at habsent
      cases habsent
  have hprefix : ∀ {i : ℕ} {c' : Connection}, self.connections[i]? = some c' →
      (self.connections ++ [c])[i]? = some c' := by
    intro i c' hi
    rw [List.getElem?_append_left (List.getElem?_eq_some_iff.mp hi).1]
    exact hi
  constructor
  · intro k i hi
    rw [hold k (Option.isSome_of_eq_some hi)]
    exact hi
  · intro k hk habsent'
    have hne : k ≠ c.peer_id := by
      rintro rfl
      rw [hk] at hnew
      cases hnew
    simp only [StrDict.contains, (hpeers k).resolve_right hne]
    exact habsent'
  · intro k url i c' hurl hi hc' hopen
    -- a dialed connection is in the table already
    have hk := h.urls k (Option.isSome_of_eq_some hurl)
    have hi' : self.peers.find k = some i := (hold k hk).symm.trans hi
    obtain ⟨c'', hc'', -⟩ := h.table k i hi'
    have hsame := hprefix hc''
    simp only at hc'
    rw [hsame] at hc'
    obtain rfl := Option.some.inj hc'
    exact ⟨hurl, hi', c'', hc'', hopen⟩
  · intro k hk
    unfold P2PServer.knows at hk ⊢
    rw [List.any_append, hk, Bool.true_or]
  · intro i c' _ hc' hrunning
    exact ⟨c', hprefix hc', rfl, hrunning⟩

/-- Taking out what is not there. -/
theorem Keeps.unregister {peer_id : Str} (habsent : self.peers.contains peer_id = false) :
    Keeps held self (self.unregister peer_id) := by
  have hfind : ∀ k i, (self.peers.pop peer_id).find k = some i ↔ self.peers.find k = some i := by
    intro k i
    rw [StrDict.find_pop]
    split
    · rename_i hk
      subst hk
      have hnone : self.peers.find k = none := by
        simpa [StrDict.contains] using habsent
      simp [hnone]
    · rfl
  constructor
  · exact fun k i hi => (hfind k i).mpr hi
  · intro k _ hk
    simp only [P2PServer.unregister, StrDict.contains_pop, hk, Bool.and_false]
  · intro k url i c hurl hi hc hopen
    simp only [P2PServer.unregister, StrDict.find_pop] at hurl
    split at hurl
    · cases hurl
    · exact ⟨hurl, (hfind k i).mp hi, c, hc, hopen⟩
  · exact fun _ hk => hk
  · exact fun _ c _ hc hrunning => ⟨c, hc, rfl, hrunning⟩

/-- The registration of a dialed connection. -/
def registered (self : P2PServer) (call : ℕ) (url peer_id : Str) : P2PServer :=
  { self with
    peers := self.peers.set peer_id self.connections.length
    peer_urls := self.peer_urls.set peer_id url
    connections := self.connections ++ [self.new_connection peer_id] }.suspend_call call
      (.returned (some peer_id))

theorem modify_length_append {α : Type} (l : List α) (a : α) (act : α → α) :
    (l ++ [a]).modify l.length act = l ++ [act a] := by
  rw [List.modify_eq_take_cons_drop (by simp)]
  simp

theorem modify_point_self {calls : List Call} {call : ℕ} {c : Call} (hc : calls[call]? = some c) :
    calls.modify call (fun c' => { c' with point := c.point }) = calls := by
  apply List.ext_getElem?
  intro j
  rw [List.getElem?_modify]
  by_cases hj : call = j
  · subst hj
    simp [hc]
  · simp [hj]

/-- A call comes to another point, without a new dialed connection. -/
structure GoesOn (held : ℕ → Prop) (before after : P2PServer) (call : ℕ) (point : CallPoint) :
    Prop where
  unregistered : ∀ peer_id, point ≠ .returned (some peer_id)
  calls : after.calls = before.calls.modify call fun c => { c with point := point }
  keeps : Keeps held before after

theorem GoesOn.refl {call : ℕ} {c : Call} (hc : self.calls[call]? = some c)
    (hpending : c.point.pending) : GoesOn held self self call c.point where
  unregistered := by
    intro peer_id hreturned
    rw [hreturned] at hpending
    exact hpending
  calls := (modify_point_self hc).symm
  keeps := .refl

theorem GoesOn.suspend_call {call : ℕ} {point : CallPoint}
    (hpoint : ∀ peer_id, point ≠ .returned (some peer_id)) :
    GoesOn held self (self.suspend_call call point) call point :=
  ⟨hpoint, rfl, .of_eq rfl rfl rfl⟩

/-- A connection there is no room for. -/
theorem GoesOn.rejected (h : Inv settings self) {peer_id : Str}
    (hknows : self.knows peer_id = false) (call : ℕ) :
    GoesOn held self (({ self with
      connections := self.connections ++ [self.new_connection peer_id] }.update
        self.connections.length fun c => { c with closed := true, rejected := true }).suspend_call
        call (.rejecting self.connections.length)) call (.rejecting self.connections.length) where
  unregistered _ := CallPoint.noConfusion
  calls := rfl
  keeps := by
    have happend : Keeps held self { self with
        connections := self.connections ++ [{ self.new_connection peer_id with
          closed := true, rejected := true }] } :=
      .append h hknows fun _ => Or.inl rfl
    have hmodify : (self.connections ++ [self.new_connection peer_id]).modify
        self.connections.length (fun c => { c with closed := true, rejected := true })
        = self.connections ++ [{ self.new_connection peer_id with
            closed := true, rejected := true }] := modify_length_append _ _ _
    obtain ⟨h₁, h₂, h₃, h₄, h₅⟩ := happend
    refine ⟨h₁, h₂, ?_, ?_, ?_⟩
    · simpa only [P2PServer.suspend_call, P2PServer.update, hmodify] using h₃
    · simpa only [P2PServer.suspend_call, P2PServer.update, P2PServer.knows, hmodify] using h₄
    · simpa only [P2PServer.suspend_call, P2PServer.update, hmodify] using h₅

variable (held) in
/-- How a pending call goes on: to another point without a new dialed connection,
or to the registration of one. -/
theorem call_step_cases (h : Inv settings self) {call : ℕ} {c : Call}
    (hc : self.calls[call]? = some c) (hpending : c.point.pending) (step : CallStep) :
    (∃ point, (point = .raised → c.point = .resolving ∧ step = .fails) ∧
      GoesOn held self (self.step (step.event call)) call point) ∨
    ∃ peer_id, self.knows peer_id = false ∧
      self.step (step.event call) = self.registered call c.url peer_id := by
  have hstay : self.step (step.event call) = self → ∃ point,
      (point = .raised → c.point = .resolving ∧ step = .fails) ∧
        GoesOn held self (self.step (step.event call)) call point := by
    intro heq
    rw [heq]
    refine ⟨c.point, fun hraised => ?_, .refl hc hpending⟩
    rw [hraised] at hpending
    exact hpending.elim
  obtain ⟨url, point⟩ := c
  cases step with
  | resolved found =>
      cases point with
      | resolving =>
          refine Or.inl ⟨if found then .dialing else .returned none, ?_, ?_⟩
          · cases found <;> simp
          · simp only [CallStep.event, P2PServer.step, hc]
            exact .suspend_call (by cases found <;> simp)
      | _ => exact Or.inl (hstay (by simp [CallStep.event, P2PServer.step, hc]))
  | connected peer_id =>
      cases point with
      | dialing =>
          by_cases hknows : self.knows peer_id = true
          · refine Or.inl (hstay ?_)
            simp only [CallStep.event, P2PServer.step, hc, P2PServer.connected, hknows, if_true]
          have hknows := Bool.eq_false_iff.mpr hknows
          have hstep : self.step (CallStep.event call (.connected peer_id))
              = ({ self with connections := self.connections ++ [self.new_connection peer_id] }
                  : P2PServer).register call url self.connections.length peer_id := by
            simp only [CallStep.event, P2PServer.step, hc, P2PServer.connected, hknows,
              Bool.false_eq_true, if_false]
          rw [register_eq (by exact h.unlocked)] at hstep
          rw [hstep]
          split_ifs
          · exact Or.inl ⟨.rejecting self.connections.length, fun hne => (by cases hne),
              GoesOn.rejected h hknows call⟩
          · exact Or.inr ⟨peer_id, hknows, rfl⟩
      | _ => exact Or.inl (hstay (by simp [CallStep.event, P2PServer.step, hc]))
  | registers =>
      cases point with
      | registering i => exact absurd rfl (h.settled _ (List.mem_of_getElem? hc) i)
      | _ => exact Or.inl (hstay (by simp [CallStep.event, P2PServer.step, hc]))
  | fails =>
      cases point with
      | resolving =>
          refine Or.inl ⟨.raised, fun _ => ⟨rfl, rfl⟩, ?_⟩
          simp only [CallStep.event, P2PServer.step, hc]
          exact .suspend_call fun _ => CallPoint.noConfusion
      | dialing | rejecting i =>
          refine Or.inl ⟨.returned none, fun hne => (by cases hne), ?_⟩
          simp only [CallStep.event, P2PServer.step, hc]
          exact .suspend_call (by simp)
      | _ => exact Or.inl (hstay (by simp [CallStep.event, P2PServer.step, hc]))
  | closed =>
      cases point with
      | rejecting i =>
          refine Or.inl ⟨.returned none, fun hne => (by cases hne), ?_⟩
          simp only [CallStep.event, P2PServer.step, hc]
          exact .suspend_call (by simp)
      | _ => exact Or.inl (hstay (by simp [CallStep.event, P2PServer.step, hc]))

end Keeps

end P2PServer

/-! ## Changes of the node -/

namespace DialingNode

/-- The peer of a dial that waits for its authentication. -/
def waiting (d : Dial) : Option Str :=
  match d.point with
  | .sending_hello peer_id | .authenticating peer_id => some peer_id
  | _ => none

/-- An event in which a dial looks at its peer; whether its time is over. -/
def looks (dial : ℕ) (expired : Bool) (now : PyFloat) (e : DialEvent) : Prop :=
  (e = .hello_sent dial now ∧ expired = false) ∨ e = .polls dial expired now

section Changes

variable [Runtime] [FloatMath]

/-- A URL that `connect_peer` goes on with. -/
structure Dials (node : DialingNode) (url : Str) (now : PyFloat) : Prop where
  nonempty : url.isEmpty = false
  inactive : url ∉ node.active_urls
  idle : url ∉ node.connecting_urls
  due : node.reconnect.should_retry url now = true

/-- A dial attempt that ends without a connection. -/
def failed (node : DialingNode) (url : Str) (now : PyFloat) : DialingNode :=
  (node.decided url false now).record_failure url now

omit [Runtime] [FloatMath] in
/-- A connection that handles a HELLO. -/
def greets (node : DialingNode) (i : ℕ) : Prop := node.greeting i = true

/-- What an event can do to a node. -/
inductive Change (node : DialingNode) : DialEvent → DialingNode → Prop
  | stays (e : DialEvent) : Change node e node
  | starts {url : Str} {now : PyFloat} (h : node.Dials url now) :
      Change node (.connect_peer url now) { node with
        connecting_urls := insert url node.connecting_urls
        server := { node.server with calls := node.server.calls ++ [⟨url, .resolving⟩] }
        dials := node.dials ++ [⟨url, .calling node.server.calls.length⟩] }
  /-- `P2PServer.connect_peer` returns at once -/
  | refused {url : Str} {now : PyFloat} (h : node.Dials url now) :
      Change node (.connect_peer url now) ({ node with
        server := { node.server with calls := node.server.calls ++ [⟨url, .returned none⟩] }
        dials := node.dials ++ [⟨url, .returned⟩] : DialingNode }.failed url now)
  | goes_on {dial call : ℕ} {url : Str} {step : CallStep} {now : PyFloat} {server : P2PServer}
      {point : CallPoint} (hdial : node.dials[dial]? = some ⟨url, .calling call⟩)
      (hpoint : point.pending) (hserver : P2PServer.GoesOn node.greets node.server server call point) :
      Change node (.call dial step now) { node with server := server }
  | fails {dial call : ℕ} {url : Str} {step : CallStep} {now : PyFloat} {server : P2PServer}
      (hdial : node.dials[dial]? = some ⟨url, .calling call⟩)
      (hserver : P2PServer.GoesOn node.greets node.server server call (.returned none)) :
      Change node (.call dial step now) (({ node with server := server }.failed url now).end_dial dial url)
  /-- the resolution raises, and nothing is recorded -/
  | raises {dial call : ℕ} {url : Str} {now : PyFloat} {server : P2PServer} {c : Call}
      (hdial : node.dials[dial]? = some ⟨url, .calling call⟩)
      (hcall : node.server.calls[call]? = some c) (hpoint : c.point = .resolving)
      (hserver : P2PServer.GoesOn node.greets node.server server call .raised) :
      Change node (.call dial .fails now)
        (({ node with server := server }.decided url false now).end_dial dial url)
  | dialed {dial call : ℕ} {url peer_id : Str} {step : CallStep} {now : PyFloat}
      (hdial : node.dials[dial]? = some ⟨url, .calling call⟩)
      (hknows : node.server.knows peer_id = false) :
      Change node (.call dial step now)
        ({ node with server := node.server.registered call url peer_id }.dialed dial url peer_id)
  | sleeps {e : DialEvent} {dial : ℕ} {d : Dial} {peer_id : Str}
      (hdial : node.dials[dial]? = some d) (hwaiting : waiting d = some peer_id) :
      Change node e (node.suspend dial (.authenticating peer_id))
  | authenticated {e : DialEvent} {dial : ℕ} {d : Dial} {peer_id : Str} {now : PyFloat}
      (hdial : node.dials[dial]? = some d) (hwaiting : waiting d = some peer_id) :
      Change node e ((node.decided d.url true now).suspend dial .sending_peers)
  | unauthenticated {e : DialEvent} {dial : ℕ} {d : Dial} {peer_id : Str} {expired : Bool}
      {now : PyFloat} (he : looks dial expired now e) (hdial : node.dials[dial]? = some d)
      (hwaiting : waiting d = some peer_id) (hlook : node.look peer_id expired = some false) :
      Change node e (node.auth_result dial d.url peer_id false now)
  | ends {dial : ℕ} {d : Dial} (hdial : node.dials[dial]? = some d)
      (hpoint : d.point = .sending_peers ∨ d.point = .closing) :
      Change node (.dial_ends dial) (node.end_dial dial d.url)
  | greets {i j : ℕ} {c : Connection} {advertised : PyVal}
      (hc : node.server.connections[i]? = some c) (hlisten : c.listen = .running)
      (hpeer : node.server.peers.find c.peer_id = some j) :
      Change node (.hello i true advertised) { node with
        server := node.server.update j fun c => { c with authenticated := true }
        greetings := node.greetings ++ [⟨i, advertised, false⟩] }
  /-- an `_on_hello` that enters nothing is over -/
  | greeted {greeting : ℕ} :
      Change node (.greeted greeting) { node with
        greetings := node.greetings.modify greeting fun g => { g with done := true } }
  | enters {greeting : ℕ} {peer_id url : Str} (h : node.enters greeting = some (peer_id, url)) :
      Change node (.greeted greeting) { node with
        greetings := node.greetings.modify greeting fun g => { g with done := true }
        active_urls := insert url node.active_urls
        url_by_peer := node.url_by_peer.set peer_id url }
  | serves {e : DialEvent} {server : P2PServer} (hcalls : server.calls = node.server.calls)
      (hkeeps : P2PServer.Keeps node.greets node.server server) :
      Change node e { node with server := server }
  | disconnected {i : ℕ} {c : Connection} {now : PyFloat}
      (hc : node.server.connections[i]? = some c) (hlisten : c.listen = .closing) :
      Change node (.on_closed i now) (({ node with
        server := (node.server.unregister c.peer_id).update i fun c =>
          { c with listen := .finished } } : DialingNode).on_peer_disconnected c.peer_id now)

/-- What the tasks of a node rely on: a dial that is under way has its URL in
`_connecting_urls` and is the only one of its URL, and its call is its own. -/
structure Wf (settings : ServerSettings) (node : DialingNode) : Prop where
  server : P2PServer.Inv settings node.server
  dialing : ∀ (i : ℕ) (d : Dial), node.dials[i]? = some d → d.point ≠ .returned → d.url ∈ node.connecting_urls
  distinct : ∀ (i j : ℕ) (d d' : Dial), node.dials[i]? = some d → node.dials[j]? = some d' →
    d.point ≠ .returned → d'.point ≠ .returned → d.url = d'.url → i = j
  calling : ∀ (i : ℕ) (url : Str) (call : ℕ), node.dials[i]? = some ⟨url, .calling call⟩ →
    ∃ c, node.server.calls[call]? = some c ∧ c.url = url ∧ c.point.pending

/-! ## Every event is one of the changes -/

section Inversion

variable {settings : ServerSettings} {node : DialingNode} (h : Wf settings node)
include h

theorem connect_peer_change (url : Str) (now : PyFloat) :
    Change node (.connect_peer url now) (node.connect_peer url now) := by
  unfold connect_peer
  split_ifs with hguard hdue
  · exact .stays _
  · exact .stays _
  · simp only [not_or] at hguard
    have hdials : node.Dials url now :=
      ⟨by simpa using hguard.1, hguard.2.2.1, hguard.2.2.2, by simpa using hdue⟩
    obtain ⟨point, hpoint, heq⟩ := P2PServer.connect_peer_eq h.server.unlocked url
    have hcall : (node.server.calls ++ [(⟨url, point⟩ : Call)])[node.server.calls.length]?
        = some ⟨url, point⟩ := List.getElem?_concat_length
    dsimp only
    rw [heq]
    rcases hpoint with rfl | rfl
    · simp only [resume, hcall]
      exact .starts hdials
    · simp only [resume, hcall]
      have hrefused := Change.refused hdials
      simpa only [failed, decided, record_failure, end_dial, suspend,
        P2PServer.modify_length_append, Finset.erase_insert hdials.idle] using hrefused

theorem call_change {dial call : ℕ} {url : Str} (hdial : node.dials[dial]? = some ⟨url, .calling call⟩)
    (step : CallStep) (now : PyFloat) :
    Change node (.call dial step now) ((node.serve (step.event call)).resume dial url call now) := by
  obtain ⟨c, hc, hurl, hpending⟩ := h.calling dial url call hdial
  rcases P2PServer.call_step_cases node.greets h.server hc hpending step with
    ⟨point, hraised, hserver⟩ | ⟨peer_id, hknows, heq⟩
  · have hcall : (node.server.step (step.event call)).calls[call]? = some ⟨c.url, point⟩ := by
      rw [hserver.calls, List.getElem?_modify, hc]
      simp
    cases point with
    | returned peer_id =>
        cases peer_id with
        | none =>
            simp only [resume, serve, hcall]
            exact .fails hdial hserver
        | some peer_id => exact absurd rfl (hserver.unregistered peer_id)
    | raised =>
        obtain ⟨hpoint, rfl⟩ := hraised rfl
        simp only [resume, serve, hcall]
        exact .raises hdial hc hpoint hserver
    | resolving | dialing | registering i | rejecting i =>
        simp only [resume, serve, hcall]
        exact .goes_on hdial (by simp [CallPoint.pending]) hserver
  · have hcall : (node.server.step (step.event call)).calls[call]?
        = some ⟨c.url, .returned (some peer_id)⟩ := by
      rw [heq]
      simp [P2PServer.registered, P2PServer.suspend_call, hc]
    simp only [resume, serve, hcall]
    rw [heq, hurl]
    exact .dialed hdial hknows

omit h in
theorem poll_change {dial : ℕ} {d : Dial} {peer_id : Str} (hdial : node.dials[dial]? = some d)
    (hwaiting : waiting d = some peer_id) {e : DialEvent} {expired : Bool} {now : PyFloat}
    (he : looks dial expired now e) : Change node e (node.poll dial d.url peer_id expired now) := by
  unfold poll
  split
  · rename_i authenticated hlook
    cases authenticated with
    | false => exact .unauthenticated he hdial hwaiting hlook
    | true => exact .authenticated hdial hwaiting
  · exact .sleeps hdial hwaiting

omit h in
theorem on_hello_change (i : ℕ) (passes : Bool) (advertised : PyVal) :
    Change node (.hello i passes advertised) (node.on_hello i passes advertised) := by
  unfold on_hello
  split
  · exact .stays _
  rename_i c hc
  by_cases hbusy : (decide (c.listen ≠ .running) || node.greeting i) = true
  · rw [if_pos hbusy]
    exact .stays _
  rw [if_neg hbusy]
  simp only [Bool.or_eq_true, decide_eq_true_eq, not_or, not_not] at hbusy
  split
  · exact .stays _
  rename_i j hpeer
  cases passes with
  | false => exact .serves rfl (.update (fun _ => rfl) (fun _ hc => by cases hc) fun _ _ hc => hc)
  | true =>
      simp only [Bool.not_true, Bool.false_eq_true, if_false]
      split_ifs
      · exact .serves rfl (.update (fun _ => rfl) (fun _ hc => hc) fun _ _ hc => hc)
      · exact .greets hc hbusy.1 hpeer

omit h in
theorem greeted_change (greeting : ℕ) :
    Change node (.greeted greeting) (node.greeted greeting) := by
  unfold greeted
  dsimp only
  split
  · exact .greeted
  · rename_i peer_id url hentry
    exact .enters hentry

omit [Runtime] [FloatMath] in
/-- Events of the server that no dial waits for. -/
theorem serve_keeps {e : ServerEvent}
    (he : (∃ peer_id allowed, e = .accepts peer_id allowed) ∨
      (∃ i, e = .listen_ends i ∧ ¬ node.greets i) ∨ (∃ i, e = .closes i) ∨
      (∃ handler, e = .handshake_done handler ∨ e = .handshake_timeout handler ∨
        e = .handler_ends handler false)) :
    (node.server.step e).calls = node.server.calls ∧
      P2PServer.Keeps node.greets node.server (node.server.step e) := by
  rcases he with ⟨peer_id, allowed, rfl⟩ | ⟨i, rfl, hidle⟩ | ⟨i, rfl⟩ | ⟨handler, rfl | rfl | rfl⟩
  · rcases P2PServer.handle_connection_eq h.server.unlocked peer_id allowed with
      heq | ⟨hknows, -, point, heq⟩
    · simp only [P2PServer.step, heq]
      exact ⟨trivial, .refl⟩
    · simp only [P2PServer.step, heq]
      refine ⟨trivial, P2PServer.Keeps.append h.server hknows fun k => ?_⟩
      rw [StrDict.find_set]
      split_ifs with hk
      · exact Or.inr hk
      · exact Or.inl rfl
  · refine ⟨rfl, .update (fun c => ?_) (fun c hc => ?_) fun hi => absurd hi hidle⟩
    · split_ifs <;> rfl
    · split_ifs at hc
      exact hc
  · exact ⟨rfl, .update (fun _ => rfl) (fun _ hc => by cases hc) fun _ _ hc => hc⟩
  · simp only [P2PServer.step]
    split
    · split_ifs
      · exact ⟨rfl, .of_eq rfl rfl rfl⟩
      · exact ⟨rfl, .refl⟩
    · exact ⟨rfl, .refl⟩
  · simp only [P2PServer.step]
    split
    · rename_i i _ _
      have hcloses : P2PServer.Keeps node.greets node.server
          (node.server.update i fun c => { c with closed := true }) :=
        .update (fun _ => rfl) (fun _ hc => by cases hc) fun _ _ hc => hc
      exact ⟨rfl, hcloses.peers, hcloses.gone, hcloses.urls, hcloses.knows, hcloses.held⟩
    · exact ⟨rfl, .refl⟩
  · simp only [P2PServer.step]
    split
    · exact ⟨rfl, .refl⟩
    · rename_i point i c _ hhandled
      split_ifs with hfinished
      · -- the entry of a connection that has ended is gone already
        have hlisten : c.listen = .finished := by simpa using hfinished
        have hc : c ∈ node.server.connections := by
          simp only [P2PServer.handled, Option.bind_eq_bind, Option.bind_eq_some_iff,
            Option.pure_def, Option.some.injEq, Prod.mk.injEq] at hhandled
          obtain ⟨handler', -, c', hc', -, -, rfl⟩ := hhandled
          exact List.mem_of_getElem? hc'
        have habsent := h.server.contains_of_gone hc (Or.inr hlisten)
        rw [P2PServer.end_handler_eq h.server.unlocked]
        have hunregister : P2PServer.Keeps node.greets node.server (node.server.unregister c.peer_id) :=
          .unregister habsent
        exact ⟨rfl, hunregister.peers, hunregister.gone, hunregister.urls, hunregister.knows,
          hunregister.held⟩
      · exact ⟨rfl, .refl⟩
    · exact ⟨rfl, .refl⟩

theorem step_change (e : DialEvent) : Change node e (node.step e) := by
  cases e with
  | connect_peer url now => exact connect_peer_change h url now
  | call dial step now =>
      simp only [DialingNode.step]
      split
      · rename_i hdial
        exact call_change h hdial step now
      · exact .stays _
  | hello_sent dial now =>
      simp only [DialingNode.step]
      split
      · rename_i hdial
        split_ifs
        · exact poll_change hdial rfl (Or.inl ⟨rfl, rfl⟩)
        · exact .authenticated hdial rfl
      · exact .stays _
  | polls dial expired now =>
      simp only [DialingNode.step]
      split
      · rename_i hdial
        exact poll_change hdial rfl (Or.inr rfl)
      · exact .stays _
  | dial_ends dial =>
      simp only [DialingNode.step]
      split
      · rename_i hdial
        exact .ends hdial (Or.inl rfl)
      · rename_i hdial
        exact .ends hdial (Or.inr rfl)
      · exact .stays _
  | hello i passes advertised => exact on_hello_change i passes advertised
  | greeted greeting => exact greeted_change greeting
  | accepts peer_id allowed =>
      have hkeeps := serve_keeps h (Or.inl ⟨peer_id, allowed, rfl⟩)
      exact .serves hkeeps.1 hkeeps.2
  | listen_ends i =>
      simp only [DialingNode.step]
      split_ifs with hidle
      · exact .stays _
      · have hkeeps := serve_keeps h (Or.inr (Or.inl ⟨i, rfl, hidle⟩))
        exact .serves hkeeps.1 hkeeps.2
  | on_closed i now =>
      simp only [DialingNode.step]
      split
      · rename_i c hc
        split_ifs with hlisten
        · have hdisconnected := @Change.disconnected _ _ node i c now hc hlisten
          simpa only [serve, P2PServer.step, hc, hlisten, if_true,
            P2PServer.handle_peer_closed_eq h.server.unlocked] using hdisconnected
        · exact .stays _
      · exact .stays _
  | closes i =>
      have hkeeps := serve_keeps h (Or.inr (Or.inr (Or.inl ⟨i, rfl⟩)))
      exact .serves hkeeps.1 hkeeps.2
  | handshake_done handler =>
      have hkeeps := serve_keeps h (Or.inr (Or.inr (Or.inr ⟨handler, Or.inl rfl⟩)))
      exact .serves hkeeps.1 hkeeps.2
  | handshake_timeout handler =>
      have hkeeps := serve_keeps h (Or.inr (Or.inr (Or.inr ⟨handler, Or.inr (Or.inl rfl)⟩)))
      exact .serves hkeeps.1 hkeeps.2
  | handler_ends handler =>
      have hkeeps := serve_keeps h (Or.inr (Or.inr (Or.inr ⟨handler, Or.inr (Or.inr rfl)⟩)))
      exact .serves hkeeps.1 hkeeps.2

end Inversion

/-! ## The tasks stay in order -/

section Server

variable {node : DialingNode}

theorem resume_server (dial : ℕ) (url : Str) (call : ℕ) (now : PyFloat) :
    (node.resume dial url call now).server = node.server := by
  unfold resume
  split <;> rfl

theorem on_peer_disconnected_server (peer_id : Str) (now : PyFloat) :
    (node.on_peer_disconnected peer_id now).server = node.server := by
  unfold on_peer_disconnected
  dsimp only
  split
  · rfl
  · split <;> rfl

omit [Runtime] [FloatMath] in
theorem close_peer_server (peer_id : Str) : (node.close_peer peer_id).server = node.server ∨
    ∃ e, (node.close_peer peer_id).server = node.server.step e := by
  unfold close_peer
  split
  · rename_i i _
    exact Or.inr ⟨.closes i, rfl⟩
  · exact Or.inl rfl

theorem auth_result_server (dial : ℕ) (url peer_id : Str) (authenticated : Bool) (now : PyFloat) :
    (node.auth_result dial url peer_id authenticated now).server = node.server ∨
      ∃ e, (node.auth_result dial url peer_id authenticated now).server = node.server.step e := by
  unfold auth_result
  split
  · exact Or.inl rfl
  · dsimp only
    split
    · exact Or.inl rfl
    · exact close_peer_server peer_id

theorem poll_server (dial : ℕ) (url peer_id : Str) (expired : Bool) (now : PyFloat) :
    (node.poll dial url peer_id expired now).server = node.server ∨
      ∃ e, (node.poll dial url peer_id expired now).server = node.server.step e := by
  unfold poll
  split
  · exact auth_result_server dial url peer_id _ now
  · exact Or.inl rfl

/-- An event of the node is at most one event of its server. -/
theorem step_server (e : DialEvent) : (node.step e).server = node.server ∨
    ∃ e', (node.step e).server = node.server.step e' := by
  cases e with
  | connect_peer url now =>
      simp only [DialingNode.step, connect_peer]
      split_ifs
      · exact Or.inl rfl
      · exact Or.inl rfl
      · exact Or.inr ⟨.connect_peer url, resume_server _ _ _ _⟩
  | call dial step now =>
      simp only [DialingNode.step]
      split
      · rename_i call _
        exact Or.inr ⟨step.event call, resume_server _ _ _ _⟩
      · exact Or.inl rfl
  | hello_sent dial now =>
      simp only [DialingNode.step]
      split
      · split
        · exact poll_server _ _ _ _ _
        · exact Or.inl rfl
      · exact Or.inl rfl
  | polls dial expired now =>
      simp only [DialingNode.step]
      split
      · exact poll_server _ _ _ _ _
      · exact Or.inl rfl
  | dial_ends dial =>
      simp only [DialingNode.step]
      split <;> exact Or.inl rfl
  | hello i passes advertised =>
      simp only [DialingNode.step, on_hello]
      split
      · exact Or.inl rfl
      · split
        · exact Or.inl rfl
        · split
          · exact Or.inl rfl
          · rename_i j _
            split
            · exact Or.inr ⟨.closes j, rfl⟩
            · split <;> exact Or.inr ⟨.authenticates j, rfl⟩
  | greeted greeting =>
      simp only [DialingNode.step, greeted]
      split <;> exact Or.inl rfl
  | listen_ends i =>
      simp only [DialingNode.step]
      split
      · exact Or.inl rfl
      · exact Or.inr ⟨.listen_ends i, rfl⟩
  | on_closed i now =>
      simp only [DialingNode.step]
      split
      · split
        · exact Or.inr ⟨.on_closed i, on_peer_disconnected_server _ _⟩
        · exact Or.inl rfl
      · exact Or.inl rfl
  | accepts peer_id allowed => exact Or.inr ⟨.accepts peer_id allowed, rfl⟩
  | closes i => exact Or.inr ⟨.closes i, rfl⟩
  | handshake_done handler => exact Or.inr ⟨.handshake_done handler, rfl⟩
  | handshake_timeout handler => exact Or.inr ⟨.handshake_timeout handler, rfl⟩
  | handler_ends handler => exact Or.inr ⟨.handler_ends handler false, rfl⟩

theorem server_inv {settings : ServerSettings} (h : P2PServer.Inv settings node.server)
    (e : DialEvent) : P2PServer.Inv settings (node.step e).server := by
  rcases step_server e with heq | ⟨e', heq⟩
  · rw [heq]
    exact h
  · rw [heq]
    exact h.step e'

end Server

/-! What a change does to the dials. -/

section Dials

omit [Runtime] [FloatMath]

variable {dials : List Dial}

/-- A dial after one of them came to another point. -/
theorem modify_point_cases {dial i : ℕ} {point : DialPoint} {d : Dial}
    (hd : (dials.modify dial fun d => { d with point := point })[i]? = some d) :
    (i = dial ∧ d.point = point ∧ ∃ d', dials[i]? = some d' ∧ d'.url = d.url) ∨
      (i ≠ dial ∧ dials[i]? = some d) := by
  rw [List.getElem?_modify] at hd
  obtain ⟨d', hd', hpoint⟩ := Option.map_eq_some_iff.mp hd
  by_cases hi : dial = i
  · rw [if_pos hi] at hpoint
    subst hpoint
    exact Or.inl ⟨hi.symm, rfl, d', hd', rfl⟩
  · rw [if_neg hi] at hpoint
    subst hpoint
    exact Or.inr ⟨Ne.symm hi, hd'⟩

/-- A dial after one more has begun. -/
theorem append_dial_cases {new d : Dial} {i : ℕ} (hd : (dials ++ [new])[i]? = some d) :
    (i = dials.length ∧ d = new) ∨ dials[i]? = some d := by
  rcases Nat.lt_trichotomy i dials.length with hlt | rfl | hgt
  · rw [List.getElem?_append_left hlt] at hd
    exact Or.inr hd
  · rw [List.getElem?_concat_length] at hd
    exact Or.inl ⟨rfl, (Option.some.inj hd).symm⟩
  · rw [List.getElem?_eq_none (by simp; omega)] at hd
    cases hd

end Dials

section Tasks

omit [Runtime] [FloatMath]

variable {settings : ServerSettings} {node after : DialingNode} (h : Wf settings node)
include h

/-- The dials stay where they are, and so do their calls. -/
theorem Wf.of_eq (hserver : P2PServer.Inv settings after.server) (hdials : after.dials = node.dials)
    (hurls : after.connecting_urls = node.connecting_urls)
    (hcalls : after.server.calls = node.server.calls) : Wf settings after where
  server := hserver
  dialing := by
    rw [hdials, hurls]
    exact h.dialing
  distinct := by
    rw [hdials]
    exact h.distinct
  calling := by
    rw [hdials, hcalls]
    exact h.calling

/-- The call of a dial is no other dial's. -/
theorem Wf.own_call {dial call i : ℕ} {url url' : Str}
    (hdial : node.dials[dial]? = some ⟨url, .calling call⟩)
    (hi : node.dials[i]? = some ⟨url', .calling call⟩) : i = dial := by
  obtain ⟨c, hc, hurl, -⟩ := h.calling dial url call hdial
  obtain ⟨c', hc', hurl', -⟩ := h.calling i url' call hi
  rw [hc] at hc'
  obtain rfl := Option.some.inj hc'
  exact h.distinct i dial _ _ hi hdial (by simp) (by simp) (hurl'.symm.trans hurl)

/-- A dial comes to a point at which its call has returned. -/
theorem Wf.suspend {dial : ℕ} {d : Dial} (hdial : node.dials[dial]? = some d)
    (hd : d.point ≠ .returned) {point : DialPoint} (hpoint : ∀ call, point ≠ .calling call)
    (hserver : P2PServer.Inv settings after.server)
    (hdials : after.dials = node.dials.modify dial fun d => { d with point := point })
    (hurls : after.connecting_urls = node.connecting_urls ∨
      (point = .returned ∧ after.connecting_urls = node.connecting_urls.erase d.url))
    (hcalls : ∀ i url call, i ≠ dial → node.dials[i]? = some ⟨url, .calling call⟩ →
      after.server.calls[call]? = node.server.calls[call]?) : Wf settings after where
  server := hserver
  dialing := by
    intro i d' hd' hpoint'
    rw [hdials] at hd'
    have hmem : d'.url ∈ node.connecting_urls := by
      rcases modify_point_cases hd' with ⟨rfl, -, d'', hd'', hurl⟩ | ⟨-, hd'⟩
      · rw [hdial] at hd''
        obtain rfl := Option.some.inj hd''
        rw [← hurl]
        exact h.dialing i d hdial hd
      · exact h.dialing i d' hd' hpoint'
    rcases hurls with hurls | ⟨rfl, hurls⟩
    · rw [hurls]
      exact hmem
    · rw [hurls, Finset.mem_erase]
      refine ⟨fun hurl => ?_, hmem⟩
      rcases modify_point_cases hd' with ⟨-, hreturned, -⟩ | ⟨hne, hd'⟩
      · exact hpoint' hreturned
      · exact hne (h.distinct i dial d' d hd' hdial hpoint' hd hurl)
  distinct := by
    intro i j d₁ d₂ h₁ h₂ hp₁ hp₂ hurl
    rw [hdials] at h₁ h₂
    rcases modify_point_cases h₁ with ⟨hi, -, d₁', hd₁, hu₁⟩ | ⟨-, hd₁⟩ <;>
      rcases modify_point_cases h₂ with ⟨hj, -, d₂', hd₂, hu₂⟩ | ⟨-, hd₂⟩
    · rw [hi, hj]
    · rw [hi, hdial] at hd₁
      obtain rfl := Option.some.inj hd₁
      rw [hi]
      exact h.distinct dial j d d₂ hdial hd₂ hd hp₂ (hu₁.trans hurl)
    · rw [hj, hdial] at hd₂
      obtain rfl := Option.some.inj hd₂
      rw [hj]
      exact h.distinct i dial d₁ d hd₁ hdial hp₁ hd (hurl.trans hu₂.symm)
    · exact h.distinct i j d₁ d₂ hd₁ hd₂ hp₁ hp₂ hurl
  calling := by
    intro i url call hi
    rw [hdials] at hi
    rcases modify_point_cases hi with ⟨-, hcalling, -⟩ | ⟨hne, hi⟩
    · exact absurd hcalling.symm (hpoint call)
    · rw [hcalls i url call hne hi]
      exact h.calling i url call hi

/-- The call of a dial comes to another point, and the dial with it. -/
theorem Wf.end_call {dial call : ℕ} {url : Str}
    (hdial : node.dials[dial]? = some ⟨url, .calling call⟩) {point : DialPoint}
    (hpoint : ∀ call, point ≠ .calling call) (hserver : P2PServer.Inv settings after.server)
    (hdials : after.dials = node.dials.modify dial fun d => { d with point := point })
    (hurls : after.connecting_urls = node.connecting_urls ∨
      (point = .returned ∧ after.connecting_urls = node.connecting_urls.erase url))
    {act : Call → Call} (hcalls : after.server.calls = node.server.calls.modify call act) :
    Wf settings after := by
  refine h.suspend hdial (by simp) hpoint hserver hdials hurls fun i url' call' hne hi => ?_
  have hother : call ≠ call' := by
    rintro rfl
    exact hne (h.own_call hdial hi)
  rw [hcalls, List.getElem?_modify_ne _ _ hother]

/-- A dial begins. -/
theorem Wf.begin {new : Dial} {c : Call} (hserver : P2PServer.Inv settings after.server)
    (hdials : after.dials = node.dials ++ [new])
    (hcalls : after.server.calls = node.server.calls ++ [c])
    (hnew : new.point = .returned ∧ after.connecting_urls = node.connecting_urls ∨
      new.point = .calling node.server.calls.length ∧ new.url ∉ node.connecting_urls ∧
        after.connecting_urls = insert new.url node.connecting_urls ∧ c.url = new.url ∧
        c.point.pending) : Wf settings after where
  server := hserver
  dialing := by
    intro i d hd hpoint
    rw [hdials] at hd
    rcases append_dial_cases hd with ⟨-, rfl⟩ | hd
    · rcases hnew with ⟨hreturned, -⟩ | ⟨-, -, hurls, -⟩
      · exact absurd hreturned hpoint
      · rw [hurls]
        exact Finset.mem_insert_self _ _
    · have hmem := h.dialing i d hd hpoint
      rcases hnew with ⟨-, hurls⟩ | ⟨-, -, hurls, -⟩
      · rwa [hurls]
      · rw [hurls]
        exact Finset.mem_insert_of_mem hmem
  distinct := by
    -- the URL of the new dial is in no other dial under way
    have hfresh : ∀ (j : ℕ) (d : Dial), new.point ≠ .returned → node.dials[j]? = some d →
        d.point ≠ .returned → d.url ≠ new.url := by
      intro j d hunder hd hpoint hurl
      rcases hnew with ⟨hreturned, -⟩ | ⟨-, hidle, -⟩
      · exact hunder hreturned
      · exact hidle (hurl ▸ h.dialing j d hd hpoint)
    intro i j d₁ d₂ h₁ h₂ hp₁ hp₂ hurl
    rw [hdials] at h₁ h₂
    rcases append_dial_cases h₁ with ⟨hi, he₁⟩ | hd₁ <;>
      rcases append_dial_cases h₂ with ⟨hj, he₂⟩ | hd₂
    · rw [hi, hj]
    · rw [he₁] at hp₁ hurl
      exact absurd hurl.symm (hfresh j d₂ hp₁ hd₂ hp₂)
    · rw [he₂] at hp₂ hurl
      exact absurd hurl (hfresh i d₁ hp₂ hd₁ hp₁)
    · exact h.distinct i j d₁ d₂ hd₁ hd₂ hp₁ hp₂ hurl
  calling := by
    intro i url call hi
    rw [hdials] at hi
    rw [hcalls]
    rcases append_dial_cases hi with ⟨-, hd⟩ | hd
    · rcases hnew with ⟨hreturned, -⟩ | ⟨hcalling, -, -, hurl, hpending⟩
      · rw [← hd] at hreturned
        cases hreturned
      · rw [← hd] at hcalling hurl
        obtain rfl := DialPoint.calling.inj hcalling
        exact ⟨c, List.getElem?_concat_length, hurl, hpending⟩
    · obtain ⟨c', hc', hrest⟩ := h.calling i url call hd
      refine ⟨c', ?_, hrest⟩
      rw [List.getElem?_append_left (List.getElem?_eq_some_iff.mp hc').1]
      exact hc'

end Tasks

omit [Runtime] [FloatMath] in
theorem Wf.start (server : ServerSettings) (local_url : Str) (reconnect : ReconnectSettings) :
    Wf server (start local_url server reconnect) where
  server := .start server
  dialing := by simp [DialingNode.start]
  distinct := by simp [DialingNode.start]
  calling := by simp [DialingNode.start]

omit [Runtime] [FloatMath] in
/-- A dial that waits is under way, and has no call any more. -/
theorem ne_returned_of_waiting {d : Dial} {peer_id : Str} (hwaiting : waiting d = some peer_id) :
    d.point ≠ .returned := by
  intro hpoint
  rw [waiting, hpoint] at hwaiting
  cases hwaiting

omit [Runtime] [FloatMath] in
/-- `_close_peer` changes the server only. -/
theorem close_peer_eq (node : DialingNode) (peer_id : Str) :
    node.close_peer peer_id = { node with server := (node.close_peer peer_id).server } := by
  unfold close_peer
  split <;> rfl

omit [Runtime] [FloatMath] in
theorem close_peer_calls (node : DialingNode) (peer_id : Str) :
    (node.close_peer peer_id).server.calls = node.server.calls := by
  unfold close_peer
  split <;> rfl

theorem Wf.change {settings : ServerSettings} {node after : DialingNode} (h : Wf settings node)
    (hserver : P2PServer.Inv settings after.server) {e : DialEvent} (hchange : Change node e after) :
    Wf settings after := by
  cases hchange with
  | stays => exact h
  | starts hdials =>
      exact h.begin hserver rfl rfl
        (Or.inr ⟨rfl, hdials.idle, rfl, rfl, by simp [CallPoint.pending]⟩)
  | refused => exact h.begin hserver rfl rfl (Or.inl ⟨rfl, rfl⟩)
  | @goes_on dial call url step now server point hdial hpoint hgoes =>
      refine ⟨hserver, h.dialing, h.distinct, fun i url' call' hi => ?_⟩
      obtain ⟨c, hc, hurl, hpending⟩ := h.calling i url' call' hi
      simp only [hgoes.calls, List.getElem?_modify, hc, Option.map_eq_map, Option.map_some]
      by_cases hcall : call = call'
      · rw [if_pos hcall]
        exact ⟨_, rfl, hurl, hpoint⟩
      · rw [if_neg hcall]
        exact ⟨c, rfl, hurl, hpending⟩
  | fails hdial hgoes =>
      exact h.end_call hdial (fun _ => DialPoint.noConfusion) hserver rfl (Or.inr ⟨rfl, rfl⟩)
        hgoes.calls
  | raises hdial _ _ hgoes =>
      exact h.end_call hdial (fun _ => DialPoint.noConfusion) hserver rfl (Or.inr ⟨rfl, rfl⟩)
        hgoes.calls
  | dialed hdial =>
      exact h.end_call hdial (fun _ => DialPoint.noConfusion) hserver rfl (Or.inl rfl) rfl
  | sleeps hdial hwaiting =>
      exact h.suspend hdial (ne_returned_of_waiting hwaiting) (fun _ => DialPoint.noConfusion)
        hserver rfl (Or.inl rfl) fun _ _ _ _ _ => rfl
  | authenticated hdial hwaiting =>
      exact h.suspend hdial (ne_returned_of_waiting hwaiting) (fun _ => DialPoint.noConfusion)
        hserver rfl (Or.inl rfl) fun _ _ _ _ _ => rfl
  | unauthenticated _ hdial hwaiting _ =>
      have hunder := ne_returned_of_waiting hwaiting
      unfold auth_result at hserver ⊢
      simp only [Bool.false_eq_true, if_false] at hserver ⊢
      split at hserver
      · rename_i hraises
        rw [if_pos hraises]
        exact h.suspend hdial hunder (fun _ => DialPoint.noConfusion) hserver rfl
          (Or.inr ⟨rfl, rfl⟩) fun _ _ _ _ _ => rfl
      · rename_i hraises
        rw [if_neg hraises]
        rw [close_peer_eq] at hserver ⊢
        refine h.suspend hdial hunder (fun _ => DialPoint.noConfusion) hserver rfl (Or.inl rfl)
          fun i url call _ _ => ?_
        simp only [DialingNode.suspend, close_peer_calls]
        rfl
  | ends hdial hpoint =>
      have hunder : ∀ d : Dial, d.point = .sending_peers ∨ d.point = .closing →
          d.point ≠ .returned := by
        rintro d (hd | hd) <;> simp [hd]
      exact h.suspend hdial (hunder _ hpoint) (fun _ => DialPoint.noConfusion) hserver rfl
        (Or.inr ⟨rfl, rfl⟩) fun _ _ _ _ _ => rfl
  | greets => exact h.of_eq hserver rfl rfl rfl
  | greeted => exact h.of_eq hserver rfl rfl rfl
  | enters => exact h.of_eq hserver rfl rfl rfl
  | serves hcalls => exact h.of_eq hserver rfl rfl hcalls
  | disconnected hc =>
      refine h.of_eq hserver ?_ ?_ ?_ <;>
      · unfold on_peer_disconnected
        dsimp only
        split
        · rfl
        · split <;> rfl

theorem Wf.step {settings : ServerSettings} {node : DialingNode} (h : Wf settings node)
    (e : DialEvent) : Wf settings (node.step e) :=
  h.change (server_inv h.server e) (step_change h e)

end Changes

end DialingNode

end EasyBlockchain
