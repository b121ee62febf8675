/-
Two nodes that authenticate each other: who may speak before the HELLO arrived.

A connection has two ends, and each end is in the table of its node from the
moment it is registered. The dialing node registers its end and sends its HELLO
without a suspension in between, so its HELLO is the first thing on the wire. The
accepting node registers its end when the connection opens and sends its HELLO
when it has handled the other one; until then `broadcast` already reaches the
end, and what it sends arrives at a node that has seen no HELLO.

Frames between two honest nodes decode, so they are kept decoded, and each end
reads its own in the order they were sent. A `broadcast` is one `send` for every
connection of the node, with anything in between.
-/
import EasyBlockchain.PeerGate

set_option autoImplicit false

namespace EasyBlockchain

open Py Lib

/-- The two nodes. -/
inductive Side
  | left
  | right
  deriving DecidableEq

def Side.other : Side → Side
  | left => right
  | right => left

@[simp] theorem Side.other_other (s : Side) : s.other.other = s := by
  cases s with
  | left => rfl
  | right => rfl

@[simp] theorem Side.other_ne (s : Side) : s.other ≠ s := by
  cases s with
  | left => decide
  | right => decide

/-! ## A connection -/

/-- One end of a connection: its `PeerConnection` once there is one, whether it is
in the table of the server, whether `_url_by_peer` has a URL for it, whether the
node has sent a HELLO on it, and the frames that wait to be read. -/
structure LinkEnd where
  peer : Option ListenState
  registered : Bool
  url_known : Bool
  hello_sent : Bool
  inbox : List (MessageType × Dict)

/-- A connection, and the node that dialed it. -/
structure Link where
  dialer : Side
  ends : Side → LinkEnd

namespace LinkEnd

/-- An end that nobody has served yet. -/
def new : LinkEnd := ⟨none, false, false, false, []⟩

/-- The end is in the table and not closed, so `send` sends. -/
def is_open (self : LinkEnd) : Bool :=
  self.registered && (self.peer.any fun peer => !peer.closed)

/-- The `PeerConnection` acts on itself. -/
def act (self : LinkEnd) (f : ListenState → ListenState) : LinkEnd :=
  { self with peer := self.peer.map f }

/-- `listen` has returned, and `_handle_peer_closed` with it. -/
def finish (self : LinkEnd) : LinkEnd :=
  { self.act ListenState.finish with registered := false }

/-- The next frame takes the branch "Unauthenticated message" of `listen`. -/
def trips (self : LinkEnd) : Bool :=
  match self.peer, self.inbox with
  | some peer, (msg_type, _) :: _ => peer.listening && peer.refuses msg_type
  | _, _ => false

/-- No HELLO was accepted at this end, and `listen` may still read one. -/
def unmarked (self : LinkEnd) : Bool :=
  match self.peer with
  | none => true
  | some peer => peer.listening && !peer.authenticated

end LinkEnd

namespace Link

def set (self : Link) (s : Side) (e : LinkEnd) : Link :=
  { self with ends := Function.update self.ends s e }

/-- `send` at the end of `s`. -/
def send (self : Link) (s : Side) (msg_type : MessageType) (payload : Dict) : Link :=
  if (self.ends s).is_open then
    let sent :=
      self.set s { self.ends s with hello_sent := (self.ends s).hello_sent || msg_type = .hello }
    sent.set s.other
      { self.ends s.other with inbox := (self.ends s.other).inbox ++ [(msg_type, payload)] }
  else self

/-- A HELLO, unless it is too large to send. -/
def send_hello (self : Link) (s : Side) (hello : Option Dict) : Link :=
  match hello with
  | some payload => self.send s .hello payload
  | none => self

/-- `connect_peer` once the connection is open. Where the table is full the new
`PeerConnection` is closed, and its `listen` runs until the connection is gone. -/
def dial (self : Link) (peer_id : Str) (require_auth admitted : Bool) (hello : Option Dict) : Link :=
  let peer := ListenState.create peer_id require_auth
  match (self.ends self.dialer).peer with
  | some _ => self
  | none =>
    if admitted then
      (self.set self.dialer { self.ends self.dialer with
        peer := some peer
        registered := true
        url_known := true }).send_hello self.dialer hello
    else self.set self.dialer { self.ends self.dialer with peer := some peer.close }

/-- `_handle_connection`. -/
def accept (self : Link) (peer_id : Str) (require_auth : Bool) : Link :=
  match (self.ends self.dialer.other).peer with
  | some _ => self
  | none =>
    self.set self.dialer.other { self.ends self.dialer.other with
      peer := some (ListenState.create peer_id require_auth)
      registered := true }

@[simp] theorem set_self (self : Link) (s : Side) (e : LinkEnd) : (self.set s e).ends s = e := by
  simp [set]

@[simp] theorem set_other (self : Link) (s : Side) (e : LinkEnd) :
    (self.set s e).ends s.other = self.ends s.other := by
  simp [set]

@[simp] theorem set_set (self : Link) (s : Side) (e e' : LinkEnd) :
    (self.set s e).set s e' = self.set s e' := by
  simp [set]

section Receive

variable [Runtime] [Rsa] [Stringify]

/-- `_on_hello` at the end of `s`, up to the request of blocks. `reply` is the
HELLO that is sent back, and `learns` whether a URL is taken from the payload. -/
def on_hello (self : Link) (s : Side) (settings : GateSettings) (chain : List Block) (now : ℚ)
    (payload : Dict) (reply : Option Dict) (learns : Bool) : Link :=
  if (self.ends s).registered then
    match hello_checks settings chain now payload with
    | .error _ => self.set s (self.ends s).finish
    | .ok false => self.set s ((self.ends s).act ListenState.close)
    | .ok true =>
      let marked := self.set s { (self.ends s).act ListenState.mark_authenticated with
        url_known := (self.ends s).url_known || learns }
      if (self.ends s).url_known then marked else marked.send_hello s reply
  else self

/-- `listen` reads the next frame at the end of `s`. -/
def receive (self : Link) (s : Side) (settings : GateSettings) (chain : List Block) (now : ℚ)
    (allowed : Bool) (reply : Option Dict) (learns : Bool) : Link :=
  match (self.ends s).peer, (self.ends s).inbox with
  | some peer, (msg_type, payload) :: inbox =>
    if peer.listening then
      let self := self.set s { self.ends s with inbox := inbox }
      if !allowed || peer.refuses msg_type then self.set s (self.ends s).finish
      else if msg_type = .hello then self.on_hello s settings chain now payload reply learns
      else self
    else self
  | _, _ => self

end Receive

end Link

/-! ## The order of the frames -/

namespace Link

/-- The end of `s` waits for the HELLO of the other one, or has it first in its
inbox, as long as it is not authenticated. -/
structure OrderlyAt (link : Link) (s : Side) : Prop where
  registered : ∀ peer, (link.ends s).peer = some peer → peer.listening = true →
    (link.ends s).registered = true
  ungated : ∀ peer, (link.ends s).peer = some peer → peer.require_auth = false →
    peer.authenticated = true
  silent : (link.ends s.other).hello_sent = false → (link.ends s).inbox = []
  greeted : (link.ends s).unmarked = true → (link.ends s.other).hello_sent = true →
    ∃ payload rest, (link.ends s).inbox = (.hello, payload) :: rest

def Orderly (link : Link) : Prop := ∀ s, link.OrderlyAt s

theorem Orderly.new (dialer : Side) : Orderly ⟨dialer, fun _ => .new⟩ := by
  intro s
  constructor
  · simp [LinkEnd.new]
  · simp [LinkEnd.new]
  · simp [LinkEnd.new]
  · simp [LinkEnd.new]

/-- An orderly end does not trip. -/
theorem Orderly.untripped {link : Link} (h : link.Orderly) (s : Side) :
    (link.ends s).trips = false := by
  rcases htrips : (link.ends s).trips with _ | _
  · rfl
  unfold LinkEnd.trips at htrips
  split at htrips
  · rename_i peer msg_type payload rest hpeer hinbox
    simp only [ListenState.refuses, Bool.and_eq_true, Bool.not_eq_true', decide_eq_true_eq] at htrips
    obtain ⟨hlistening, ⟨-, hunauthenticated⟩, hother⟩ := htrips
    have hunmarked : (link.ends s).unmarked = true := by
      simp [LinkEnd.unmarked, hpeer, hlistening, hunauthenticated]
    rcases hsent : (link.ends s.other).hello_sent with _ | _
    · -- nothing was sent
      rw [(h s).silent hsent] at hinbox
      cases hinbox
    · obtain ⟨payload', rest', hgreeted⟩ := (h s).greeted hunmarked hsent
      rw [hinbox] at hgreeted
      exact absurd (Prod.mk.inj (List.cons.inj hgreeted).1).1 hother
  · cases htrips

/-- One end changes, and what it has sent stays. -/
theorem Orderly.set {link : Link} (h : link.Orderly) {s : Side} {e : LinkEnd}
    (hsent : e.hello_sent = (link.ends s).hello_sent) (hs : (link.set s e).OrderlyAt s) :
    (link.set s e).Orderly := by
  intro t
  by_cases hts : t = s
  · rw [hts]
    exact hs
  · obtain rfl : t = s.other := by
      cases t <;> cases s <;> simp_all [Side.other]
    constructor
    · rw [set_other]
      exact (h s.other).registered
    · rw [set_other]
      exact (h s.other).ungated
    · rw [Side.other_other, set_self, set_other, hsent]
      simpa using (h s.other).silent
    · rw [Side.other_other, set_self, set_other, hsent]
      simpa using (h s.other).greeted

/-- The `PeerConnection` of an end is registered, and asks for a HELLO or not. -/
structure Listens (e : LinkEnd) : Prop where
  registered : ∀ peer, e.peer = some peer → peer.listening = true → e.registered = true
  ungated : ∀ peer, e.peer = some peer → peer.require_auth = false → peer.authenticated = true

theorem Orderly.listens {link : Link} (h : link.Orderly) (s : Side) : Listens (link.ends s) :=
  ⟨(h s).registered, (h s).ungated⟩

/-- An end keeps its frames, and waits for a HELLO only if it did before. -/
theorem Orderly.keep {link : Link} (h : link.Orderly) {s : Side} {e : LinkEnd} (he : Listens e)
    (hsent : e.hello_sent = (link.ends s).hello_sent) (hinbox : e.inbox = (link.ends s).inbox)
    (hunmarked : e.unmarked = true → (link.ends s).unmarked = true) : (link.set s e).Orderly := by
  apply h.set hsent
  constructor
  · rw [set_self]
    exact he.registered
  · rw [set_self]
    exact he.ungated
  · rw [set_self, set_other, hinbox]
    exact (h s).silent
  · rw [set_self, set_other, hinbox]
    exact fun hmark => (h s).greeted (hunmarked hmark)

/-- An end that does not wait for a HELLO any more has read a frame. -/
theorem Orderly.pop {link : Link} (h : link.Orderly) {s : Side} {e : LinkEnd} (he : Listens e)
    (hsent : e.hello_sent = (link.ends s).hello_sent) (hinbox : (link.ends s).inbox ≠ [])
    (hmarked : e.unmarked = false) : (link.set s e).Orderly := by
  apply h.set hsent
  constructor
  · rw [set_self]
    exact he.registered
  · rw [set_self]
    exact he.ungated
  · rw [set_other]
    exact fun hsilent => absurd ((h s).silent hsilent) hinbox
  · rw [set_self, hmarked]
    exact fun hfalse => Bool.noConfusion hfalse

theorem Orderly.send {link : Link} (h : link.Orderly) {s : Side} {msg_type : MessageType}
    {payload : Dict} (hfirst : msg_type ≠ .hello → (link.ends s).hello_sent = true) :
    (link.send s msg_type payload).Orderly := by
  unfold Link.send
  split
  · -- whoever sends now has sent a HELLO
    have hsent : ((link.ends s).hello_sent || decide (msg_type = .hello)) = true := by
      by_cases hhello : msg_type = .hello
      · simp [hhello]
      · simp [hfirst hhello]
    rw [hsent]
    intro t
    by_cases hts : t = s
    · subst hts
      have hself : ∀ e, ((link.set t { link.ends t with hello_sent := true }).set t.other e).ends t
          = { link.ends t with hello_sent := true } := by
        intro e
        have hother := set_other (link.set t { link.ends t with hello_sent := true }) t.other e
        rw [Side.other_other, set_self] at hother
        exact hother
      constructor
      · rw [hself]
        exact (h t).registered
      · rw [hself]
        exact (h t).ungated
      · rw [hself, set_self]
        exact (h t).silent
      · rw [hself, set_self]
        exact (h t).greeted
    · obtain rfl : t = s.other := by
        cases t <;> cases s <;> simp_all [Side.other]
      constructor
      · rw [set_self]
        exact (h s.other).registered
      · rw [set_self]
        exact (h s.other).ungated
      · intro hsilent
        have hother := set_other (link.set s { link.ends s with hello_sent := true }) s.other
          { link.ends s.other with inbox := (link.ends s.other).inbox ++ [(msg_type, payload)] }
        rw [Side.other_other, set_self] at hother
        rw [Side.other_other, hother] at hsilent
        cases hsilent
      · rw [set_self]
        intro hunmarked _
        rcases hbefore : (link.ends s).hello_sent with _ | _
        · -- the first frame is the HELLO
          have hempty : (link.ends s.other).inbox = [] := by
            apply (h s.other).silent
            rw [Side.other_other]
            exact hbefore
          have hhello : msg_type = .hello := by
            by_contra hother
            rw [hfirst hother] at hbefore
            cases hbefore
          exact ⟨payload, [], by simp [hempty, hhello]⟩
        · obtain ⟨hello, rest, hgreeted⟩ := (h s.other).greeted hunmarked
            (by rw [Side.other_other]; exact hbefore)
          exact ⟨hello, rest ++ [(msg_type, payload)], by simp [hgreeted]⟩
  · exact h

theorem Orderly.send_hello {link : Link} (h : link.Orderly) (s : Side) (hello : Option Dict) :
    (link.send_hello s hello).Orderly := by
  unfold Link.send_hello
  split
  · exact h.send fun hother => absurd rfl hother
  · exact h

theorem Listens.act {e : LinkEnd} (h : Listens e) {f : ListenState → ListenState}
    (hf : ∀ peer, (f peer).listening = peer.listening ∧ (f peer).require_auth = peer.require_auth ∧
      (peer.authenticated = true → (f peer).authenticated = true)) : Listens (e.act f) := by
  constructor
  · intro peer hpeer hlistening
    obtain ⟨old, hold, rfl⟩ := Option.map_eq_some_iff.mp hpeer
    rw [(hf old).1] at hlistening
    exact h.registered old hold hlistening
  · intro peer hpeer hrequire
    obtain ⟨old, hold, rfl⟩ := Option.map_eq_some_iff.mp hpeer
    rw [(hf old).2.1] at hrequire
    exact (hf old).2.2 (h.ungated old hold hrequire)

theorem Listens.finish {e : LinkEnd} (h : Listens e) : Listens e.finish := by
  constructor
  · intro peer hpeer hlistening
    obtain ⟨old, -, rfl⟩ := Option.map_eq_some_iff.mp hpeer
    cases hlistening
  · intro peer hpeer hrequire
    obtain ⟨old, hold, rfl⟩ := Option.map_eq_some_iff.mp hpeer
    exact h.ungated old hold hrequire

theorem unmarked_finish {e : LinkEnd} (h : e.finish.unmarked = true) : e.unmarked = true := by
  rcases hpeer : e.peer with _ | peer
  · simp [LinkEnd.unmarked, hpeer]
  · simp [LinkEnd.unmarked, LinkEnd.finish, LinkEnd.act, hpeer, ListenState.finish] at h

/-- Closing a `PeerConnection` and losing its URL change nothing about reading. -/
theorem Orderly.close {link : Link} (h : link.Orderly) (s : Side) (url_known : Bool) :
    (link.set s { (link.ends s).act ListenState.close with url_known := url_known }).Orderly := by
  have hclosed := (h.listens s).act (f := ListenState.close) fun peer => ⟨rfl, rfl, id⟩
  refine h.keep ⟨hclosed.registered, hclosed.ungated⟩ rfl rfl ?_
  intro hunmarked
  rcases hpeer : (link.ends s).peer with _ | peer
  · simp [LinkEnd.unmarked, hpeer]
  · simpa [LinkEnd.unmarked, LinkEnd.act, hpeer, ListenState.close] using hunmarked

/-- An end that has stopped reading is in nobody's way. -/
theorem Orderly.finish {link : Link} (h : link.Orderly) (s : Side) :
    (link.set s (link.ends s).finish).Orderly :=
  h.keep (h.listens s).finish rfl rfl unmarked_finish

/-- A `PeerConnection` that is registered when it is made. -/
theorem Orderly.register {link : Link} (h : link.Orderly) {s : Side} (peer_id : Str)
    (require_auth : Bool) (hnew : (link.ends s).peer = none) (url_known : Bool) :
    (link.set s { link.ends s with
      peer := some (ListenState.create peer_id require_auth)
      registered := true
      url_known := url_known }).Orderly := by
  refine h.keep ⟨fun peer _ _ => rfl, ?_⟩ rfl rfl ?_
  · intro peer hpeer hrequire
    obtain rfl := Option.some.inj hpeer
    have hopen : require_auth = false := hrequire
    simp [ListenState.create, hopen]
  · intro _
    simp [LinkEnd.unmarked, hnew]

theorem Orderly.dial {link : Link} (h : link.Orderly) (peer_id : Str) (require_auth : Bool)
    (hello : Option Dict) : (link.dial peer_id require_auth true hello).Orderly := by
  unfold Link.dial
  dsimp only
  split
  · exact h
  · rename_i hnew
    rw [if_pos rfl]
    exact (h.register peer_id require_auth hnew true).send_hello _ hello

theorem Orderly.accept {link : Link} (h : link.Orderly) (peer_id : Str) (require_auth : Bool) :
    (link.accept peer_id require_auth).Orderly := by
  unfold Link.accept
  split
  · exact h
  · rename_i hnew
    exact h.register peer_id require_auth hnew _

section Receive

variable [Runtime] [Rsa] [Stringify]

/-- An orderly end stays orderly when it reads, if the HELLO passes that it reads. -/
theorem Orderly.receive {link : Link} (h : link.Orderly) {s : Side} {settings : GateSettings}
    {chain : List Block} {now : ℚ}
    (hpasses : ∀ payload rest, (link.ends s).inbox = (.hello, payload) :: rest →
      hello_checks settings chain now payload = .ok true)
    (allowed : Bool) (reply : Option Dict) (learns : Bool) :
    (link.receive s settings chain now allowed reply learns).Orderly := by
  unfold Link.receive
  split
  · rename_i peer msg_type payload rest hpeer hinbox
    split
    · rename_i hlistening
      have hne : (link.ends s).inbox ≠ [] := by
        rw [hinbox]
        exact List.cons_ne_nil _ _
      have hlistens : Listens { link.ends s with inbox := rest } :=
        ⟨(h s).registered, (h s).ungated⟩
      dsimp only
      split
      · -- the frame ends the loop
        rw [set_set, set_self]
        apply h.pop hlistens.finish rfl hne
        simp [LinkEnd.unmarked, LinkEnd.finish, LinkEnd.act, hpeer, ListenState.finish]
      · rename_i hreads
        split
        · rename_i hhello
          subst hhello
          have hregistered := (h s).registered peer hpeer hlistening
          rw [Link.on_hello, set_self, if_pos hregistered, hpasses payload rest hinbox]
          dsimp only
          rw [set_set]
          have hmark := hlistens.act (f := ListenState.mark_authenticated)
            fun peer => ⟨rfl, rfl, fun _ => rfl⟩
          have hmarked := h.pop (s := s) (e := { LinkEnd.act { link.ends s with inbox := rest }
            ListenState.mark_authenticated with url_known := (link.ends s).url_known || learns })
            ⟨hmark.registered, hmark.ungated⟩ rfl hne (by
              simp [LinkEnd.unmarked, LinkEnd.act, hpeer, ListenState.mark_authenticated])
          split
          · exact hmarked
          · exact hmarked.send_hello s reply
        · rename_i hother
          -- another message is not refused, so the peer is authenticated
          apply h.pop hlistens rfl hne
          have hauthenticated : peer.authenticated = true := by
            by_contra hnot
            have hrequire : peer.require_auth = true := by
              by_contra hrequire
              exact hnot ((h s).ungated peer hpeer (by simpa using hrequire))
            simp [ListenState.refuses, hrequire, hnot, hother] at hreads
          simp [LinkEnd.unmarked, hpeer, hauthenticated]
    · exact h
  · exact h

end Receive

end Link

/-! ## Two nodes -/

/-- What can happen next; a connection is named by its position. -/
inductive LinkEvent
  | opens (dialer : Side)
  | dials (i : ℕ) (peer_id : Str) (admitted : Bool) (hello : Option Dict)
  | accepts (i : ℕ) (peer_id : Str)
  | sends (i : ℕ) (s : Side) (msg_type : MessageType) (payload : Dict)
  | reads (i : ℕ) (s : Side) (chain : List Block) (now : ℚ) (allowed : Bool) (reply : Option Dict)
      (learns : Bool)
  | closes (i : ℕ) (s : Side)
  | forgets_url (i : ℕ) (s : Side)
  | finishes (i : ℕ) (s : Side)

section Pair

variable [Runtime] [Rsa] [Stringify] (settings : Side → GateSettings)

/-- The connections between the two nodes after an event. -/
def link_step (links : List Link) : LinkEvent → List Link
  | .opens dialer => links ++ [⟨dialer, fun _ => .new⟩]
  | .dials i peer_id admitted hello =>
    links.modify i fun link =>
      link.dial peer_id (settings link.dialer).peer_auth.enabled admitted hello
  | .accepts i peer_id =>
    links.modify i fun link =>
      link.accept peer_id (settings link.dialer.other).peer_auth.enabled
  | .sends i s msg_type payload => links.modify i fun link => link.send s msg_type payload
  | .reads i s chain now allowed reply learns =>
    links.modify i fun link => link.receive s (settings s) chain now allowed reply learns
  | .closes i s => links.modify i fun link => link.set s ((link.ends s).act ListenState.close)
  | .forgets_url i s =>
    -- a dialed connection that did not authenticate in time is closed
    links.modify i fun link =>
      link.set s { (link.ends s).act ListenState.close with url_known := false }
  | .finishes i s => links.modify i fun link => link.set s (link.ends s).finish

omit [Runtime] [Rsa] [Stringify] in
/-- The payload of the next frame at an end, if that is a HELLO. -/
def next_hello (links : List Link) (i : ℕ) (s : Side) : Option Dict :=
  match (links[i]?).map fun link : Link => (link.ends s).inbox with
  | some ((.hello, payload) :: _) => some payload
  | _ => none

/-- The nodes are honest and compatible: a HELLO that is read passes the checks. -/
def HelloPasses (links : List Link) : LinkEvent → Prop
  | .reads i s chain now _ _ _ => ∀ payload ∈ next_hello links i s,
      hello_checks (settings s) chain now payload = .ok true
  | _ => True

/-- Honest nodes of one network are compatible: a HELLO that was built with the
consensus type and the genesis hash of the reader passes, as long as the clocks
are close. -/
theorem hello_checks_built {settings : GateSettings} {manager : SignatureManager}
    {pem node_id genesis : Str} {chain_height : ℕ} {advertised_url : Option Str} {timestamp : ℤ}
    {salt : List UInt8} {payload : Dict} {chain : List Block} {now : ℚ} (hsigns : Signs manager pem)
    (hbuilt : build_hello_payload node_id settings.consensus_type chain_height genesis manager
      advertised_url timestamp salt = .ok payload)
    (hgenesis : genesis_hash chain settings.genesis_prev_hash = .ok genesis)
    (hclose : too_far settings.peer_auth.max_skew_seconds now timestamp = .ok false) :
    hello_checks settings chain now payload = .ok true := by
  have hverified : verify_hello payload settings.peer_auth now = .ok true := by
    rw [verify_hello_built _ _ _ _ _ _ hsigns hbuilt, hclose]
    rfl
  obtain ⟨hconsensus, hfield⟩ := find_of_built _ _ _ _ _ _ hbuilt
  unfold hello_checks
  rw [hverified, hconsensus, hgenesis, hfield]
  split
  · simp
  · simp

omit [Runtime] [Rsa] [Stringify] in
/-- Nothing is sent on a connection before the own HELLO, and the table of a
dialing node has room. -/
def HelloFirst (links : List Link) : LinkEvent → Prop
  | .dials _ _ admitted _ => admitted = true
  | .sends i s msg_type _ => msg_type ≠ .hello → ∀ link ∈ links[i]?, (link.ends s).hello_sent = true
  | _ => True

omit [Runtime] [Rsa] [Stringify] in
/-- No end is about to close on an unauthenticated message. -/
def Untripped (links : List Link) : Prop := ∀ link ∈ links, ∀ s, (link.ends s).trips = false

/-- Every step that meets the conditions keeps the order. -/
theorem link_step_orderly {links : List Link} (h : ∀ link ∈ links, link.Orderly) {event : LinkEvent}
    (hcompatible : HelloPasses settings links event) (hfirst : HelloFirst links event) :
    ∀ link ∈ link_step settings links event, link.Orderly := by
  have hmodify : ∀ (i : ℕ) (f : Link → Link),
      (∀ link, links[i]? = some link → link.Orderly → (f link).Orderly) →
        ∀ link ∈ links.modify i f, link.Orderly := by
    intro i f hf link hlink
    obtain ⟨j, hj⟩ := List.mem_iff_getElem?.mp hlink
    rw [List.getElem?_modify] at hj
    obtain ⟨old, hold, rfl⟩ := Option.map_eq_some_iff.mp hj
    have horderly := h old (List.mem_of_getElem? hold)
    by_cases hij : i = j
    · subst hij
      simpa using hf old hold horderly
    · simpa [hij] using horderly
  cases event with
  | opens dialer =>
      intro link hlink
      rcases List.mem_append.mp hlink with hlink | hlink
      · exact h link hlink
      · rw [List.mem_singleton.mp hlink]
        exact Link.Orderly.new dialer
  | dials i peer_id admitted hello =>
      obtain rfl : admitted = true := hfirst
      exact hmodify i _ fun link _ horderly => horderly.dial peer_id _ hello
  | accepts i peer_id => exact hmodify i _ fun link _ horderly => horderly.accept peer_id _
  | sends i s msg_type payload =>
      exact hmodify i _ fun link hlink horderly =>
        horderly.send fun hother => hfirst hother link hlink
  | reads i s chain now allowed reply learns =>
      exact hmodify i _ fun link hlink horderly =>
        horderly.receive (fun payload rest hinbox => hcompatible payload (by
          simp [next_hello, hlink, hinbox])) allowed reply learns
  | closes i s => exact hmodify i _ fun link _ horderly => horderly.close s _
  | forgets_url i s => exact hmodify i _ fun link _ horderly => horderly.close s false
  | finishes i s => exact hmodify i _ fun link _ horderly => horderly.finish s

/-- Two honest nodes do not trip the gate of each other in any state of a run in
which each of them greets before it speaks. -/
theorem gate_never_trips (events : List LinkEvent)
    (hcompatible : AlwaysMeets (HelloPasses settings) (link_step settings) [] events)
    (hfirst : AlwaysMeets HelloFirst (link_step settings) [] events) (k : ℕ) :
    Untripped (run (link_step settings) [] (events.take k)) := by
  have horderly := run_invariant_take (I := fun links => ∀ link ∈ links, link.Orderly)
    (fun links event h hboth => link_step_orderly settings h hboth.1 hboth.2)
    (by simp) (hcompatible.and hfirst) k
  intro link hlink s
  exact (horderly link hlink).untripped s

end Pair

/-! ## A PING before the HELLO -/

namespace EarlyPing

attribute [local instance] cpython letterRsa

local instance : Stringify := ⟨fun _ => []⟩

def settings : Side → GateSettings := fun _ => GateRun.settings

def hello (node_id : Str) : Dict :=
  ((build_hello_payload node_id (lit "pow") 0 DEFAULT_GENESIS_PREV_HASH
    ⟨some (0 : Fin 26), some (0 : Fin 26)⟩ none 1000 []).toOption).getD []

def ping (node_id : Str) : Dict := [(.str (lit "node_id"), .str node_id)]

/-- The left node dials, and both exchange their HELLOs before the right one
sends a PING. -/
def greeted : List LinkEvent :=
  [.opens .left, .accepts 0 (lit "u"), .dials 0 (lit "v") true (some (hello (lit "l"))),
    .reads 0 .right [] 1002 true (some (hello (lit "r"))) false,
    .sends 0 .right .ping (ping (lit "r")), .reads 0 .left [] 1003 true none false]

theorem greeted_untripped : Untripped (run (link_step settings) [] (greeted.take 6)) := by
  have hcompatible : AlwaysMeets (HelloPasses settings) (link_step settings) [] greeted := by
    refine ⟨trivial, trivial, trivial, ?_, trivial, ?_, trivial⟩
    · unfold HelloPasses
      decide +kernel
    · unfold HelloPasses
      decide +kernel
  have hfirst : AlwaysMeets HelloFirst (link_step settings) [] greeted := by
    refine ⟨trivial, trivial, rfl, trivial, ?_, trivial, trivial⟩
    unfold HelloFirst
    decide +kernel
  exact gate_never_trips settings greeted hcompatible hfirst 6

/-- The ping loop of the right node comes before the HELLO of the left one. -/
def pinged : List LinkEvent :=
  [.opens .left, .accepts 0 (lit "u"), .sends 0 .right .ping (ping (lit "r")),
    .dials 0 (lit "v") true (some (hello (lit "l"))),
    .reads 0 .right [] 1002 true (some (hello (lit "r"))) false]

theorem gate_trips : ¬ ∀ (settings : Side → GateSettings) (events : List LinkEvent),
    (∀ s, (settings s).peer_auth.enabled = true) →
      AlwaysMeets (HelloPasses settings) (link_step settings) [] events →
        ∀ k, Untripped (run (link_step settings) [] (events.take k)) := by
  intro h
  have hcompatible : AlwaysMeets (HelloPasses settings) (link_step settings) [] pinged := by
    refine ⟨trivial, trivial, trivial, trivial, ?_, trivial⟩
    unfold HelloPasses
    decide +kernel
  have huntripped := h settings pinged (fun _ => rfl) hcompatible 5
  have htrips : (run (link_step settings) [] (pinged.take 5)).any
      (fun link => (link.ends .left).trips) = true := by
    decide +kernel
  obtain ⟨link, hlink, hleft⟩ := List.any_eq_true.mp htrips
  rw [huntripped link hlink .left] at hleft
  cases hleft

end EarlyPing

end EasyBlockchain
