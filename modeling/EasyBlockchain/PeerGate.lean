/-
`PeerConnection.listen` and `_on_hello`: what is processed before a HELLO passed.

Every connection has a `listen` loop of its own, and a flag that the loop reads.
The flag is set in another place: `_on_hello` looks the connection up in the
table of the server, by the identifier that the loop passed on. The two are the
same connection because identifiers are drawn once.

The state is every connection the node ever had, with the table. Frames, the
bookkeeping of the server and the rest of the node act in any order; a frame that
`listen` still reads after the connection was closed is an event like any other.
-/
import EasyBlockchain.PeerAuth
import EasyBlockchain.Messages
import EasyBlockchain.Lib.Run
import EasyBlockchain.Py.CPython

set_option autoImplicit false

namespace EasyBlockchain

open Py Lib

/-! ## One connection -/

/-- The settings that `listen` and `_on_hello` read. -/
structure GateSettings where
  consensus_type : Str
  genesis_prev_hash : Str
  peer_auth : PeerAuthSettings
  max_decode_errors_before_disconnect : ℤ

/-- The part of `PeerConnection` that `listen` looks at; `listening` until the
loop has returned. -/
structure ListenState where
  peer_id : Str
  require_auth : Bool
  authenticated : Bool
  closed : Bool
  decode_errors : ℕ
  listening : Bool
  deriving DecidableEq

/-- What `listen` does with one frame. -/
inductive Reading
  | skips
  | returns
  | handles (msg_type : MessageType) (payload : Dict)

namespace ListenState

/-- `PeerConnection.__init__`. -/
def create (peer_id : Str) (require_auth : Bool) : ListenState where
  peer_id := peer_id
  require_auth := require_auth
  authenticated := !require_auth
  closed := false
  decode_errors := 0
  listening := true

def mark_authenticated (self : ListenState) : ListenState := { self with authenticated := true }

def close (self : ListenState) : ListenState := { self with closed := true }

/-- The `finally` clause of `listen`. -/
def finish (self : ListenState) : ListenState := { self with closed := true, listening := false }

/-- The gate of `listen`. -/
def refuses (self : ListenState) (msg_type : MessageType) : Bool :=
  self.require_auth && !self.authenticated && msg_type ≠ .hello

/-- A message that does not decode. -/
def decode_error (self : ListenState) (max_decode_errors : ℤ) : Reading × ListenState :=
  let self := { self with decode_errors := self.decode_errors + 1 }
  if max_decode_errors ≤ self.decode_errors then (.returns, self.finish) else (.skips, self)

section Read

variable [Runtime]

/-- The body of the loop of `listen` up to `on_message`; `allowed` is what the
rate limiter answers. -/
def read (self : ListenState) (max_decode_errors : ℤ) (raw : Str) (allowed : Bool) :
    Reading × ListenState :=
  if !allowed then (.returns, self.finish)
  else
    match decode_message raw with
    | .error e =>
      -- an exception that is no `ValueError` ends the loop
      if e.isValueError then self.decode_error max_decode_errors else (.returns, self.finish)
    | .ok (msg_type, payload) =>
      if self.refuses msg_type then (.returns, self.finish) else (.handles msg_type payload, self)

/-- Reading leaves the flag and the identifier alone. -/
theorem read_keeps (self : ListenState) (max_decode_errors : ℤ) (raw : Str) (allowed : Bool) :
    (self.read max_decode_errors raw allowed).2.peer_id = self.peer_id ∧
      (self.read max_decode_errors raw allowed).2.require_auth = self.require_auth ∧
      (self.read max_decode_errors raw allowed).2.authenticated = self.authenticated := by
  unfold read decode_error
  split
  · exact ⟨rfl, rfl, rfl⟩
  split
  · split
    · dsimp only
      split
      · exact ⟨rfl, rfl, rfl⟩
      · exact ⟨rfl, rfl, rfl⟩
    · exact ⟨rfl, rfl, rfl⟩
  · split
    · exact ⟨rfl, rfl, rfl⟩
    · exact ⟨rfl, rfl, rfl⟩

/-- The gate: what is handled is a HELLO, unless the connection is authenticated
or need not be. -/
theorem handles_of_read {self : ListenState} {max_decode_errors : ℤ} {raw : Str} {allowed : Bool}
    {msg_type : MessageType} {payload : Dict}
    (h : (self.read max_decode_errors raw allowed).1 = .handles msg_type payload) :
    decode_message raw = .ok (msg_type, payload) ∧
      (self.require_auth = true → msg_type ≠ .hello → self.authenticated = true) := by
  unfold read decode_error at h
  split at h
  · cases h
  split at h
  · split at h
    · dsimp only at h
      split at h
      · cases h
      · cases h
    · cases h
  · rename_i decoded hdecoded
    split at h
    · cases h
    · rename_i hgate
      obtain ⟨rfl, rfl⟩ := Reading.handles.inj h
      refine ⟨hdecoded, ?_⟩
      intro hrequired hother
      simpa [refuses, hrequired, hother] using hgate

end Read

end ListenState

/-! ## The checks of a HELLO -/

section Checks

variable [Runtime] [Rsa] [Stringify]

omit [Runtime] [Rsa] in
/-- `genesis_hash` of `hash_utils.py`. -/
def genesis_hash (chain : List Block) (genesis_prev_hash : Str) : PyM Str :=
  match chain with
  | [] => .ok genesis_prev_hash
  | first :: _ => do
    let first_header ← first.get (lit "block_header") (.dict [])
    let prev_hash ← first_header.get (lit "prev_hash") (.str genesis_prev_hash)
    return pyStr prev_hash

/-- The checks of `_on_hello` in their order; each of them closes the connection
where it fails. -/
def hello_checks (settings : GateSettings) (chain : List Block) (now : ℚ) (payload : Dict) :
    PyM Bool := do
  if settings.peer_auth.enabled then
    let verified ← verify_hello payload settings.peer_auth now
    if !verified then return false
  let remote_consensus := (Dict.find payload (lit "consensus_type")).getD .none
  if remote_consensus ≠ .str settings.consensus_type then return false
  let local_genesis ← genesis_hash chain settings.genesis_prev_hash
  let remote_genesis := (Dict.find payload (lit "genesis_hash")).getD .none
  if remote_genesis ≠ .str local_genesis then return false
  return true

/-- A HELLO that is signed, and comes from a node of the same consensus and the
same genesis hash. -/
structure PassesHello (settings : GateSettings) (chain : List Block) (now : ℚ) (payload : Dict) :
    Prop where
  verified : verify_hello payload settings.peer_auth now = .ok true
  consensus_type : Dict.find payload (lit "consensus_type") = some (.str settings.consensus_type)
  genesis_hash : ∃ local_genesis,
    EasyBlockchain.genesis_hash chain settings.genesis_prev_hash = .ok local_genesis ∧
      Dict.find payload (lit "genesis_hash") = some (.str local_genesis)

theorem hello_checks_eq_true {settings : GateSettings} {chain : List Block} {now : ℚ}
    {payload : Dict} (henabled : settings.peer_auth.enabled = true) :
    hello_checks settings chain now payload = .ok true ↔ PassesHello settings chain now payload := by
  have hfield : ∀ (key : Str) (value : Str),
      (Dict.find payload key).getD .none = .str value ↔
        Dict.find payload key = some (.str value) := by
    intro key value
    rcases Dict.find payload key with _ | v
    · simp
    · simp
  unfold hello_checks
  simp only [henabled, if_true, bind_eq_ok, pure_eq, ne_eq, hfield]
  constructor
  · rintro ⟨verified, hverified, h⟩
    cases verified with
    | false => simp at h
    | true =>
        simp only [Bool.not_true, Bool.false_eq_true, if_false] at h
        split at h
        · simp at h
        · rename_i hconsensus
          obtain ⟨local_genesis, hlocal, h⟩ := bind_eq_ok.mp h
          split at h
          · simp at h
          · rename_i hgenesis
            exact ⟨hverified, not_not.mp hconsensus, local_genesis, hlocal, not_not.mp hgenesis⟩
  · rintro ⟨hverified, hconsensus, local_genesis, hlocal, hgenesis⟩
    refine ⟨true, hverified, ?_⟩
    simp [hconsensus, hlocal, hgenesis]

end Checks

/-! ## The node -/

/-- Every connection that a node had, and the table `peers` of its server from
identifiers to connections. -/
structure GateNode where
  settings : GateSettings
  connections : List ListenState
  peers : Str → Option ℕ
  chain : List Block

/-- What can happen next. A connection is named by its position among all
connections. -/
inductive GateEvent
  | connects (peer_id : Str)
  | registers (i : ℕ)
  | unregisters (peer_id : Str)
  | frame (i : ℕ) (raw : Str) (allowed : Bool) (now : ℚ)
  | closes (i : ℕ)
  | finishes (i : ℕ)
  | changes_chain (chain : List Block)

namespace GateNode

/-- A node before its first connection. -/
def start (settings : GateSettings) (chain : List Block) : GateNode :=
  ⟨settings, [], fun _ => none, chain⟩

/-- One connection acts on itself. -/
def update (self : GateNode) (i : ℕ) (act : ListenState → ListenState) : GateNode :=
  { self with connections := self.connections.modify i act }

/-- `authenticated` of a connection. -/
def authenticated (self : GateNode) (i : ℕ) : Bool :=
  (self.connections[i]?).any (·.authenticated)

/-- A new `PeerConnection`; `uuid4` draws no identifier twice. -/
def connect (self : GateNode) (peer_id : Str) : GateNode :=
  if self.connections.any (·.peer_id = peer_id) then self
  else
    { self with
      connections :=
        self.connections ++ [ListenState.create peer_id self.settings.peer_auth.enabled] }

/-- `self.peers[peer_id] = peer`. -/
def register (self : GateNode) (i : ℕ) : GateNode :=
  match self.connections[i]? with
  | some connection =>
    { self with peers := Function.update self.peers connection.peer_id (some i) }
  | none => self

section Steps

variable [Runtime] [Rsa] [Stringify]

omit [Rsa] [Stringify] in
/-- What `on_message` is called with for a frame, if it is called. -/
def handled (self : GateNode) (i : ℕ) (raw : Str) (allowed : Bool) : Option (MessageType × Dict) :=
  match self.connections[i]? with
  | some connection =>
    if connection.listening then
      match (connection.read self.settings.max_decode_errors_before_disconnect raw allowed).1 with
      | .handles msg_type payload => some (msg_type, payload)
      | _ => none
    else none
  | none => none

/-- `_on_hello` up to `mark_authenticated`. -/
def on_hello (self : GateNode) (peer_id : Str) (now : ℚ) (payload : Dict) : PyM GateNode :=
  match self.peers peer_id with
  | none => .ok self
  | some i => do
    let passes ← hello_checks self.settings self.chain now payload
    if passes then return self.update i ListenState.mark_authenticated
    else return self.update i ListenState.close

/-- One round of the loop of `listen`. -/
def receive (self : GateNode) (i : ℕ) (raw : Str) (allowed : Bool) (now : ℚ) : GateNode :=
  match self.connections[i]? with
  | none => self
  | some connection =>
    if connection.listening then
      let (reading, connection) :=
        connection.read self.settings.max_decode_errors_before_disconnect raw allowed
      let self := self.update i fun _ => connection
      match reading with
      | .handles .hello payload =>
        match self.on_hello connection.peer_id now payload with
        | .ok self => self
        | .error _ => self.update i ListenState.finish
      | _ => self
    else self

def step (self : GateNode) : GateEvent → GateNode
  | .connects peer_id => self.connect peer_id
  | .registers i => self.register i
  | .unregisters peer_id => { self with peers := Function.update self.peers peer_id none }
  | .frame i raw allowed now => self.receive i raw allowed now
  | .closes i => self.update i ListenState.close
  | .finishes i => self.update i ListenState.finish
  | .changes_chain chain => { self with chain := chain }

/-! ## The identifiers -/

/-- The identifiers of the connections. -/
def ids (self : GateNode) : List Str := self.connections.map (·.peer_id)

omit [Runtime] [Rsa] [Stringify] in
theorem ids_update {self : GateNode} {act : ListenState → ListenState} {i : ℕ}
    (hact : ∀ c : ListenState, self.connections[i]? = some c → (act c).peer_id = c.peer_id) :
    (self.update i act).ids = self.ids := by
  apply List.ext_getElem?
  intro j
  simp only [ids, update, List.getElem?_map, List.getElem?_modify]
  rcases hj : self.connections[j]? with _ | c
  · rfl
  · by_cases hij : i = j
    · subst hij
      simp [hact c hj]
    · simp [hij]

/-- The table finds a connection under its own identifier, and no two
connections share one. -/
structure Wf (node : GateNode) : Prop where
  gated : ∀ c ∈ node.connections, c.require_auth = node.settings.peer_auth.enabled
  distinct : node.ids.Nodup
  table : ∀ peer_id i, node.peers peer_id = some i → node.ids[i]? = some peer_id

omit [Runtime] [Rsa] [Stringify] in
theorem Wf.start (settings : GateSettings) (chain : List Block) : (start settings chain).Wf where
  gated := by simp [GateNode.start]
  distinct := by simp [GateNode.start, ids]
  table := by simp [GateNode.start]

omit [Runtime] [Rsa] [Stringify] in
/-- A connection that keeps its identifier keeps the table right. -/
theorem Wf.update {self : GateNode} (h : self.Wf) {act : ListenState → ListenState} {i : ℕ}
    (hact : ∀ c : ListenState, self.connections[i]? = some c →
      (act c).peer_id = c.peer_id ∧ (act c).require_auth = c.require_auth) :
    (self.update i act).Wf := by
  have hids : (self.update i act).ids = self.ids := ids_update fun c hc => (hact c hc).1
  constructor
  · intro c' hc'
    obtain ⟨j, hj⟩ := List.mem_iff_getElem?.mp hc'
    simp only [GateNode.update, List.getElem?_modify] at hj
    obtain ⟨c, hc, rfl⟩ := Option.map_eq_some_iff.mp hj
    have hgated : c.require_auth = (self.update i act).settings.peer_auth.enabled :=
      h.gated c (List.mem_of_getElem? hc)
    by_cases hij : i = j
    · subst hij
      simpa [(hact c hc).2] using hgated
    · simpa [hij] using hgated
  · rw [hids]
    exact h.distinct
  · rw [hids]
    exact h.table

/-- The round of the loop, once the frame was read. -/
theorem receive_eq {self : GateNode} {i : ℕ} {raw : Str} {allowed : Bool} {now : ℚ} :
    self.receive i raw allowed now = self ∨
      ∃ connection, self.connections[i]? = some connection ∧ connection.listening = true ∧
        self.receive i raw allowed now =
          let read := connection.read self.settings.max_decode_errors_before_disconnect raw allowed
          let self' := self.update i fun _ => read.2
          match read.1 with
          | .handles .hello payload =>
            match self'.on_hello read.2.peer_id now payload with
            | .ok self => self
            | .error _ => self'.update i ListenState.finish
          | _ => self' := by
  unfold receive
  rcases hi : self.connections[i]? with _ | connection
  · exact Or.inl rfl
  · by_cases hlistening : connection.listening = true
    · exact Or.inr ⟨connection, rfl, hlistening, by simp only [hlistening, if_true]⟩
    · exact Or.inl (if_neg hlistening)

theorem Wf.on_hello {self self' : GateNode} (h : self.Wf) {peer_id : Str} {now : ℚ} {payload : Dict}
    (heq : self.on_hello peer_id now payload = .ok self') : self'.Wf := by
  unfold GateNode.on_hello at heq
  split at heq
  · obtain rfl := Except.ok.inj heq
    exact h
  · obtain ⟨passes, -, heq⟩ := bind_eq_ok.mp heq
    split at heq
    · obtain rfl := Except.ok.inj heq
      exact h.update fun c _ => ⟨rfl, rfl⟩
    · obtain rfl := Except.ok.inj heq
      exact h.update fun c _ => ⟨rfl, rfl⟩

omit [Runtime] [Rsa] [Stringify] in
theorem Wf.connect {self : GateNode} (h : self.Wf) (peer_id : Str) : (self.connect peer_id).Wf := by
  unfold GateNode.connect
  split
  · exact h
  · rename_i hfresh
    have hids : (self.connections ++ [ListenState.create peer_id
        self.settings.peer_auth.enabled]).map (·.peer_id) = self.ids ++ [peer_id] := by
      rw [List.map_append]
      rfl
    constructor
    · intro c hc
      rcases List.mem_append.mp hc with hc | hc
      · exact h.gated c hc
      · rw [List.mem_singleton.mp hc]
        rfl
    · rw [ids, hids]
      apply List.Nodup.append h.distinct (List.nodup_singleton _)
      intro id hid hnew
      obtain rfl := List.mem_singleton.mp hnew
      obtain ⟨c, hc, rfl⟩ := List.mem_map.mp hid
      exact hfresh (List.any_eq_true.mpr ⟨c, hc, by simp⟩)
    · intro id i hi
      have hold := h.table id i hi
      rw [ids, hids, List.getElem?_append_left (List.getElem?_eq_some_iff.mp hold).1]
      exact hold

omit [Runtime] [Rsa] [Stringify] in
theorem Wf.register {self : GateNode} (h : self.Wf) (i : ℕ) : (self.register i).Wf := by
  unfold GateNode.register
  split
  · rename_i connection hconnection
    refine ⟨h.gated, h.distinct, ?_⟩
    intro id j hj
    dsimp only at hj
    by_cases hid : id = connection.peer_id
    · subst hid
      rw [Function.update_self] at hj
      obtain rfl := Option.some.inj hj
      simp [ids, hconnection]
    · rw [Function.update_of_ne hid] at hj
      exact h.table id j hj
  · exact h

omit [Runtime] [Rsa] [Stringify] in
theorem Wf.unregister {self : GateNode} (h : self.Wf) (peer_id : Str) :
    GateNode.Wf { self with peers := Function.update self.peers peer_id none } := by
  refine ⟨h.gated, h.distinct, ?_⟩
  intro id j hj
  dsimp only at hj
  by_cases hid : id = peer_id
  · subst hid
    simp at hj
  · rw [Function.update_of_ne hid] at hj
    exact h.table id j hj

theorem Wf.receive {self : GateNode} (h : self.Wf) (i : ℕ) (raw : Str) (allowed : Bool) (now : ℚ) :
    (self.receive i raw allowed now).Wf := by
  rcases @receive_eq _ _ _ self i raw allowed now with heq | ⟨connection, hconnection, -, heq⟩
  · rw [heq]
    exact h
  · rw [heq]
    have hkeeps := connection.read_keeps self.settings.max_decode_errors_before_disconnect raw allowed
    have hread : (self.update i fun _ => (connection.read
        self.settings.max_decode_errors_before_disconnect raw allowed).2).Wf := by
      apply h.update
      intro c hc
      obtain rfl := Option.some.inj (hc.symm.trans hconnection)
      exact ⟨hkeeps.1, hkeeps.2.1⟩
    dsimp only
    split
    · split
      · rename_i hok
        exact hread.on_hello hok
      · exact hread.update fun c _ => ⟨rfl, rfl⟩
    · exact hread

/-- Every event keeps the table right. -/
theorem Wf.step {self : GateNode} (h : self.Wf) (event : GateEvent) : (self.step event).Wf := by
  cases event with
  | connects peer_id => exact h.connect peer_id
  | registers i => exact h.register i
  | unregisters peer_id => exact h.unregister peer_id
  | frame i raw allowed now => exact h.receive i raw allowed now
  | closes i => exact h.update fun c _ => ⟨rfl, rfl⟩
  | finishes i => exact h.update fun c _ => ⟨rfl, rfl⟩
  | changes_chain chain => exact ⟨h.gated, h.distinct, h.table⟩

/-! ## The flag -/

omit [Runtime] [Rsa] [Stringify] in
/-- A connection that keeps its flag keeps the flags. -/
theorem authenticated_update {self : GateNode} {act : ListenState → ListenState} {i : ℕ}
    (hact : ∀ c : ListenState, self.connections[i]? = some c →
      (act c).authenticated = c.authenticated) (j : ℕ) :
    (self.update i act).authenticated j = self.authenticated j := by
  simp only [authenticated, update, List.getElem?_modify]
  rcases hj : self.connections[j]? with _ | c
  · rfl
  · by_cases hij : i = j
    · subst hij
      simp [hact c hj]
    · simp [hij]

omit [Runtime] [Rsa] [Stringify] in
theorem authenticated_mark {self : GateNode} {i j : ℕ}
    (h : (self.update i ListenState.mark_authenticated).authenticated j = true) :
    j = i ∨ self.authenticated j = true := by
  by_cases hij : i = j
  · exact Or.inl hij.symm
  · refine Or.inr ?_
    simpa [authenticated, update, List.getElem?_modify, hij] using h

/-- `_on_hello` marks the connection that the table finds, if the HELLO passes. -/
theorem on_hello_cases {self self' : GateNode} {peer_id : Str} {now : ℚ} {payload : Dict}
    (h : self.on_hello peer_id now payload = .ok self') :
    (∀ j, self'.authenticated j = self.authenticated j) ∨
      ∃ i, self.peers peer_id = some i ∧
        hello_checks self.settings self.chain now payload = .ok true ∧
        self' = self.update i ListenState.mark_authenticated := by
  unfold on_hello at h
  split at h
  · obtain rfl := Except.ok.inj h
    exact Or.inl fun j => rfl
  · rename_i i hi
    obtain ⟨passes, hpasses, h⟩ := bind_eq_ok.mp h
    split at h
    · rename_i htrue
      subst htrue
      exact Or.inr ⟨i, hi, hpasses, (Except.ok.inj h).symm⟩
    · obtain rfl := Except.ok.inj h
      exact Or.inl (authenticated_update fun c _ => rfl)

/-- A frame sets no flag, unless it is a HELLO that passes, and then the flag is
that of its own connection. -/
theorem authenticated_receive {self : GateNode} (h : self.Wf) (i : ℕ) (raw : Str) (allowed : Bool)
    (now : ℚ) :
    (∀ j, (self.receive i raw allowed now).authenticated j = self.authenticated j) ∨
      ∃ payload, self.handled i raw allowed = some (.hello, payload) ∧
        hello_checks self.settings self.chain now payload = .ok true ∧
        ∀ j, (self.receive i raw allowed now).authenticated j = true →
          j = i ∨ self.authenticated j = true := by
  rcases @receive_eq _ _ _ self i raw allowed now with heq | ⟨connection, hi, hlistening, heq⟩
  · rw [heq]
    exact Or.inl fun j => rfl
  rw [heq]
  have hkeeps := connection.read_keeps self.settings.max_decode_errors_before_disconnect raw allowed
  have hread : ∀ j, (self.update i fun _ => (connection.read
      self.settings.max_decode_errors_before_disconnect raw allowed).2).authenticated j
        = self.authenticated j := by
    apply authenticated_update
    intro c hc
    obtain rfl := Option.some.inj (hc.symm.trans hi)
    exact hkeeps.2.2
  dsimp only
  split
  · rename_i payload hreading
    split
    · rename_i self' hok
      rcases on_hello_cases hok with hsame | ⟨k, hk, hchecks, rfl⟩
      · exact Or.inl fun j => (hsame j).trans (hread j)
      · refine Or.inr ⟨payload, ?_, hchecks, ?_⟩
        · simp only [handled, hi, hlistening, if_true, hreading]
        · -- the identifiers are distinct, so the table found the same connection
          have hid : self.ids[k]? = self.ids[i]? := by
            rw [h.table _ k hk, hkeeps.1]
            simp [ids, hi]
          have hlt : i < self.ids.length := by
            have hlt := (List.getElem?_eq_some_iff.mp hi).1
            simpa [ids] using hlt
          obtain rfl : i = k := (List.getElem?_inj hlt h.distinct).mp hid.symm
          intro j hj
          rw [← hread j]
          exact authenticated_mark hj
    · exact Or.inl fun j => (authenticated_update (by intro c _; rfl) j).trans (hread j)
  · exact Or.inl hread

/-- With authentication enabled, a flag is set by a HELLO that passes and arrives
on the connection itself, and by nothing else. -/
theorem authenticated_step {self : GateNode} (h : self.Wf)
    (henabled : self.settings.peer_auth.enabled = true) {event : GateEvent} {i : ℕ}
    (hbefore : ¬ self.authenticated i = true) (hafter : (self.step event).authenticated i = true) :
    ∃ raw allowed now payload, event = .frame i raw allowed now ∧
      self.handled i raw allowed = some (.hello, payload) ∧
      PassesHello self.settings self.chain now payload := by
  cases event with
  | connects peer_id =>
      refine absurd ?_ hbefore
      simp only [step, connect] at hafter
      split at hafter
      · exact hafter
      · -- a new connection is not authenticated
        simp only [authenticated, List.getElem?_append] at hafter
        split at hafter
        · exact hafter
        · rw [List.getElem?_singleton] at hafter
          split at hafter
          · simp [ListenState.create, henabled] at hafter
          · cases hafter
  | registers j =>
      refine absurd ?_ hbefore
      simp only [step, register] at hafter
      split at hafter
      · exact hafter
      · exact hafter
  | unregisters peer_id => exact absurd hafter hbefore
  | frame j raw allowed now =>
      rcases authenticated_receive h j raw allowed now with hsame | ⟨payload, hhandled, hchecks, hset⟩
      · exact absurd ((hsame i).symm.trans hafter) hbefore
      · obtain rfl := (hset i hafter).resolve_right hbefore
        exact ⟨raw, allowed, now, payload, rfl, hhandled, (hello_checks_eq_true henabled).mp hchecks⟩
  | closes j =>
      have hsame : (self.update j ListenState.close).authenticated i = self.authenticated i :=
        authenticated_update (by intro c _; rfl) i
      exact absurd (hsame.symm.trans hafter) hbefore
  | finishes j =>
      have hsame : (self.update j ListenState.finish).authenticated i = self.authenticated i :=
        authenticated_update (by intro c _; rfl) i
      exact absurd (hsame.symm.trans hafter) hbefore
  | changes_chain chain => exact absurd hafter hbefore

/-! ## Runs -/

theorem settings_step (self : GateNode) (event : GateEvent) :
    (self.step event).settings = self.settings := by
  cases event with
  | connects peer_id =>
      simp only [step, connect]
      split
      · rfl
      · rfl
  | registers i =>
      simp only [step, register]
      split
      · rfl
      · rfl
  | frame i raw allowed now =>
      rcases @receive_eq _ _ _ self i raw allowed now with heq | ⟨connection, -, -, heq⟩
      · rw [step, heq]
      · rw [step, heq]
        dsimp only
        split
        · split
          · rename_i hok
            unfold on_hello at hok
            split at hok
            · obtain rfl := Except.ok.inj hok
              rfl
            · obtain ⟨passes, -, hok⟩ := bind_eq_ok.mp hok
              split at hok
              · obtain rfl := Except.ok.inj hok
                rfl
              · obtain rfl := Except.ok.inj hok
                rfl
          · rfl
        · rfl
  | unregisters peer_id => rfl
  | closes i => rfl
  | finishes i => rfl
  | changes_chain chain => rfl

omit [Rsa] [Stringify] in
/-- A message other than HELLO is handled on an authenticated connection only. -/
theorem authenticated_of_handled {self : GateNode} (h : self.Wf)
    (henabled : self.settings.peer_auth.enabled = true) {i : ℕ} {raw : Str} {allowed : Bool}
    {msg_type : MessageType} {payload : Dict}
    (hhandled : self.handled i raw allowed = some (msg_type, payload))
    (hother : msg_type ≠ .hello) : self.authenticated i = true := by
  unfold handled at hhandled
  split at hhandled
  · rename_i connection hi
    split at hhandled
    · split at hhandled
      · rename_i hread
        obtain ⟨rfl, rfl⟩ := Prod.mk.inj (Option.some.inj hhandled)
        have hrequired : connection.require_auth = true := by
          rw [h.gated connection (List.mem_of_getElem? hi), henabled]
        have hflag := (ListenState.handles_of_read hread).2 hrequired hother
        simp [authenticated, hi, hflag]
      · cases hhandled
    · cases hhandled
  · cases hhandled

variable (settings : GateSettings) (chain : List Block) (events : List GateEvent)

/-- The node after `k` events. -/
def after (k : ℕ) : GateNode := run step (start settings chain) (events.take k)

theorem after_invariant (k : ℕ) :
    (after settings chain events k).Wf ∧ (after settings chain events k).settings = settings :=
  run_invariant_take (I := fun node => node.Wf ∧ node.settings = settings) (C := fun _ _ => True)
    (fun node event h _ => ⟨h.1.step event, (settings_step node event).trans h.2⟩)
    ⟨Wf.start settings chain, rfl⟩ (alwaysMeets_true _ _ _) k

theorem after_succ {k : ℕ} {event : GateEvent} (h : events[k]? = some event) :
    after settings chain events (k + 1) = (after settings chain events k).step event := by
  exact run_take_succ step _ h

/-- An authenticated connection received a HELLO that passed. -/
theorem hello_of_authenticated (henabled : settings.peer_auth.enabled = true) {k i : ℕ}
    (h : (after settings chain events k).authenticated i = true) :
    ∃ j < k, ∃ raw allowed now hello, events[j]? = some (.frame i raw allowed now) ∧
      (after settings chain events j).handled i raw allowed = some (.hello, hello) ∧
      PassesHello settings (after settings chain events j).chain now hello := by
  induction k with
  | zero => simp [after, run, start, authenticated] at h
  | succ k ih =>
      by_cases hbefore : (after settings chain events k).authenticated i = true
      · obtain ⟨j, hj, hfound⟩ := ih hbefore
        exact ⟨j, by omega, hfound⟩
      rcases hevent : events[k]? with _ | event
      · -- past the end nothing happens
        refine absurd ?_ hbefore
        rw [after, List.take_add_one, hevent] at h
        simpa [after] using h
      · rw [after_succ settings chain events hevent] at h
        obtain ⟨hwf, hsettings⟩ := after_invariant settings chain events k
        have hstep := authenticated_step hwf (by rw [hsettings]; exact henabled) hbefore h
        rw [hsettings] at hstep
        obtain ⟨raw, allowed, now, hello, rfl, hhandled, hpasses⟩ := hstep
        exact ⟨k, by omega, raw, allowed, now, hello, hevent, hhandled, hpasses⟩

/-- The gate of a node with authentication: on no connection is a message other
than HELLO handled unless a HELLO was handled on the same connection before, and
passed; and a HELLO that does not pass authenticates nobody. -/
theorem nothing_before_hello (henabled : settings.peer_auth.enabled = true) {k i : ℕ} {raw : Str}
    {allowed : Bool} {now : ℚ} (hevent : events[k]? = some (.frame i raw allowed now)) :
    (∀ msg_type payload,
      (after settings chain events k).handled i raw allowed = some (msg_type, payload) →
        msg_type ≠ .hello →
        ∃ j < k, ∃ raw allowed now hello, events[j]? = some (.frame i raw allowed now) ∧
          (after settings chain events j).handled i raw allowed = some (.hello, hello) ∧
          PassesHello settings (after settings chain events j).chain now hello) ∧
      ∀ payload, (after settings chain events k).handled i raw allowed = some (.hello, payload) →
        ¬ PassesHello settings (after settings chain events k).chain now payload →
        ∀ c, (after settings chain events (k + 1)).authenticated c
          = (after settings chain events k).authenticated c := by
  obtain ⟨hwf, hsettings⟩ := after_invariant settings chain events k
  have henabled' : (after settings chain events k).settings.peer_auth.enabled = true := by
    rw [hsettings]
    exact henabled
  constructor
  · intro msg_type payload hhandled hother
    apply hello_of_authenticated settings chain events henabled
    exact authenticated_of_handled hwf henabled' hhandled hother
  · intro payload hhandled hfails c
    rw [after_succ settings chain events hevent, step]
    rcases authenticated_receive hwf i raw allowed now with hsame | ⟨hello, hread, hchecks, -⟩
    · exact hsame c
    · obtain ⟨-, rfl⟩ := Prod.mk.inj (Option.some.inj (hread.symm.trans hhandled))
      rw [hello_checks_eq_true henabled', hsettings] at hchecks
      exact absurd hchecks hfails

end Steps

end GateNode

/-! ## A run: a node reads a HELLO and a PING -/

namespace GateRun

attribute [local instance] cpython letterRsa

local instance : Stringify := ⟨fun _ => []⟩

def settings : GateSettings := ⟨lit "pow", DEFAULT_GENESIS_PREV_HASH, ⟨true, 300⟩, 3⟩

/-- The HELLO of a node with the key `A` and an empty chain. -/
def hello_text : Str :=
  ((build_hello_payload (lit "b") (lit "pow") 0 DEFAULT_GENESIS_PREV_HASH
    ⟨some (0 : Fin 26), some (0 : Fin 26)⟩ none 1000 [] >>= encode_message .hello).toOption).getD []

def ping_text : Str := lit "\x7b\"node_id\": \"b\", \"type\": \"PING\"\x7d"

def events : List GateEvent :=
  [.connects (lit "u"), .connects (lit "v"), .registers 0, .registers 1,
    .frame 1 hello_text true 1002, .frame 0 ping_text true 1003, .frame 1 ping_text true 1004]

/-- The PING is handled where the HELLO passed. -/
theorem ping_after_hello : ∃ j < 6, ∃ raw allowed now hello,
    events[j]? = some (.frame 1 raw allowed now) ∧
      (GateNode.after settings [] events j).handled 1 raw allowed = some (.hello, hello) ∧
      PassesHello settings (GateNode.after settings [] events j).chain now hello := by
  have hhandled : (GateNode.after settings [] events 6).handled 1 ping_text true
      = some (.ping, [(.str (lit "node_id"), .str (lit "b"))]) := by
    decide +kernel
  have h := (GateNode.nothing_before_hello settings [] events rfl (k := 6) rfl).1
  exact h _ _ hhandled (by decide)

end GateRun

end EasyBlockchain
