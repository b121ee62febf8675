/-
`network/node.py`: `_active_urls` against `_url_by_peer` and the table of peers,
in every interleaving of dials, HELLOs, timeouts and disconnects.

Three places put a URL into both, three take it out. They agree as long as no two
peers share a URL: `_active_urls` is a set, so the first of them to leave takes
the URL of the other with it. An accepted peer may advertise any URL, and nothing
compares it with the URLs that are active or being dialed.
-/
import EasyBlockchain.DialChanges
import EasyBlockchain.Py.CPython

set_option autoImplicit false

namespace EasyBlockchain

open Py Lib

namespace DialingNode

/-! ## The property -/

/-- `_active_urls` is the set of the URLs of registered peers. -/
def UrlsMatch (node : DialingNode) : Prop :=
  ∀ url, url ∈ node.active_urls ↔
    ∃ peer_id, node.url_by_peer.find peer_id = some url ∧
      node.server.peers.contains peer_id = true

/-- A registered, open connection that the server dialed. -/
def LiveOutbound (server : P2PServer) (peer_id url : Str) : Prop :=
  server.peer_urls.find peer_id = some url ∧
    ∃ i c, server.peers.find peer_id = some i ∧ server.connections[i]? = some c ∧ c.closed = false

section Bookkeeping

variable [Runtime] [FloatMath]

/-- Every URL of a live connection is active, under one outbound connection, and
a call for it returns at once. -/
structure UrlsKept (node : DialingNode) : Prop where
  urls_match : node.UrlsMatch
  one_outbound : ∀ p q url, LiveOutbound node.server p url → LiveOutbound node.server q url → p = q
  outbound_active : ∀ p url, LiveOutbound node.server p url → url ∈ node.active_urls
  not_dialed : ∀ url now, url ∈ node.active_urls → node.step (.connect_peer url now) = node

/-- The URL that an `_on_hello` enters is neither active nor being dialed, and
where a dial looks at its peer, the time of a retry can be computed. -/
def FreshUrls (node : DialingNode) : DialEvent → Prop
  | .greeted greeting => ∀ entry ∈ node.enters greeting,
      entry.2 ∉ node.active_urls ∧ entry.2 ∉ node.connecting_urls
  | .hello_sent dial now | .polls dial _ now => ∀ d ∈ node.dials[dial]?,
      node.reconnect.settings.enabled = true →
        (ReconnectManager.retry_at node.reconnect.settings
          (node.reconnect.attempts_of d.url + 1) now).isOk = true
  | _ => True

instance (node : DialingNode) (e : DialEvent) : Decidable (FreshUrls node e) :=
  match e with
  | .greeted _ => inferInstanceAs (Decidable (∀ _ ∈ _, _))
  | .hello_sent _ _ => inferInstanceAs (Decidable (∀ _ ∈ _, _))
  | .polls _ _ _ => inferInstanceAs (Decidable (∀ _ ∈ _, _))
  | .connect_peer _ _ | .call _ _ _ | .dial_ends _ | .hello _ _ _ | .accepts _ _ | .listen_ends _
  | .on_closed _ _ | .closes _ | .handshake_done _ | .handshake_timeout _ | .handler_ends _ =>
    .isTrue trivial

/-! ## The invariant -/

omit [Runtime] [FloatMath] in
/-- A set of URLs and the peers they belong to, one to one. -/
structure OneToOne (active : Finset Str) (url_by_peer : StrDict Str) : Prop where
  nonempty : ∀ p url, url_by_peer.find p = some url → url.isEmpty = false
  mem : ∀ url, url ∈ active ↔ ∃ p, url_by_peer.find p = some url
  apart : ∀ p q url, url_by_peer.find p = some url → url_by_peer.find q = some url → p = q

omit [Runtime] [FloatMath] in
/-- What the bookkeeping looks like where no two peers share a URL. A dial that
waits for its peer has the URL under that peer, or the peer is gone. -/
structure UrlInv (node : DialingNode) : Prop where
  listed : ∀ p url, node.url_by_peer.find p = some url → node.server.peers.contains p = true
  matched : OneToOne node.active_urls node.url_by_peer
  calling : ∀ d ∈ node.dials, ∀ call, d.point = .calling call →
    d.url ∉ node.active_urls ∧ d.url.isEmpty = false
  waiting : ∀ d ∈ node.dials, ∀ p, waiting d = some p →
    node.server.knows p = true ∧
      (node.url_by_peer.find p = some d.url ∨
        (node.url_by_peer.find p = none ∧ node.server.peers.contains p = false)) ∧
      ∀ q, node.url_by_peer.find q = some d.url → q = p
  outbound : ∀ p url, LiveOutbound node.server p url → node.url_by_peer.find p = some url
  greeting : ∀ g ∈ node.greetings, g.done = false →
    ∃ c, node.server.connections[g.connection]? = some c ∧ c.listen = .running ∧
      node.server.peers.contains c.peer_id = true

section Small

omit [Runtime] [FloatMath]

variable {node : DialingNode}

section OneToOne

variable {active : Finset Str} {url_by_peer : StrDict Str} (h : OneToOne active url_by_peer)
  {p : Str} {url : Str}
include h

theorem OneToOne.free (hfree : url ∉ active) (q : Str) : url_by_peer.find q ≠ some url :=
  fun hq => hfree ((h.mem url).mpr ⟨q, hq⟩)

/-- A peer that has no URL gets one that no peer has. -/
theorem OneToOne.enter (hnone : url_by_peer.find p = none) (hfree : url ∉ active)
    (hne : url.isEmpty = false) : OneToOne (insert url active) (url_by_peer.set p url) where
  nonempty := by
    intro q u hq
    rw [StrDict.find_set] at hq
    split_ifs at hq
    · rw [← Option.some.inj hq]
      exact hne
    · exact h.nonempty q u hq
  mem := by
    intro u
    rw [Finset.mem_insert, h.mem]
    constructor
    · rintro (rfl | ⟨q, hq⟩)
      · exact ⟨p, by rw [StrDict.find_set, if_pos rfl]⟩
      · refine ⟨q, ?_⟩
        rw [StrDict.find_set, if_neg]
        · exact hq
        · rintro rfl
          rw [hnone] at hq
          cases hq
    · rintro ⟨q, hq⟩
      rw [StrDict.find_set] at hq
      split_ifs at hq
      · exact Or.inl (Option.some.inj hq).symm
      · exact Or.inr ⟨q, hq⟩
  apart := by
    intro q r u hq hr
    rw [StrDict.find_set] at hq hr
    split_ifs at hq hr with hqp hrp hrp
    · rw [hqp, hrp]
    · exact absurd ((Option.some.inj hq) ▸ hr) (h.free hfree r)
    · exact absurd ((Option.some.inj hr) ▸ hq) (h.free hfree q)
    · exact h.apart q r u hq hr

/-- A peer goes with its URL, which no other peer has. -/
theorem OneToOne.leave (hown : ∀ u, url_by_peer.find p = some u → u = url)
    (halone : ∀ q, url_by_peer.find q = some url → q = p) :
    OneToOne (active.erase url) (url_by_peer.pop p) where
  nonempty := by
    intro q u hq
    rw [StrDict.find_pop] at hq
    split_ifs at hq
    exact h.nonempty q u hq
  mem := by
    intro u
    rw [Finset.mem_erase, h.mem]
    constructor
    · rintro ⟨hu, q, hq⟩
      refine ⟨q, ?_⟩
      rw [StrDict.find_pop, if_neg]
      · exact hq
      · rintro rfl
        exact hu (hown u hq)
    · rintro ⟨q, hq⟩
      rw [StrDict.find_pop] at hq
      split_ifs at hq with hqp
      refine ⟨?_, q, hq⟩
      rintro rfl
      exact hqp (halone q hq)
  apart := by
    intro q r u hq hr
    rw [StrDict.find_pop] at hq hr
    split_ifs at hq hr
    exact h.apart q r u hq hr

end OneToOne

theorem UrlInv.start (local_url : Str) (server : ServerSettings) (reconnect : ReconnectSettings) :
    UrlInv (start local_url server reconnect) where
  listed := by simp [DialingNode.start, StrDict.find, StrDict.empty]
  matched := by
    constructor <;> simp [DialingNode.start, StrDict.find, StrDict.empty]
  calling := by simp [DialingNode.start]
  waiting := by simp [DialingNode.start]
  outbound := by simp [DialingNode.start, LiveOutbound, P2PServer.start, StrDict.find, StrDict.empty]
  greeting := by simp [DialingNode.start]

theorem greets_of_mem {g : Greeting} (hg : g ∈ node.greetings) (hdone : g.done = false) :
    node.greets g.connection := by
  simp only [greets, DialingNode.greeting, List.any_eq_true, Bool.and_eq_true,
    decide_eq_true_eq, Bool.not_eq_true']
  exact ⟨g, hg, rfl, hdone⟩

/-- The server changes, and keeps its entries. -/
theorem UrlInv.serve (h : UrlInv node) {server : P2PServer}
    (hkeeps : P2PServer.Keeps node.greets node.server server) :
    UrlInv { node with server := server } where
  listed := by
    intro p url hp
    obtain ⟨i, hi⟩ := Option.isSome_iff_exists.mp (h.listed p url hp)
    exact Option.isSome_of_eq_some (hkeeps.peers p i hi)
  matched := h.matched
  calling := h.calling
  waiting := by
    intro d hd p hp
    obtain ⟨hknows, hurl, hapart⟩ := h.waiting d hd p hp
    refine ⟨hkeeps.knows p hknows, hurl.imp id fun ⟨hnone, habsent⟩ => ?_, hapart⟩
    exact ⟨hnone, hkeeps.gone p hknows habsent⟩
  outbound := by
    rintro p url ⟨hurl, i, c, hi, hc, hopen⟩
    obtain ⟨hurl, hi, c', hc', hopen⟩ := hkeeps.urls p url i c hurl hi hc hopen
    exact h.outbound p url ⟨hurl, i, c', hi, hc', hopen⟩
  greeting := by
    intro g hg hdone
    obtain ⟨c, hc, hlisten, hpeer⟩ := h.greeting g hg hdone
    obtain ⟨c', hc', hid, hlisten'⟩ :=
      hkeeps.held g.connection c (greets_of_mem hg hdone) hc hlisten
    obtain ⟨i, hi⟩ := Option.isSome_iff_exists.mp hpeer
    exact ⟨c', hc', hlisten', hid ▸ Option.isSome_of_eq_some (hkeeps.peers c.peer_id i hi)⟩

/-- The dials change, but none begins to wait for a peer or for its call. -/
theorem UrlInv.of_dials (h : UrlInv node) {after : DialingNode}
    (hactive : after.active_urls = node.active_urls) (hurls : after.url_by_peer = node.url_by_peer)
    (hserver : after.server = node.server) (hgreetings : after.greetings = node.greetings)
    (hdials : ∀ d ∈ after.dials, d ∈ node.dials ∨
      ((∀ call, d.point ≠ .calling call) ∧
        ∀ p, DialingNode.waiting d = some p →
          ∃ d' ∈ node.dials, d'.url = d.url ∧ DialingNode.waiting d' = some p)) :
    UrlInv after where
  listed := by
    rw [hurls, hserver]
    exact h.listed
  matched := by
    rw [hactive, hurls]
    exact h.matched
  calling := by
    intro d hd call hcalling
    rw [hactive]
    rcases hdials d hd with hd | ⟨hno, -⟩
    · exact h.calling d hd call hcalling
    · exact absurd hcalling (hno call)
  waiting := by
    intro d hd p hp
    rw [hurls, hserver]
    rcases hdials d hd with hd | ⟨-, hwaiting⟩
    · exact h.waiting d hd p hp
    · obtain ⟨d', hd', hurl, hp'⟩ := hwaiting p hp
      rw [← hurl]
      exact h.waiting d' hd' p hp'
  outbound := by
    unfold LiveOutbound
    rw [hurls, hserver]
    exact h.outbound
  greeting := by
    rw [hgreetings, hserver]
    exact h.greeting

/-- A dial after one of them came to another point, by membership. -/
theorem mem_modify_point {dials : List Dial} {dial : ℕ} {point : DialPoint} {d d₀ : Dial}
    (hdial : dials[dial]? = some d₀)
    (hd : d ∈ dials.modify dial fun d => { d with point := point }) :
    d ∈ dials ∨ (d.point = point ∧ d.url = d₀.url) := by
  obtain ⟨i, hi⟩ := List.mem_iff_getElem?.mp hd
  rcases modify_point_cases hi with ⟨rfl, hpoint, d', hd', hurl⟩ | ⟨-, hi⟩
  · rw [hdial] at hd'
    obtain rfl := Option.some.inj hd'
    exact Or.inr ⟨hpoint, hurl.symm⟩
  · exact Or.inl (List.mem_of_getElem? hi)

/-- A dial comes to a point at which it waits for nothing. -/
theorem UrlInv.suspend (h : UrlInv node) {after : DialingNode} {dial : ℕ} {d₀ : Dial}
    (hdial : node.dials[dial]? = some d₀) {point : DialPoint}
    (hpoint : point = .returned ∨ point = .closing ∨ point = .sending_peers)
    (hactive : after.active_urls = node.active_urls) (hurls : after.url_by_peer = node.url_by_peer)
    (hserver : after.server = node.server) (hgreetings : after.greetings = node.greetings)
    (hdials : after.dials = node.dials.modify dial fun d => { d with point := point }) :
    UrlInv after := by
  refine h.of_dials hactive hurls hserver hgreetings fun d hd => ?_
  rw [hdials] at hd
  refine (mem_modify_point hdial hd).imp id ?_
  rintro ⟨hp, -⟩
  unfold DialingNode.waiting
  rcases hpoint with rfl | rfl | rfl <;> simp [hp]

/-- One more dial, which waits for its call at most. -/
theorem UrlInv.begin (h : UrlInv node) {after : DialingNode} {new : Dial}
    (hactive : after.active_urls = node.active_urls) (hurls : after.url_by_peer = node.url_by_peer)
    (hserver : after.server = node.server) (hgreetings : after.greetings = node.greetings)
    (hdials : after.dials = node.dials ++ [new]) (hwaits : DialingNode.waiting new = none)
    (hnew : new.url ∉ node.active_urls ∧ new.url.isEmpty = false) : UrlInv after where
  listed := by
    rw [hurls, hserver]
    exact h.listed
  matched := by
    rw [hactive, hurls]
    exact h.matched
  calling := by
    intro d hd call hcalling
    rw [hactive]
    rw [hdials] at hd
    rcases List.mem_append.mp hd with hd | hd
    · exact h.calling d hd call hcalling
    · rw [List.mem_singleton.mp hd]
      exact hnew
  waiting := by
    intro d hd p hp
    rw [hurls, hserver]
    rw [hdials] at hd
    rcases List.mem_append.mp hd with hd | hd
    · exact h.waiting d hd p hp
    · rw [List.mem_singleton.mp hd, hwaits] at hp
      cases hp
  outbound := by
    unfold LiveOutbound
    rw [hurls, hserver]
    exact h.outbound
  greeting := by
    rw [hgreetings, hserver]
    exact h.greeting

/-- The HELLOs that are pending after one of them is done. -/
theorem UrlInv.pending_of_done (h : UrlInv node) {greeting : ℕ} {g : Greeting}
    (hg : g ∈ node.greetings.modify greeting fun g => { g with done := true })
    (hdone : g.done = false) :
    ∃ c, node.server.connections[g.connection]? = some c ∧ c.listen = .running ∧
      node.server.peers.contains c.peer_id = true := by
  obtain ⟨k, hk⟩ := List.mem_iff_getElem?.mp hg
  rw [List.getElem?_modify] at hk
  obtain ⟨g', hg', hk⟩ := Option.map_eq_some_iff.mp hk
  split_ifs at hk
  · rw [← hk] at hdone
    cases hdone
  · obtain rfl : g' = g := hk
    exact h.greeting g' (List.mem_of_getElem? hg') hdone

/-- The connection that handles a HELLO is in the table. -/
theorem UrlInv.greets (h : UrlInv node) {i j : ℕ} {c : Connection} {advertised : PyVal}
    (hc : node.server.connections[i]? = some c) (hlisten : c.listen = .running)
    (hpeer : node.server.peers.find c.peer_id = some j) :
    UrlInv { node with
      server := node.server.update j fun c => { c with authenticated := true }
      greetings := node.greetings ++ [⟨i, advertised, false⟩] } := by
  have hkeeps : P2PServer.Keeps node.greets node.server
      (node.server.update j fun c => { c with authenticated := true }) :=
    .update (fun _ => rfl) (fun _ hc => hc) fun _ _ hc => hc
  have hserve := h.serve hkeeps
  refine ⟨hserve.listed, hserve.matched, hserve.calling, hserve.waiting, hserve.outbound, ?_⟩
  intro g hg hdone
  rcases List.mem_append.mp hg with hg | hg
  · exact hserve.greeting g hg hdone
  · rw [List.mem_singleton.mp hg]
    simp only [P2PServer.update, List.getElem?_modify, hc, Option.map_eq_map, Option.map_some]
    refine ⟨_, rfl, ?_⟩
    split_ifs <;> exact ⟨hlisten, Option.isSome_of_eq_some hpeer⟩

/-- What `enters` says of the HELLO it is about. -/
theorem of_enters {greeting : ℕ} {peer_id url : Str}
    (h : node.enters greeting = some (peer_id, url)) :
    ∃ g ∈ node.greetings, g.done = false ∧ ∃ c, node.server.connections[g.connection]? = some c ∧
      c.peer_id = peer_id ∧ url.isEmpty = false ∧ node.url_by_peer.find peer_id = none := by
  unfold DialingNode.enters at h
  obtain ⟨g, hg, hrest⟩ := Option.bind_eq_some_iff.mp h
  split at hrest
  · simp at hrest
  rename_i hdone
  obtain ⟨c, hc, hrest⟩ := Option.bind_eq_some_iff.mp hrest
  obtain ⟨url', hurl, hpair⟩ := Option.bind_eq_some_iff.mp hrest
  obtain ⟨rfl, rfl⟩ := Prod.mk.inj (Option.some.inj hpair)
  refine ⟨g, List.mem_of_getElem? hg, by simpa using hdone, c, hc, rfl, ?_⟩
  unfold advertises at hurl
  split at hurl
  · split_ifs at hurl with hguard
    obtain rfl := Option.some.inj hurl
    simp only [Bool.and_eq_true, Bool.or_eq_true, Bool.not_eq_true', StrDict.contains,
      Option.isSome_eq_false_iff, Option.isNone_iff_eq_none] at hguard
    obtain ⟨⟨hscheme, -⟩, habsent⟩ := hguard
    refine ⟨?_, habsent⟩
    rw [Bool.eq_false_iff]
    intro hempty
    rw [List.isEmpty_iff.mp hempty] at hscheme
    rcases hscheme with hscheme | hscheme <;> cases hscheme
  · cases hurl

/-- A peer is entered under a URL that no one has. -/
theorem UrlInv.enters {settings : ServerSettings} (hwf : Wf settings node) (h : UrlInv node)
    {greeting : ℕ} {peer_id url : Str} (henters : node.enters greeting = some (peer_id, url))
    (hactive : url ∉ node.active_urls) (hidle : url ∉ node.connecting_urls) :
    UrlInv { node with
      greetings := node.greetings.modify greeting fun g => { g with done := true }
      active_urls := insert url node.active_urls
      url_by_peer := node.url_by_peer.set peer_id url } := by
  obtain ⟨g, hg, hdone, c, hc, hid, hnonempty, habsent⟩ := of_enters henters
  obtain ⟨c', hc', -, hpeer⟩ := h.greeting g hg hdone
  rw [hc] at hc'
  obtain rfl := Option.some.inj hc'
  rw [hid] at hpeer
  -- the URL of a dial under way is in `_connecting_urls`
  have hother : ∀ d ∈ node.dials, d.point ≠ .returned → d.url ≠ url := by
    intro d hd hunder hurl
    obtain ⟨i, hi⟩ := List.mem_iff_getElem?.mp hd
    exact hidle (hurl ▸ hwf.dialing i d hi hunder)
  constructor
  · intro p u hp
    rw [StrDict.find_set] at hp
    split_ifs at hp with hpp
    · rw [hpp]
      exact hpeer
    · exact h.listed p u hp
  · exact h.matched.enter habsent hactive hnonempty
  · intro d hd call hcalling
    obtain ⟨hinactive, hne⟩ := h.calling d hd call hcalling
    refine ⟨?_, hne⟩
    rw [Finset.mem_insert]
    rintro (hurl | hmem)
    · exact hother d hd (by rw [hcalling]; exact DialPoint.noConfusion) hurl
    · exact hinactive hmem
  · intro d hd p hp
    obtain ⟨hknows, hurl, hapart⟩ := h.waiting d hd p hp
    have hne : d.url ≠ url := hother d hd (ne_returned_of_waiting hp)
    have hpp : p ≠ peer_id := by
      rintro rfl
      rcases hurl with hurl | ⟨-, hgone⟩
      · rw [habsent] at hurl
        cases hurl
      · rw [hpeer] at hgone
        cases hgone
    refine ⟨hknows, ?_, fun q hq => ?_⟩
    · simp only [StrDict.find_set, if_neg hpp]
      exact hurl
    · rw [StrDict.find_set] at hq
      split_ifs at hq with hqq
      · exact absurd (Option.some.inj hq).symm hne
      · exact hapart q hq
  · intro p u hp
    rw [StrDict.find_set]
    have hold := h.outbound p u hp
    split_ifs with hpp
    · rw [hpp, habsent] at hold
      cases hold
    · exact hold
  · exact fun g' hg' hdone' => h.pending_of_done hg' hdone'

/-- A dial comes to its connection, which is entered under its URL. -/
theorem UrlInv.dialed {settings : ServerSettings} (hwf : Wf settings node) (h : UrlInv node)
    {dial call : ℕ} {url peer_id : Str} (hdial : node.dials[dial]? = some ⟨url, .calling call⟩)
    (hknows : node.server.knows peer_id = false) :
    UrlInv ({ node with
      server := node.server.registered call url peer_id }.dialed dial url peer_id) := by
  have hgone := hwf.server.contains_of_knows hknows
  have hnone : node.url_by_peer.find peer_id = none := by
    cases hfind : node.url_by_peer.find peer_id with
    | none => rfl
    | some u =>
        rw [h.listed peer_id u hfind] at hgone
        cases hgone
  obtain ⟨hinactive, hnonempty⟩ :=
    h.calling _ (List.mem_of_getElem? hdial) call rfl
  have hfind : ∀ p, (node.url_by_peer.set peer_id url).find p =
      if p = peer_id then some url else node.url_by_peer.find p := by
    intro p
    rw [StrDict.find_set]
  have hpeers : ∀ p, (node.server.peers.set peer_id node.server.connections.length).contains p
      = true ↔ p = peer_id ∨ node.server.peers.contains p = true := by
    intro p
    simp [StrDict.contains_set]
  -- another dial that is under way has another URL
  have hother : ∀ d ∈ (node.dials.modify dial fun d => { d with point := .sending_hello peer_id }),
      (d.point = .sending_hello peer_id ∧ d.url = url) ∨
        (d ∈ node.dials ∧ (d.point ≠ .returned → d.url ≠ url)) := by
    intro d hd
    obtain ⟨i, hi⟩ := List.mem_iff_getElem?.mp hd
    rcases modify_point_cases hi with ⟨rfl, hpoint, d', hd', hurl⟩ | ⟨hne, hi⟩
    · rw [hdial] at hd'
      obtain rfl := Option.some.inj hd'
      exact Or.inl ⟨hpoint, hurl.symm⟩
    · refine Or.inr ⟨List.mem_of_getElem? hi, fun hunder hurl => hne ?_⟩
      exact hwf.distinct i dial d _ hi hdial hunder (by simp) hurl
  constructor
  · intro p u hp
    refine (hpeers p).mpr ?_
    simp only [DialingNode.dialed, DialingNode.suspend, hfind] at hp
    split_ifs at hp with hpp
    · exact Or.inl hpp
    · exact Or.inr (h.listed p u hp)
  · exact h.matched.enter hnone hinactive hnonempty
  · intro d hd call' hcalling
    rcases hother d hd with ⟨hpoint, -⟩ | ⟨hd, hurl⟩
    · rw [hpoint] at hcalling
      cases hcalling
    · obtain ⟨hold, hne⟩ := h.calling d hd call' hcalling
      refine ⟨?_, hne⟩
      simp only [DialingNode.dialed, DialingNode.suspend, Finset.mem_insert, not_or]
      exact ⟨hurl (by rw [hcalling]; exact DialPoint.noConfusion), hold⟩
  · intro d hd p hp
    simp only [DialingNode.dialed, DialingNode.suspend, hfind]
    have hknows' : ∀ k, (node.server.registered call url peer_id).knows k = true ↔
        node.server.knows k = true ∨ peer_id = k := by
      intro k
      simp [P2PServer.knows, P2PServer.registered, P2PServer.suspend_call,
        P2PServer.new_connection]
    rcases hother d hd with ⟨hpoint, hurl⟩ | ⟨hd, hurl⟩
    · simp only [DialingNode.waiting, hpoint, Option.some.injEq] at hp
      subst hp
      rw [hurl, if_pos rfl]
      refine ⟨(hknows' _).mpr (Or.inr rfl), Or.inl rfl, fun q hq => ?_⟩
      split_ifs at hq with hqq
      · exact hqq
      · exact absurd hq (h.matched.free hinactive q)
    · have hne := hurl (ne_returned_of_waiting hp)
      obtain ⟨hold, hentry, hapart⟩ := h.waiting d hd p hp
      have hpp : p ≠ peer_id := by
        rintro rfl
        rw [hold] at hknows
        cases hknows
      rw [if_neg hpp]
      have hgone' : node.server.peers.contains p = false →
          (node.server.peers.set peer_id node.server.connections.length).contains p = false := by
        intro habsent
        rw [StrDict.contains_set, habsent, Bool.or_false, decide_eq_false hpp]
      refine ⟨(hknows' p).mpr (Or.inl hold), hentry.imp id (And.imp_right hgone'), fun q hq => ?_⟩
      split_ifs at hq with hqq
      · exact absurd (Option.some.inj hq).symm hne
      · exact hapart q hq
  · rintro p u ⟨hurl, i, c, hi, hc, hopen⟩
    simp only [DialingNode.dialed, DialingNode.suspend, P2PServer.registered,
      P2PServer.suspend_call, StrDict.find_set] at hurl hi hc ⊢
    split_ifs at hurl hi ⊢ with hpp
    · exact hurl
    · -- an older connection
      obtain ⟨c', hc', -⟩ := hwf.server.table p i hi
      rw [List.getElem?_append_left (List.getElem?_eq_some_iff.mp hc').1] at hc
      exact h.outbound p u ⟨hurl, i, c, hi, hc, hopen⟩
  · intro g hg hdone
    obtain ⟨c, hc, hlisten, hpeer⟩ := h.greeting g hg hdone
    refine ⟨c, ?_, hlisten, (hpeers c.peer_id).mpr (Or.inr hpeer)⟩
    simp only [DialingNode.dialed, DialingNode.suspend, P2PServer.registered,
      P2PServer.suspend_call]
    rw [List.getElem?_append_left (List.getElem?_eq_some_iff.mp hc).1]
    exact hc

end Small

section Leaving

omit [Runtime] [FloatMath]

variable {settings : ServerSettings} {node : DialingNode}

/-- A change of the server in which the connection of one peer is closed or taken
out of the table. -/
structure Departs (held : ℕ → Prop) (p : Str) (before after : P2PServer) : Prop where
  peers : ∀ k, k ≠ p → after.peers.find k = before.peers.find k
  gone : before.peers.contains p = false → after.peers.contains p = false
  live : ∀ k url, LiveOutbound after k url → k ≠ p ∧ LiveOutbound before k url
  knows : ∀ k, before.knows k = true → after.knows k = true
  held : ∀ i c, held i → before.connections[i]? = some c → c.listen = .running →
    before.peers.contains c.peer_id = true →
      ∃ c', after.connections[i]? = some c' ∧ c'.listen = .running ∧
        after.peers.contains c'.peer_id = true

/-- The end of a connection takes its entry out of both tables. -/
theorem Departs.of_closed {held : ℕ → Prop} {server : P2PServer}
    (h : P2PServer.Inv settings server) {i : ℕ} {c : Connection}
    (hc : server.connections[i]? = some c) (hlisten : c.listen = .closing) :
    Departs held c.peer_id server
      ((server.unregister c.peer_id).update i fun c => { c with listen := .finished }) := by
  have hpeers : ∀ k, k ≠ c.peer_id →
      (server.peers.pop c.peer_id).find k = server.peers.find k := by
    intro k hk
    rw [StrDict.find_pop, if_neg hk]
  have hends : P2PServer.Keeps (fun j => i ≠ j) server
      (server.update i fun c => { c with listen := .finished }) :=
    .update (fun _ => rfl) (fun _ hc => hc) fun hne => absurd rfl hne
  constructor
  · exact hpeers
  · intro habsent
    rw [P2PServer.update, P2PServer.unregister, StrDict.contains_pop, habsent, Bool.and_false]
  · rintro k url ⟨hurl, j, c', hj, hc', hopen⟩
    simp only [P2PServer.update, P2PServer.unregister, StrDict.find_pop] at hurl hj
    split_ifs at hurl hj with hk
    obtain ⟨hurl, hj, c'', hc'', hopen⟩ := hends.urls k url j c' hurl hj hc' hopen
    exact ⟨hk, hurl, j, c'', hj, hc'', hopen⟩
  · exact hends.knows
  · intro j c' _ hc' hrunning hcontains
    have hij : i ≠ j := by
      rintro rfl
      rw [hc] at hc'
      obtain rfl := Option.some.inj hc'
      rw [hlisten] at hrunning
      cases hrunning
    obtain ⟨c'', hc'', hid, hrunning⟩ := hends.held j c' hij hc' hrunning
    have hne : c'.peer_id ≠ c.peer_id := by
      intro hsame
      obtain ⟨k, hk⟩ := Option.isSome_iff_exists.mp hcontains
      exact hij ((h.position (hsame ▸ hk) hc rfl).symm.trans (h.position hk hc' rfl))
    refine ⟨c'', hc'', hrunning, ?_⟩
    rw [hid]
    simp only [P2PServer.update, P2PServer.unregister, StrDict.contains, hpeers _ hne]
    exact hcontains

/-- `_close_peer` leaves the tables as they are. -/
theorem Departs.of_close_peer {held : ℕ → Prop} (node : DialingNode) (p : Str) :
    Departs held p node.server (node.close_peer p).server := by
  unfold close_peer
  split
  · rename_i i hi
    have hcloses : P2PServer.Keeps held node.server
        (node.server.update i fun c => { c with closed := true }) :=
      .update (fun _ => rfl) (fun _ hc => by cases hc) fun _ _ hc => hc
    refine ⟨fun _ _ => rfl, fun habsent => habsent, ?_, hcloses.knows, ?_⟩
    · rintro k url ⟨hurl, j, c, hj, hc, hopen⟩
      refine ⟨?_, ?_⟩
      · -- the connection that is closed is not open
        rintro rfl
        obtain rfl : i = j := Option.some.inj (hi.symm.trans hj)
        simp only [P2PServer.update, List.getElem?_modify] at hc
        obtain ⟨c', -, hact⟩ := Option.map_eq_some_iff.mp hc
        rw [if_pos trivial] at hact
        rw [← hact] at hopen
        cases hopen
      · obtain ⟨hurl, hj, c', hc', hopen⟩ := hcloses.urls k url j c hurl hj hc hopen
        exact ⟨hurl, j, c', hj, hc', hopen⟩
    · intro j c hheld hc hrunning hcontains
      obtain ⟨c', hc', hid, hrunning⟩ := hcloses.held j c hheld hc hrunning
      exact ⟨c', hc', hrunning, hid ▸ hcontains⟩
  · rename_i hnone
    refine ⟨fun _ _ => rfl, fun habsent => habsent, ?_, fun _ hk => hk, ?_⟩
    · rintro k url ⟨hurl, j, c, hj, hc, hopen⟩
      refine ⟨?_, hurl, j, c, hj, hc, hopen⟩
      rintro rfl
      rw [hnone] at hj
      cases hj
    · exact fun _ c _ hc hrunning hcontains => ⟨c, hc, hrunning, hcontains⟩

/-- A peer goes with its URL, which no other peer has. -/
theorem UrlInv.leave (h : UrlInv node) (p url : Str)
    (hown : ∀ u, node.url_by_peer.find p = some u → u = url)
    (halone : ∀ q, node.url_by_peer.find q = some url → q = p) {after : DialingNode}
    (hactive : after.active_urls = node.active_urls.erase url)
    (hurls : after.url_by_peer = node.url_by_peer.pop p)
    (hgreetings : after.greetings = node.greetings)
    (hserver : Departs node.greets p node.server after.server)
    (hdials : ∀ d ∈ after.dials,
      ((∀ call, d.point ≠ .calling call) ∧ DialingNode.waiting d = none) ∨
        (d ∈ node.dials ∧
          (DialingNode.waiting d = some p → after.server.peers.contains p = false))) :
    UrlInv after where
  listed := by
    intro q u hq
    rw [hurls, StrDict.find_pop] at hq
    split_ifs at hq with hqp
    rw [StrDict.contains, hserver.peers q hqp]
    exact h.listed q u hq
  matched := by
    rw [hactive, hurls]
    exact h.matched.leave hown halone
  calling := by
    intro d hd call hcalling
    rw [hactive]
    rcases hdials d hd with ⟨hno, -⟩ | ⟨hd, -⟩
    · exact absurd hcalling (hno call)
    · obtain ⟨hinactive, hne⟩ := h.calling d hd call hcalling
      exact ⟨fun hmem => hinactive (Finset.mem_of_mem_erase hmem), hne⟩
  waiting := by
    intro d hd q hq
    rcases hdials d hd with ⟨-, hno⟩ | ⟨hd, hgone⟩
    · rw [hno] at hq
      cases hq
    obtain ⟨hknows, hentry, hapart⟩ := h.waiting d hd q hq
    refine ⟨hserver.knows q hknows, ?_, fun r hr => ?_⟩
    · rw [hurls, StrDict.find_pop]
      by_cases hqp : q = p
      · rw [hqp] at hq ⊢
        exact Or.inr ⟨if_pos rfl, hgone hq⟩
      · rw [if_neg hqp, StrDict.contains, hserver.peers q hqp]
        exact hentry
    · rw [hurls, StrDict.find_pop] at hr
      split_ifs at hr
      exact hapart r hr
  outbound := by
    intro q u hq
    obtain ⟨hqp, hlive⟩ := hserver.live q u hq
    rw [hurls, StrDict.find_pop, if_neg hqp]
    exact h.outbound q u hlive
  greeting := by
    intro g hg hdone
    rw [hgreetings] at hg
    obtain ⟨c, hc, hrunning, hcontains⟩ := h.greeting g hg hdone
    exact hserver.held g.connection c (greets_of_mem hg hdone) hc hrunning hcontains

end Leaving

/-! ## Every step -/

section Steps

variable {settings : ServerSettings} {node after : DialingNode}

/-- A dial that found its peer unauthenticated, and closes it. -/
theorem UrlInv.unauthenticated (hwf : Wf settings node) (h : UrlInv node) {dial : ℕ} {d : Dial}
    {p : Str} {now : PyFloat} (hdial : node.dials[dial]? = some d)
    (hwaiting : DialingNode.waiting d = some p)
    (htime : (node.reconnect.record_failure d.url now).2 = false) :
    UrlInv (node.auth_result dial d.url p false now) := by
  obtain ⟨-, hentry, halone⟩ := h.waiting d (List.mem_of_getElem? hdial) p hwaiting
  have hown : ∀ u, node.url_by_peer.find p = some u → u = d.url := by
    intro u hu
    rcases hentry with hentry | ⟨hnone, -⟩
    · rw [hentry] at hu
      exact (Option.some.inj hu).symm
    · rw [hnone] at hu
      cases hu
  -- no other dial waits for the same peer
  have hothers : ∀ d' ∈ (node.dials.modify dial fun d => { d with point := .closing }),
      ((∀ call, d'.point ≠ .calling call) ∧ DialingNode.waiting d' = none) ∨
        (d' ∈ node.dials ∧
          (DialingNode.waiting d' = some p → node.server.peers.contains p = false)) := by
    intro d' hd'
    obtain ⟨i, hi⟩ := List.mem_iff_getElem?.mp hd'
    rcases modify_point_cases hi with ⟨-, hpoint, -⟩ | ⟨hne, hi⟩
    · exact Or.inl (by simp [DialingNode.waiting, hpoint])
    · have hd' := List.mem_of_getElem? hi
      refine Or.inr ⟨hd', fun hp => ?_⟩
      obtain ⟨-, hentry', -⟩ := h.waiting d' hd' p hp
      rcases hentry' with hentry' | ⟨-, hgone⟩
      · exact absurd (hwf.distinct i dial d' d hi hdial (ne_returned_of_waiting hp)
          (ne_returned_of_waiting hwaiting) (hown _ hentry')) hne
      · exact hgone
  unfold auth_result
  simp only [Bool.false_eq_true, if_false, DialingNode.decided, htime]
  rw [close_peer_eq]
  generalize hclosing : DialingNode.record_failure _ d.url now = closing
  have hserver : Departs node.greets p node.server (closing.close_peer p).server := by
    have hsame : closing.server = node.server := by rw [← hclosing, DialingNode.record_failure]
    rw [← hsame]
    exact Departs.of_close_peer closing p
  refine h.leave _ _ hown halone ?_ ?_ ?_ hserver fun d' hd' => ?_
  · rw [← hclosing]
    rfl
  · rw [← hclosing]
    rfl
  · rw [← hclosing]
    rfl
  · rw [← hclosing] at hd'
    exact (hothers d' hd').imp id (And.imp_right fun hgone hp => hserver.gone (hgone hp))

/-- The end of a connection. -/
theorem UrlInv.disconnected (hwf : Wf settings node) (h : UrlInv node) {i : ℕ} {c : Connection}
    {now : PyFloat} (hc : node.server.connections[i]? = some c) (hlisten : c.listen = .closing) :
    UrlInv (({ node with
      server := (node.server.unregister c.peer_id).update i fun c =>
        { c with listen := .finished } } : DialingNode).on_peer_disconnected c.peer_id now) := by
  have hserver : Departs node.greets c.peer_id node.server _ := .of_closed hwf.server hc hlisten
  have hgone : ((node.server.unregister c.peer_id).update i fun c =>
      { c with listen := .finished }).peers.contains c.peer_id = false := by
    simp [P2PServer.update, P2PServer.unregister, StrDict.contains_pop]
  unfold on_peer_disconnected
  dsimp only
  cases hfind : node.url_by_peer.find c.peer_id with
  | none =>
      -- no URL is lost; the empty one is nobody's
      have hempty : ∀ q, node.url_by_peer.find q ≠ some [] := by
        intro q hq
        have hne := h.matched.nonempty q [] hq
        cases hne
      refine h.leave c.peer_id [] ?_ (fun q hq => absurd hq (hempty q)) ?_ rfl rfl
        hserver fun d hd => Or.inr ⟨hd, fun _ => hgone⟩
      · intro u hu
        rw [hfind] at hu
        cases hu
      · refine (Finset.erase_eq_of_notMem fun hmem => ?_).symm
        obtain ⟨q, hq⟩ := (h.matched.mem []).mp hmem
        exact hempty q hq
  | some url =>
      simp only [h.matched.nonempty c.peer_id url hfind, Bool.false_eq_true, if_false]
      refine h.leave c.peer_id url ?_ ?_ rfl rfl rfl hserver fun d hd =>
        Or.inr ⟨hd, fun _ => hgone⟩
      · intro u hu
        rw [hfind] at hu
        exact (Option.some.inj hu).symm
      · exact fun q hq => h.matched.apart q c.peer_id url hq hfind

theorem UrlInv.change (hwf : Wf settings node) (h : UrlInv node) {e : DialEvent}
    (hfresh : FreshUrls node e) (hchange : Change node e after) : UrlInv after := by
  cases hchange with
  | stays => exact h
  | @starts url _ hdials =>
      have hserve : UrlInv { node with server := { node.server with
          calls := node.server.calls ++ [⟨url, .resolving⟩] } } := h.serve (.of_eq rfl rfl rfl)
      exact hserve.begin rfl rfl rfl rfl rfl rfl ⟨hdials.inactive, hdials.nonempty⟩
  | @refused url _ hdials =>
      have hserve : UrlInv { node with server := { node.server with
          calls := node.server.calls ++ [⟨url, .returned none⟩] } } := h.serve (.of_eq rfl rfl rfl)
      exact hserve.begin rfl rfl rfl rfl rfl rfl ⟨hdials.inactive, hdials.nonempty⟩
  | goes_on _ _ hgoes => exact h.serve hgoes.keeps
  | fails hdial hgoes =>
      exact (h.serve hgoes.keeps).suspend hdial (Or.inl rfl) rfl rfl rfl rfl rfl
  | raises hdial _ _ hgoes =>
      exact (h.serve hgoes.keeps).suspend hdial (Or.inl rfl) rfl rfl rfl rfl rfl
  | dialed hdial hknows => exact h.dialed hwf hdial hknows
  | @sleeps _ dial d p hdial hwaiting =>
      refine h.of_dials rfl rfl rfl rfl fun d' hd' => ?_
      refine (mem_modify_point hdial hd').imp id fun hd' => ?_
      refine ⟨fun call => by rw [hd'.1]; exact DialPoint.noConfusion, fun q hq => ?_⟩
      refine ⟨d, List.mem_of_getElem? hdial, hd'.2.symm, ?_⟩
      simp only [DialingNode.waiting, hd'.1] at hq
      rw [← hq, hwaiting]
  | authenticated hdial =>
      exact h.suspend hdial (Or.inr (Or.inr rfl)) rfl rfl rfl rfl rfl
  | @unauthenticated _ dial d p expired now he hdial hwaiting _ =>
      refine h.unauthenticated hwf hdial hwaiting ?_
      unfold ReconnectManager.record_failure
      split_ifs with henabled
      · rfl
      · simp only [Bool.not_eq_true', Bool.not_eq_false] at henabled
        have htime : (ReconnectManager.retry_at node.reconnect.settings
            (node.reconnect.attempts_of d.url + 1) now).isOk = true := by
          rcases he with ⟨rfl, -⟩ | rfl
          · exact hfresh d hdial henabled
          · exact hfresh d hdial henabled
        cases ht : ReconnectManager.retry_at node.reconnect.settings
            (node.reconnect.attempts_of d.url + 1) now with
        | error err =>
            rw [ht] at htime
            cases htime
        | ok t => simp only [ht]
  | ends hdial => exact h.suspend hdial (Or.inl rfl) rfl rfl rfl rfl rfl
  | greets hc hlisten hpeer => exact h.greets hc hlisten hpeer
  | @greeted greeting =>
      refine ⟨h.listed, h.matched, h.calling, h.waiting, h.outbound, fun g hg hdone => ?_⟩
      exact h.pending_of_done hg hdone
  | enters henters =>
      obtain ⟨hactive, hidle⟩ := hfresh _ henters
      exact h.enters hwf henters hactive hidle
  | serves _ hkeeps => exact h.serve hkeeps
  | disconnected hc hlisten => exact h.disconnected hwf hc hlisten

theorem UrlInv.step (hwf : Wf settings node) (h : UrlInv node) {e : DialEvent}
    (hfresh : FreshUrls node e) : UrlInv (node.step e) :=
  h.change hwf hfresh (step_change hwf e)

/-- What the invariant says of the claims of the tables. -/
theorem UrlInv.urls_kept (h : UrlInv node) : UrlsKept node where
  urls_match := by
    intro url
    rw [h.matched.mem]
    exact ⟨fun ⟨p, hp⟩ => ⟨p, hp, h.listed p url hp⟩, fun ⟨p, hp, _⟩ => ⟨p, hp⟩⟩
  one_outbound := fun p q url hp hq =>
    h.matched.apart p q url (h.outbound p url hp) (h.outbound q url hq)
  outbound_active := fun p url hp => (h.matched.mem url).mpr ⟨p, h.outbound p url hp⟩
  not_dialed := by
    intro url now hactive
    simp only [DialingNode.step, DialingNode.connect_peer, hactive, true_or, or_true, if_true]

end Steps

/-- In a run in which every HELLO enters a fresh URL, `_active_urls` is at all times
the set of the URLs of registered peers; there is one outbound connection for a
URL at most, and no URL of a live connection is dialed. -/
theorem urls_kept_of_fresh (local_url : Str) (server : ServerSettings)
    (reconnect : ReconnectSettings) (events : List DialEvent)
    (hfresh : AlwaysMeets FreshUrls step (start local_url server reconnect) events) (k : ℕ) :
    UrlsKept (run step (start local_url server reconnect) (events.take k)) := by
  have hstep : ∀ (node : DialingNode) e, Wf server node ∧ UrlInv node → FreshUrls node e →
      Wf server (node.step e) ∧ UrlInv (node.step e) :=
    fun node e h hfresh => ⟨h.1.step e, h.2.step h.1 hfresh⟩
  have hinv := run_invariant_take hstep
    ⟨Wf.start server local_url reconnect, UrlInv.start local_url server reconnect⟩ hfresh k
  exact hinv.2.urls_kept

end Bookkeeping

end DialingNode

/-! A node that dials a URL, and an accepted peer that advertises it too. -/

namespace SharedUrl

attribute [local instance] cpython FloatMath.rounded

def settings : ServerSettings := ⟨25, true, false⟩

def reconnect : ReconnectSettings := ⟨true, .fin 1, .fin 60, 0, .fin 1⟩

def url : Str := lit "ws://u"

/-- The dial, its authentication by a HELLO, and a second connection, which
advertises a URL. -/
def dialed_and_accepted (advertised : Str) : List DialEvent :=
  [.connect_peer url (.fin 0), .call 0 (.resolved true) (.fin 0), .call 0 (.connected (lit "a")) (.fin 0),
    .hello_sent 0 (.fin 0), .hello 0 true (.str url), .polls 0 false (.fin 1), .dial_ends 0,
    .accepts (lit "b") true, .hello 1 true (.str advertised), .greeted 0]

/-- The second connection ends. -/
def second_leaves : List DialEvent := [.listen_ends 1, .on_closed 1 (.fin 2)]

/-- The URL is dialed again, after the delay that the lost connection has set. -/
def dialed_again : List DialEvent :=
  [.connect_peer url (.fin 3), .call 1 (.resolved true) (.fin 3), .call 1 (.connected (lit "c")) (.fin 3)]

def start : DialingNode := .start (lit "ws://self") settings reconnect

theorem fresh_urls_kept : DialingNode.UrlsKept
    (run DialingNode.step start ((dialed_and_accepted (lit "ws://v") ++ second_leaves).take 12)) :=
  DialingNode.urls_kept_of_fresh (lit "ws://self") settings reconnect
    (dialed_and_accepted (lit "ws://v") ++ second_leaves) (by decide +kernel) 12

/-- With the same URL the first connection loses its entry when the second one
leaves, and is dialed a second time. -/
theorem shared_url_lost :
    (∃ events, ¬ DialingNode.UrlsMatch (run DialingNode.step start events)) ∧
      ∃ events p q, p ≠ q ∧ DialingNode.LiveOutbound (run DialingNode.step start events).server p url ∧
        DialingNode.LiveOutbound (run DialingNode.step start events).server q url := by
  refine ⟨⟨dialed_and_accepted url ++ second_leaves, fun hmatch => ?_⟩,
    dialed_and_accepted url ++ second_leaves ++ dialed_again, lit "a", lit "c", by decide, ?_, ?_⟩
  · have hactive := (hmatch url).mpr ⟨lit "a", by decide +kernel, by decide +kernel⟩
    exact absurd hactive (by decide +kernel)
  · exact ⟨by decide +kernel, 0, ⟨lit "a", false, true, .running, false⟩, by decide +kernel,
      by decide +kernel, rfl⟩
  · exact ⟨by decide +kernel, 2, ⟨lit "c", false, false, .running, false⟩, by decide +kernel,
      by decide +kernel, rfl⟩

end SharedUrl

end EasyBlockchain
