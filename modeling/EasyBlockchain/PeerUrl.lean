/-
`network/peer_url.py`: which addresses a node may dial.

`urllib.parse.urlparse`, the parsers and the properties of `ipaddress`, and the
answer of the resolver are parameters. An address is its bits with the scope
identifier that an IPv6 address may have, which is what `==` and `in` compare.
-/
import EasyBlockchain.Py.Exceptions
import EasyBlockchain.Py.Str

set_option autoImplicit false

namespace EasyBlockchain

open Py

/-! ## Addresses -/

inductive IpAddress
  | v4 (ip : BitVec 32)
  | v6 (ip : BitVec 128) (scope_id : Option Str)
  deriving DecidableEq

inductive IpNetwork
  | v4 (network_address netmask : BitVec 32)
  | v6 (network_address netmask : BitVec 128)

/-- `ip in network`; the scope identifier does not count. -/
def IpNetwork.contains : IpNetwork → IpAddress → Bool
  | .v4 network_address netmask, .v4 ip => ip &&& netmask = network_address
  | .v6 network_address netmask, .v6 ip _ => ip &&& netmask = network_address
  | _, _ => false

namespace IpAddress

/-- The IPv4 address of an address in `::ffff:0:0/96`. -/
def ipv4_mapped : IpAddress → Option IpAddress
  | .v4 _ => none
  | .v6 ip _ => if ip >>> 32 = 0xFFFF#128 then some (.v4 (ip.truncate 32)) else none

def unscoped : IpAddress → IpAddress
  | .v4 ip => .v4 ip
  | .v6 ip _ => .v6 ip none

end IpAddress

/-- `urllib.parse.ParseResult`; `port` raises on a text that is no port. -/
structure ParseResult where
  scheme : Str
  path : Str
  query : Str
  fragment : Str
  hostname : Option Str
  username : Option Str
  password : Option Str
  port : PyM (Option ℕ)

/-- What `peer_url.py` takes from the standard library; `none` is a `ValueError`. -/
class NetLibrary where
  urlparse : Str → Option ParseResult
  ip_address : Str → Option IpAddress
  /-- with `strict=False` -/
  ip_network : Str → Option IpNetwork
  ip_str : IpAddress → Str
  is_global : IpAddress → Bool
  is_reserved : IpAddress → Bool
  is_multicast : IpAddress → Bool
  is_private : IpAddress → Bool
  is_loopback : IpAddress → Bool
  isdigit : CodePoint → Bool
  /-- the loopback networks are registered as private -/
  private_of_loopback : ∀ ip, is_loopback ip = true → is_private ip = true

inductive AddressFamily
  | inet
  | inet6
  | other
  deriving DecidableEq

/-- `socket.getaddrinfo`: the family and the address text of each entry, or an
error of the resolution. -/
abbrev Resolver : Type := Str → Option (List (AddressFamily × Str))

inductive Environment
  | development
  | production
  deriving DecidableEq

structure PeerConnectSettings where
  allow_private_ips : Bool
  blocked_cidrs : List Str
  allowed_ports : List ℕ

/-- What the checks read of the `NetworkSettings`. -/
structure UrlSettings where
  tls_enabled : Bool
  peer_connect : PeerConnectSettings

structure PeerConnectTarget where
  url : Str
  host : Str
  port : ℕ
  hostname : Str
  deriving DecidableEq

/-! ## The checks -/

/-- `str.lower`, as far as the names of the schemes are concerned. -/
def lower (s : Str) : Str :=
  s.map fun c => if 65 ≤ c.val ∧ c.val ≤ 90 then c + 32 else c

def url_scheme_matches_tls (url : Str) (tls_enabled : Bool) : Bool :=
  if (lit "wss://").isPrefixOf url then true
  else if (lit "ws://").isPrefixOf url then !tls_enabled
  else false

def rejects_plain_websocket (tls_enabled : Bool) (environment : Environment) : Bool :=
  tls_enabled || environment = .production

def _default_port_for_scheme (scheme : Str) : ℕ := if scheme = lit "wss" then 443 else 80

/-- `169.254.169.254` and `fd00:ec2::254`. -/
def _METADATA_IPS : List IpAddress :=
  [.v4 0xA9FEA9FE#32, .v6 0xFD000EC2000000000000000000000254#128 none]

/-- IPv4-mapped addresses as IPv4 addresses. -/
def _normalize_ip (ip : IpAddress) : IpAddress := ip.ipv4_mapped.getD ip

section Checks

variable [NetLibrary]

open NetLibrary

def _parse_blocked_networks (blocked_cidrs : List Str) : List IpNetwork :=
  blocked_cidrs.filterMap ip_network

/-- The loop of `_resolve_host_ips` over the entries. -/
def collect_ips (seen : List Str) : List (AddressFamily × Str) → List IpAddress
  | [] => []
  | (family, host) :: addr_info =>
    if family = .other then collect_ips seen addr_info
    else if host ∈ seen then collect_ips seen addr_info
    else
      match ip_address host with
      | some ip => ip :: collect_ips (host :: seen) addr_info
      | none => collect_ips (host :: seen) addr_info

def _resolve_host_ips (getaddrinfo : Resolver) (hostname : Str) : List IpAddress :=
  match getaddrinfo hostname with
  | none => []
  | some addr_info => collect_ips [] addr_info

def _is_restricted_ip (ip : IpAddress) (allow_private_ips : Bool)
    (blocked_networks : List IpNetwork) : Bool :=
  let ip := _normalize_ip ip
  if ip ∈ _METADATA_IPS then true
  else if blocked_networks.any (·.contains ip) then true
  else if allow_private_ips then false
  else !is_global ip || is_reserved ip || is_multicast ip

def _is_private_peer_target (ips : List IpAddress) : Bool :=
  !ips.isEmpty && ips.all fun ip => is_private ip || is_loopback ip

def _resolve_peer_port (parsed : ParseResult) (allowed_ports : List ℕ) (ips : List IpAddress)
    (allow_private_ips : Bool) : Option ℕ :=
  match parsed.port with
  | .error _ => none
  | .ok explicit_port =>
    let port := explicit_port.getD (_default_port_for_scheme parsed.scheme)
    if port ∈ allowed_ports then some port
    else if allow_private_ips && _is_private_peer_target ips then some port
    else none

def _parse_peer_url (url : Str) (settings : UrlSettings) (environment : Environment) :
    Option ParseResult :=
  if url.isEmpty then none
  else
    match urlparse url with
    | none => none
    | some parsed =>
      let scheme := lower parsed.scheme
      if scheme ≠ lit "ws" ∧ scheme ≠ lit "wss" then none
      else if scheme = lit "ws" ∧ rejects_plain_websocket settings.tls_enabled environment then none
      else if !url_scheme_matches_tls url settings.tls_enabled then none
      else if (parsed.hostname.getD []).isEmpty then none
      else if !(parsed.username.getD []).isEmpty || !(parsed.password.getD []).isEmpty then none
      else if !parsed.fragment.isEmpty then none
      else if !parsed.query.isEmpty then none
      else if parsed.path ≠ [] ∧ parsed.path ≠ lit "/" then none
      else some parsed

/-- A dotted quad with an octet that begins with a zero. -/
def _has_ambiguous_ipv4_notation (hostname : Str) : Bool :=
  let parts := hostname.splitOn (ofChar '.')
  if parts.length ≠ 4 then false
  else if !parts.all fun part => !part.isEmpty && part.all isdigit then false
  else parts.any fun part => 1 < part.length && part.head? = some (ofChar '0')

def _resolve_peer_ips (getaddrinfo : Resolver) (hostname : Str) : List IpAddress :=
  if _has_ambiguous_ipv4_notation hostname then []
  else
    match ip_address hostname with
    | some literal_ip => [literal_ip]
    | none => _resolve_host_ips getaddrinfo hostname

def _peer_ips_allowed (ips : List IpAddress) (settings : UrlSettings) : Bool :=
  if ips.isEmpty then false
  else
    let blocked_networks := _parse_blocked_networks settings.peer_connect.blocked_cidrs
    !ips.any fun ip => _is_restricted_ip ip settings.peer_connect.allow_private_ips blocked_networks

def validate_peer_url (getaddrinfo : Resolver) (url : Str) (settings : UrlSettings)
    (environment : Environment) : Option Str := do
  let parsed ← _parse_peer_url url settings environment
  let hostname ← parsed.hostname
  let ips := _resolve_peer_ips getaddrinfo hostname
  if !_peer_ips_allowed ips settings then none
  let _ ← _resolve_peer_port parsed settings.peer_connect.allowed_ports ips
    settings.peer_connect.allow_private_ips
  return url

def resolve_peer_connect_target (getaddrinfo : Resolver) (url : Str) (settings : UrlSettings)
    (environment : Environment) : Option PeerConnectTarget := do
  let parsed ← _parse_peer_url url settings environment
  let hostname ← parsed.hostname
  let ips := _resolve_peer_ips getaddrinfo hostname
  if !_peer_ips_allowed ips settings then none
  let port ← _resolve_peer_port parsed settings.peer_connect.allowed_ports ips
    settings.peer_connect.allow_private_ips
  -- the list is not empty here
  let host ← ips.head?
  return ⟨url, ip_str host, port, hostname⟩

/-! ## What is accepted -/

/-- The two functions accept a URL for the same reasons. -/
structure UrlPasses (getaddrinfo : Resolver) (url : Str) (settings : UrlSettings)
    (environment : Environment) (parsed : ParseResult) (hostname : Str) (port : ℕ) : Prop where
  parsed_eq : _parse_peer_url url settings environment = some parsed
  hostname_eq : parsed.hostname = some hostname
  allowed : _peer_ips_allowed (_resolve_peer_ips getaddrinfo hostname) settings = true
  port_eq : _resolve_peer_port parsed settings.peer_connect.allowed_ports
    (_resolve_peer_ips getaddrinfo hostname) settings.peer_connect.allow_private_ips = some port

variable {getaddrinfo : Resolver} {url : Str} {settings : UrlSettings} {environment : Environment}

theorem validate_peer_url_eq_some {validated : Str} :
    validate_peer_url getaddrinfo url settings environment = some validated ↔
      validated = url ∧ ∃ parsed hostname port,
        UrlPasses getaddrinfo url settings environment parsed hostname port := by
  unfold validate_peer_url
  constructor
  · intro h
    obtain ⟨parsed, hparsed, h⟩ := Option.bind_eq_some_iff.mp h
    obtain ⟨hostname, hhostname, h⟩ := Option.bind_eq_some_iff.mp h
    dsimp only at h
    split at h
    · cases h
    · rename_i hallowed
      obtain ⟨port, hport, heq⟩ := Option.bind_eq_some_iff.mp h
      exact ⟨(Option.some.inj heq).symm, parsed, hostname, port, hparsed, hhostname,
        by simpa using hallowed, hport⟩
  · rintro ⟨rfl, parsed, hostname, port, h⟩
    refine Option.bind_eq_some_iff.mpr ⟨parsed, h.parsed_eq, ?_⟩
    refine Option.bind_eq_some_iff.mpr ⟨hostname, h.hostname_eq, ?_⟩
    simp only [h.allowed, Bool.not_true, Bool.false_eq_true, if_false]
    exact Option.bind_eq_some_iff.mpr ⟨port, h.port_eq, rfl⟩

theorem ips_nonempty {ips : List IpAddress} (h : _peer_ips_allowed ips settings = true) :
    ∃ ip, ips.head? = some ip ∧ ip ∈ ips := by
  cases ips with
  | nil => cases h
  | cons ip ips => exact ⟨ip, rfl, List.mem_cons_self⟩

theorem resolve_peer_connect_target_eq_some {t : PeerConnectTarget} :
    resolve_peer_connect_target getaddrinfo url settings environment = some t ↔
      ∃ parsed hostname port ip, UrlPasses getaddrinfo url settings environment parsed hostname port ∧
        (_resolve_peer_ips getaddrinfo hostname).head? = some ip ∧
        t = ⟨url, ip_str ip, port, hostname⟩ := by
  unfold resolve_peer_connect_target
  constructor
  · intro h
    obtain ⟨parsed, hparsed, h⟩ := Option.bind_eq_some_iff.mp h
    obtain ⟨hostname, hhostname, h⟩ := Option.bind_eq_some_iff.mp h
    dsimp only at h
    split at h
    · cases h
    · rename_i hallowed
      obtain ⟨port, hport, h⟩ := Option.bind_eq_some_iff.mp h
      obtain ⟨ip, hip, heq⟩ := Option.bind_eq_some_iff.mp h
      exact ⟨parsed, hostname, port, ip, ⟨hparsed, hhostname, by simpa using hallowed, hport⟩, hip,
        (Option.some.inj heq).symm⟩
  · rintro ⟨parsed, hostname, port, ip, h, hip, rfl⟩
    refine Option.bind_eq_some_iff.mpr ⟨parsed, h.parsed_eq, ?_⟩
    refine Option.bind_eq_some_iff.mpr ⟨hostname, h.hostname_eq, ?_⟩
    simp only [h.allowed, Bool.not_true, Bool.false_eq_true, if_false]
    refine Option.bind_eq_some_iff.mpr ⟨port, h.port_eq, ?_⟩
    exact Option.bind_eq_some_iff.mpr ⟨ip, hip, rfl⟩

/-- A parsed URL has the scheme that the settings ask for. -/
theorem scheme_of_parse {parsed : ParseResult}
    (h : _parse_peer_url url settings environment = some parsed) :
    urlparse url = some parsed ∧
      (settings.tls_enabled = true ∨ environment = .production → lower parsed.scheme = lit "wss") := by
  unfold _parse_peer_url at h
  split at h
  · cases h
  split at h
  · cases h
  rename_i parsed' hparse
  dsimp only at h
  split_ifs at h with hscheme hplain
  obtain rfl := Option.some.inj h
  refine ⟨hparse, fun hsecure => ?_⟩
  by_contra hwss
  have hws : lower parsed'.scheme = lit "ws" := by
    by_contra hws
    exact hscheme ⟨hws, hwss⟩
  have hrejects : rejects_plain_websocket settings.tls_enabled environment = true := by
    simpa [rejects_plain_websocket] using hsecure
  exact hplain ⟨hws, hrejects⟩

/-- A port outside the list is for private addresses only. -/
theorem port_of_resolve {parsed : ParseResult} {ports : List ℕ} {ips : List IpAddress}
    {allow_private_ips : Bool} {port : ℕ}
    (h : _resolve_peer_port parsed ports ips allow_private_ips = some port) :
    port ∈ ports ∨ (allow_private_ips = true ∧ ∀ ip ∈ ips, is_private ip = true) := by
  unfold _resolve_peer_port at h
  split at h
  · cases h
  dsimp only at h
  split_ifs at h with hlisted hprivate
  · rw [← Option.some.inj h]
    exact Or.inl hlisted
  · simp only [_is_private_peer_target, Bool.and_eq_true, List.all_eq_true, Bool.or_eq_true]
      at hprivate
    refine Or.inr ⟨hprivate.1, fun ip hip => ?_⟩
    exact (hprivate.2.2 ip hip).elim id (private_of_loopback ip)

/-! ## Forbidden addresses -/

/-- An address that may be dialed, in the form it was given and in its normal form. -/
structure AddressSafe (settings : UrlSettings) (ip : IpAddress) : Prop where
  metadata : ∀ form, form = ip ∨ form = _normalize_ip ip → form.unscoped ∉ _METADATA_IPS
  blocked : ∀ form, form = ip ∨ form = _normalize_ip ip →
    ∀ network ∈ _parse_blocked_networks settings.peer_connect.blocked_cidrs,
      network.contains form = false
  reachable : settings.peer_connect.allow_private_ips = false →
    is_global ip = true ∧ is_reserved ip = false ∧ is_multicast ip = false

/-- An address that the check of the normal form cannot see: the IPv6 metadata
address with a scope identifier, or an IPv4-mapped address that is blocked, or not
reachable, as the IPv6 address it is. -/
def Hidden (settings : UrlSettings) (ip : IpAddress) : Prop :=
  (∃ scope_id, ip = .v6 0xFD000EC2000000000000000000000254#128 (some scope_id)) ∨
    (ip.ipv4_mapped.isSome = true ∧
      ((∃ network ∈ _parse_blocked_networks settings.peer_connect.blocked_cidrs,
          network.contains ip = true) ∨
        (settings.peer_connect.allow_private_ips = false ∧
          ¬ (is_global ip = true ∧ is_reserved ip = false ∧ is_multicast ip = false))))

/-- What `_is_restricted_ip` lets pass. -/
theorem of_not_restricted {ip : IpAddress} {allow_private_ips : Bool} {networks : List IpNetwork}
    (h : _is_restricted_ip ip allow_private_ips networks = false) :
    _normalize_ip ip ∉ _METADATA_IPS ∧
      (∀ network ∈ networks, network.contains (_normalize_ip ip) = false) ∧
      (allow_private_ips = false → is_global (_normalize_ip ip) = true ∧
        is_reserved (_normalize_ip ip) = false ∧ is_multicast (_normalize_ip ip) = false) := by
  unfold _is_restricted_ip at h
  dsimp only at h
  split_ifs at h with hmetadata hblocked hprivate
  · refine ⟨hmetadata, by simpa using hblocked, fun hno => ?_⟩
    rw [hno] at hprivate
    cases hprivate
  · simp only [Bool.or_eq_false_iff, Bool.not_eq_false'] at h
    exact ⟨hmetadata, by simpa using hblocked, fun _ => ⟨h.1.1, h.1.2, h.2⟩⟩

omit [NetLibrary] in
/-- The metadata addresses with and without a scope identifier. -/
theorem unscoped_mem_metadata {ip : IpAddress} : ip.unscoped ∈ _METADATA_IPS ↔
    ip ∈ _METADATA_IPS ∨ ∃ scope_id, ip = .v6 0xFD000EC2000000000000000000000254#128 (some scope_id) := by
  cases ip with
  | v4 bits => simp [IpAddress.unscoped, _METADATA_IPS]
  | v6 bits scope_id =>
      cases scope_id with
      | none => simp [IpAddress.unscoped, _METADATA_IPS]
      | some scope_id => simp [IpAddress.unscoped, _METADATA_IPS]

omit [NetLibrary] in
/-- The normal form of a mapped address is an IPv4 address, and the mapped addresses
are no metadata addresses. -/
theorem mapped_cases {ip mapped : IpAddress} (h : ip.ipv4_mapped = some mapped) :
    (∃ bits, mapped = .v4 bits) ∧ ip.unscoped ∉ _METADATA_IPS := by
  cases ip with
  | v4 bits => cases h
  | v6 bits scope_id =>
      simp only [IpAddress.ipv4_mapped] at h
      split_ifs at h with hprefix
      refine ⟨⟨_, (Option.some.inj h).symm⟩, fun hmem => ?_⟩
      simp only [IpAddress.unscoped, _METADATA_IPS, List.mem_cons, reduceCtorEq, List.not_mem_nil,
        or_false, false_or, IpAddress.v6.injEq, and_true] at hmem
      rw [hmem] at hprefix
      exact absurd hprefix (by decide)

/-- Of the addresses that pass the check, the safe ones are those that are not
hidden. -/
theorem address_safe_iff {ip : IpAddress}
    (h : _is_restricted_ip ip settings.peer_connect.allow_private_ips
      (_parse_blocked_networks settings.peer_connect.blocked_cidrs) = false) :
    AddressSafe settings ip ↔ ¬ Hidden settings ip := by
  obtain ⟨hmetadata, hblocked, hreachable⟩ := of_not_restricted h
  cases hmapped : ip.ipv4_mapped with
  | none =>
      have hnormal : _normalize_ip ip = ip := by rw [_normalize_ip, hmapped, Option.getD_none]
      rw [hnormal] at hmetadata hblocked hreachable
      constructor
      · rintro hsafe (hscoped | ⟨hsome, -⟩)
        · exact hsafe.metadata ip (Or.inl rfl) (unscoped_mem_metadata.mpr (Or.inr hscoped))
        · rw [hmapped] at hsome
          cases hsome
      · intro hhidden
        have hform : ∀ form, form = ip ∨ form = _normalize_ip ip → form = ip := by
          rintro form (rfl | rfl)
          · rfl
          · exact hnormal
        refine ⟨fun form hf => ?_, fun form hf => ?_, hreachable⟩
        · rw [hform form hf]
          exact fun hmem => (unscoped_mem_metadata.mp hmem).elim hmetadata fun hscoped =>
            hhidden (Or.inl hscoped)
        · rw [hform form hf]
          exact hblocked
  | some mapped =>
      have hnormal : _normalize_ip ip = mapped := by rw [_normalize_ip, hmapped, Option.getD_some]
      obtain ⟨⟨bits, rfl⟩, hno⟩ := mapped_cases hmapped
      rw [hnormal] at hmetadata hblocked
      constructor
      · rintro hsafe (hscoped | ⟨-, hgiven⟩)
        · exact hno (unscoped_mem_metadata.mpr (Or.inr hscoped))
        · rcases hgiven with ⟨network, hnetwork, hcontains⟩ | ⟨hprivate, hnot⟩
          · rw [hsafe.blocked ip (Or.inl rfl) network hnetwork] at hcontains
            cases hcontains
          · exact hnot (hsafe.reachable hprivate)
      · intro hhidden
        have hgiven := fun hgiven => hhidden (Or.inr ⟨by rw [hmapped]; rfl, hgiven⟩)
        refine ⟨?_, ?_, fun hprivate => ?_⟩
        · rintro form (rfl | rfl)
          · exact hno
          · rw [hnormal]
            exact hmetadata
        · rintro form (rfl | rfl) network hnetwork
          · rw [Bool.eq_false_iff]
            exact fun hcontains => hgiven (Or.inl ⟨network, hnetwork, hcontains⟩)
          · rw [hnormal]
            exact hblocked network hnetwork
        · by_contra hnot
          exact hgiven (Or.inr ⟨hprivate, hnot⟩)

/-! ## The verdict -/

/-- What holds of a target and of the addresses it was chosen from. -/
structure TargetSafe (settings : UrlSettings) (environment : Environment) (parsed : ParseResult)
    (ips : List IpAddress) (t : PeerConnectTarget) : Prop where
  host : ∃ ip ∈ ips, t.host = ip_str ip
  addresses : ∀ ip ∈ ips, AddressSafe settings ip
  port : t.port ∈ settings.peer_connect.allowed_ports ∨
    (settings.peer_connect.allow_private_ips = true ∧ ∀ ip ∈ ips, is_private ip = true)
  scheme : settings.tls_enabled = true ∨ environment = .production → lower parsed.scheme = lit "wss"

/-- No forbidden address is dialed, and the two functions agree. -/
structure NeverForbidden (getaddrinfo : Resolver) (url : Str) (settings : UrlSettings)
    (environment : Environment) : Prop where
  target : ∀ t, resolve_peer_connect_target getaddrinfo url settings environment = some t →
    ∃ parsed hostname, urlparse url = some parsed ∧ parsed.hostname = some hostname ∧
      TargetSafe settings environment parsed (_resolve_peer_ips getaddrinfo hostname) t
  agree : validate_peer_url getaddrinfo url settings environment = some url ↔
    (resolve_peer_connect_target getaddrinfo url settings environment).isSome = true

/-- Where everything else about the URL is in order, none of its addresses is hidden. -/
def Unhidden (getaddrinfo : Resolver) (url : Str) (settings : UrlSettings)
    (environment : Environment) : Prop :=
  ∀ parsed hostname port, UrlPasses getaddrinfo url settings environment parsed hostname port →
    ∀ ip ∈ _resolve_peer_ips getaddrinfo hostname, ¬ Hidden settings ip

theorem not_restricted_of_allowed {ips : List IpAddress} (h : _peer_ips_allowed ips settings = true)
    {ip : IpAddress} (hip : ip ∈ ips) :
    _is_restricted_ip ip settings.peer_connect.allow_private_ips
      (_parse_blocked_networks settings.peer_connect.blocked_cidrs) = false := by
  unfold _peer_ips_allowed at h
  split_ifs at h
  simp only [Bool.not_eq_true', List.any_eq_false, Bool.not_eq_true] at h
  exact h ip hip

/-- A URL leads to no forbidden address if and only if its addresses are not hidden
from the check. -/
theorem never_forbidden_iff (getaddrinfo : Resolver) (url : Str) (settings : UrlSettings)
    (environment : Environment) :
    NeverForbidden getaddrinfo url settings environment ↔
      Unhidden getaddrinfo url settings environment := by
  constructor
  · intro h parsed hostname port haccepts ip hip
    obtain ⟨first, hfirst, -⟩ := ips_nonempty haccepts.allowed
    obtain ⟨parsed', hostname', hparse', hhostname', hsafe⟩ := h.target _
      (resolve_peer_connect_target_eq_some.mpr ⟨parsed, hostname, port, first, haccepts, hfirst, rfl⟩)
    rw [(scheme_of_parse haccepts.parsed_eq).1] at hparse'
    obtain rfl := Option.some.inj hparse'
    rw [haccepts.hostname_eq] at hhostname'
    obtain rfl := Option.some.inj hhostname'
    exact (address_safe_iff (not_restricted_of_allowed haccepts.allowed hip)).mp
      (hsafe.addresses ip hip)
  · intro h
    refine ⟨fun t ht => ?_, ?_⟩
    · obtain ⟨parsed, hostname, port, first, haccepts, hfirst, rfl⟩ :=
        resolve_peer_connect_target_eq_some.mp ht
      obtain ⟨hparse, hscheme⟩ := scheme_of_parse haccepts.parsed_eq
      refine ⟨parsed, hostname, hparse, haccepts.hostname_eq, ?_, ?_, ?_, hscheme⟩
      · exact ⟨first, List.mem_of_mem_head? hfirst, rfl⟩
      · intro ip hip
        exact (address_safe_iff (not_restricted_of_allowed haccepts.allowed hip)).mpr
          (h parsed hostname port haccepts ip hip)
      · exact port_of_resolve haccepts.port_eq
    · rw [validate_peer_url_eq_some, Option.isSome_iff_exists]
      constructor
      · rintro ⟨-, parsed, hostname, port, haccepts⟩
        obtain ⟨first, hfirst, -⟩ := ips_nonempty haccepts.allowed
        exact ⟨_, resolve_peer_connect_target_eq_some.mpr
          ⟨parsed, hostname, port, first, haccepts, hfirst, rfl⟩⟩
      · rintro ⟨t, ht⟩
        obtain ⟨parsed, hostname, port, -, haccepts, -⟩ := resolve_peer_connect_target_eq_some.mp ht
        exact ⟨rfl, parsed, hostname, port, haccepts⟩

end Checks

/-! An IPv4-mapped address in a blocked network, and a metadata address with a scope
identifier. -/

namespace HiddenAddress

def mapped : IpAddress := .v6 0xFFFF08080808#128 none

def zoned : IpAddress := .v6 0xFD000EC2000000000000000000000254#128 (some (lit "1"))

def mapped_url : Str := lit "ws://[::ffff:8.8.8.8]:80"

def zoned_url : Str := lit "ws://[fd00:ec2::254%1]:80"

def parsed (hostname : Str) : ParseResult :=
  ⟨lit "ws", [], [], [], some hostname, none, none, .ok (some 80)⟩

/-- The library on these texts. -/
@[reducible] def library : NetLibrary where
  urlparse url :=
    if url = mapped_url then some (parsed (lit "::ffff:8.8.8.8"))
    else if url = zoned_url then some (parsed (lit "fd00:ec2::254%1"))
    else none
  ip_address text :=
    if text = lit "::ffff:8.8.8.8" then some mapped
    else if text = lit "fd00:ec2::254%1" then some zoned
    else none
  ip_network text :=
    if text = lit "::ffff:0:0/96" then
      some (.v6 0xFFFF00000000#128 0xFFFFFFFFFFFFFFFFFFFFFFFF00000000#128)
    else none
  ip_str ip := if ip = mapped then lit "::ffff:808:808" else lit "fd00:ec2::254%1"
  is_global ip := ip ≠ zoned
  is_reserved _ := false
  is_multicast _ := false
  is_private ip := ip = zoned
  is_loopback _ := false
  isdigit c := 48 ≤ c.val ∧ c.val ≤ 57
  private_of_loopback _ h := by cases h

attribute [local instance] library

/-- No name is resolved here. -/
def resolver : Resolver := fun _ => none

def mapped_blocked : UrlSettings := ⟨false, false, [lit "::ffff:0:0/96"], [80, 443, 8765]⟩

def private_allowed : UrlSettings := ⟨false, true, [], [80, 443, 8765]⟩

theorem hidden_address_dialed :
    ¬ NeverForbidden resolver mapped_url mapped_blocked .development ∧
      ¬ NeverForbidden resolver zoned_url private_allowed .development := by
  constructor
  · intro h
    obtain ⟨parsed', hostname, hparse, hhostname, hsafe⟩ :=
      h.target ⟨mapped_url, lit "::ffff:808:808", 80, lit "::ffff:8.8.8.8"⟩ (by decide +kernel)
    have hparsed : NetLibrary.urlparse mapped_url = some (parsed (lit "::ffff:8.8.8.8")) :=
      if_pos rfl
    rw [hparsed] at hparse
    obtain rfl := Option.some.inj hparse
    obtain rfl := Option.some.inj hhostname
    have hblocked := (hsafe.addresses mapped (by decide +kernel)).blocked mapped (Or.inl rfl)
      (.v6 0xFFFF00000000#128 0xFFFFFFFFFFFFFFFFFFFFFFFF00000000#128)
      (List.mem_filterMap.mpr ⟨lit "::ffff:0:0/96", by decide, if_pos rfl⟩)
    exact absurd hblocked (by decide +kernel)
  · intro h
    obtain ⟨parsed', hostname, hparse, hhostname, hsafe⟩ :=
      h.target ⟨zoned_url, lit "fd00:ec2::254%1", 80, lit "fd00:ec2::254%1"⟩ (by decide +kernel)
    have hparsed : NetLibrary.urlparse zoned_url = some (parsed (lit "fd00:ec2::254%1")) :=
      (if_neg (by decide +kernel)).trans (if_pos rfl)
    rw [hparsed] at hparse
    obtain rfl := Option.some.inj hparse
    obtain rfl := Option.some.inj hhostname
    have hmetadata := (hsafe.addresses zoned (by decide +kernel)).metadata zoned (Or.inl rfl)
    exact hmetadata (by decide +kernel)

end HiddenAddress

end EasyBlockchain
