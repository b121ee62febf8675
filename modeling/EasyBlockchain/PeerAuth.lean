/-
`network/peer_auth.py`: signed HELLO messages.

A HELLO carries the fields the other node compares, and a signature over them
under the key it carries too. `verify_hello` reads the signed fields again from
the payload, so a HELLO that was built from fields it accepts is accepted, as
long as the clocks of the two nodes are close.
-/
import EasyBlockchain.PosProducer
import EasyBlockchain.Store

set_option autoImplicit false

namespace EasyBlockchain

open Py

/-- The settings a HELLO is judged by, and whether it is. -/
structure PeerAuthSettings where
  enabled : Bool
  max_skew_seconds : ℤ

/-- `abs(x)`. -/
def PyFloat.abs : PyFloat → PyFloat
  | .inf _ => .inf false
  | .negZero => .fin 0
  | .fin q => .fin |q|
  | .nan => .nan

section Hello

variable [Runtime] [Rsa] [Stringify]

omit [Rsa] [Stringify] in
/-- `abs(current - timestamp) > max_skew_seconds`; `current` is the time of the
clock, which is a finite float. -/
def too_far (max_skew_seconds : ℤ) (current : ℚ) (timestamp : ℤ) : PyM Bool := do
  let timestamp ← PyFloat.ofInt timestamp
  return (PyFloat.fin max_skew_seconds).lt
    (PyFloat.abs (Runtime.round (current - timestamp.value.getD 0)))

omit [Runtime] [Rsa] in
def hello_signing_payload (payload : Dict) : PyM Dict := do
  let node_id ← (PyVal.dict payload).item (lit "node_id")
  let consensus_type ← (PyVal.dict payload).item (lit "consensus_type")
  let genesis_hash ← (PyVal.dict payload).item (lit "genesis_hash")
  let chain_height ← (PyVal.dict payload).item (lit "chain_height")
  let timestamp ← (PyVal.dict payload).item (lit "timestamp")
  let timestamp ← timestamp.toInt
  let signing : Dict :=
    [(.str (lit "node_id"), node_id), (.str (lit "consensus_type"), consensus_type),
      (.str (lit "genesis_hash"), genesis_hash), (.str (lit "chain_height"), chain_height),
      (.str (lit "timestamp"), .int timestamp)]
  match Dict.find payload (lit "advertised_url") with
  | some advertised_url =>
    return signing ++ [(.str (lit "advertised_url"), .str (pyStr advertised_url))]
  | none => return signing

omit [Runtime] [Rsa] [Stringify] in
/-- The fields of a HELLO before it is signed. -/
def hello_base (node_id consensus_type : Str) (chain_height : ℕ) (genesis_hash_value : Str)
    (advertised_url : Option Str) (timestamp : ℤ) : Dict :=
  let base : Dict :=
    [(.str (lit "node_id"), .str node_id), (.str (lit "consensus_type"), .str consensus_type),
      (.str (lit "chain_height"), .int chain_height),
      (.str (lit "genesis_hash"), .str genesis_hash_value), (.str (lit "timestamp"), .int timestamp)]
  match advertised_url with
  | some url => if url.isEmpty then base else base ++ [(.str (lit "advertised_url"), .str url)]
  | none => base

/-- `timestamp` is `int(time.time())`, and `salt` the random salt of the signature. -/
def build_hello_payload (node_id consensus_type : Str) (chain_height : ℕ) (genesis_hash_value : Str)
    (signature_manager : SignatureManager) (advertised_url : Option Str) (timestamp : ℤ)
    (salt : List UInt8) : PyM Dict := do
  let base := hello_base node_id consensus_type chain_height genesis_hash_value advertised_url
    timestamp
  let signing_data ← hello_signing_payload base
  let private_key ← orRaise .valueError signature_manager.private_key
  let data_bytes ← signed_bytes signing_data
  let public_key ← export_public_key signature_manager
  return base ++ [(.str (lit "public_key"), .str public_key),
    (.str (lit "signature"), .str (toHex (Rsa.sign private_key salt data_bytes)))]

omit [Runtime] [Rsa] [Stringify] in
/-- The keys that `verify_hello` requires. -/
def hello_required : List Str :=
  [lit "node_id", lit "consensus_type", lit "chain_height", lit "genesis_hash", lit "timestamp",
    lit "public_key", lit "signature"]

omit [Runtime] [Rsa] [Stringify] in
/-- `type(chain_height) is int and chain_height >= 0`. -/
def is_height : PyVal → Bool
  | .int height => 0 ≤ height
  | _ => false

/-- The second `try` statement of `verify_hello`. -/
def verify_hello_signature (payload : Dict) (signature : List UInt8) (public_key_pem : List UInt8) :
    PyM Bool :=
  falseOnError do
    let public_key ← orRaise .valueError (import_public_key public_key_pem)
    let signing_data ← hello_signing_payload payload
    verify_signature signing_data signature public_key

/-- `verify_hello` at the time `now`. -/
def verify_hello (payload : Dict) (settings : PeerAuthSettings) (now : ℚ) : PyM Bool := do
  if !hello_required.all (fun key => (Dict.find payload key).isSome) then return false
  let chain_height ← (PyVal.dict payload).item (lit "chain_height")
  if !is_height chain_height then return false
  let timestamp ← (PyVal.dict payload).item (lit "timestamp")
  match timestamp.toInt with
  | .error _ => return false
  | .ok timestamp =>
    let far ← too_far settings.max_skew_seconds now timestamp
    if far then return false
    let signature ← (PyVal.dict payload).item (lit "signature")
    let public_key ← (PyVal.dict payload).item (lit "public_key")
    match fromHex (pyStr signature), utf8 (pyStr public_key) with
    | some signature, some public_key_pem =>
      verify_hello_signature payload signature public_key_pem
    | _, _ => return false

/-! ## A HELLO that was built is accepted -/

section Built

variable (node_id consensus_type genesis_hash_value : Str) (chain_height : ℕ)
  (advertised_url : Option Str) (timestamp : ℤ)

omit [Runtime] [Rsa] in
/-- What a HELLO is made of: the fields that are signed, its key and its signature. -/
theorem hello_fields (public_key signature : PyVal) :
    let base := hello_base node_id consensus_type chain_height genesis_hash_value advertised_url
      timestamp
    let payload := base ++ [(.str (lit "public_key"), public_key), (.str (lit "signature"), signature)]
    hello_signing_payload payload = hello_signing_payload base ∧
      hello_required.all (fun key => (Dict.find payload key).isSome) = true ∧
      Dict.find payload (lit "chain_height") = some (.int chain_height) ∧
      Dict.find payload (lit "timestamp") = some (.int timestamp) ∧
      Dict.find payload (lit "consensus_type") = some (.str consensus_type) ∧
      Dict.find payload (lit "genesis_hash") = some (.str genesis_hash_value) ∧
      Dict.find payload (lit "public_key") = some public_key ∧
      Dict.find payload (lit "signature") = some signature := by
  unfold hello_base
  rcases advertised_url with _ | url
  · exact ⟨rfl, rfl, rfl, rfl, rfl, rfl, rfl, rfl⟩
  · rcases url with _ | ⟨c, url⟩
    · exact ⟨rfl, rfl, rfl, rfl, rfl, rfl, rfl, rfl⟩
    · exact ⟨rfl, rfl, rfl, rfl, rfl, rfl, rfl, rfl⟩

/-- A HELLO that was built carries the fields it was built from. -/
theorem find_of_built {manager : SignatureManager} {salt : List UInt8} {payload : Dict}
    (hbuilt : build_hello_payload node_id consensus_type chain_height genesis_hash_value manager
      advertised_url timestamp salt = .ok payload) :
    Dict.find payload (lit "consensus_type") = some (.str consensus_type) ∧
      Dict.find payload (lit "genesis_hash") = some (.str genesis_hash_value) := by
  simp only [build_hello_payload, bind_eq_ok, pure_eq, Except.ok.injEq] at hbuilt
  obtain ⟨_, -, key, -, content, -, public_key, -, rfl⟩ := hbuilt
  obtain ⟨-, -, -, -, hconsensus, hgenesis, -, -⟩ := hello_fields node_id consensus_type
    genesis_hash_value chain_height advertised_url timestamp (.str public_key)
    (.str (toHex (Rsa.sign key salt content)))
  exact ⟨hconsensus, hgenesis⟩

/-- A node whose signatures verify builds a HELLO that every node accepts while
the clocks are close. -/
theorem verify_hello_built {manager : SignatureManager} {pem : Str} {salt : List UInt8}
    {payload : Dict} (hsigns : Signs manager pem)
    (hbuilt : build_hello_payload node_id consensus_type chain_height genesis_hash_value manager
      advertised_url timestamp salt = .ok payload) (settings : PeerAuthSettings) (now : ℚ) :
    verify_hello payload settings now
      = (too_far settings.max_skew_seconds now timestamp).map fun far => !far := by
  obtain ⟨key, hprivate, hexport, hverifies⟩ := hsigns
  simp only [build_hello_payload, bind_eq_ok, hprivate, hexport, orRaise_eq_ok, pure_eq,
    Option.some.injEq, exists_eq_left', Except.ok.injEq] at hbuilt
  obtain ⟨signing, hsigning, content, hcontent, rfl⟩ := hbuilt
  obtain ⟨hsame, hrequired, hheight, htimestamp, -, -, hkey, hsignature⟩ :=
    hello_fields node_id consensus_type genesis_hash_value chain_height advertised_url timestamp
      (.str pem) (.str (toHex (Rsa.sign key salt content)))
  obtain ⟨bytes, sig, public_key, hbytes, hsig, himport, hlength, hverify⟩ := hverifies salt content
  have hsigned : verify_hello_signature (hello_base node_id consensus_type chain_height
      genesis_hash_value advertised_url timestamp ++ [(.str (lit "public_key"), .str pem),
        (.str (lit "signature"), .str (toHex (Rsa.sign key salt content)))]) sig bytes
      = .ok true := by
    rw [verify_hello_signature, falseOnError_eq_true, himport]
    simp only [orRaise, ok_bind, hsame, hsigning, verify_signature, hlength, ne_eq,
      not_true_eq_false, if_false, hcontent, hverify, pure_eq]
  unfold verify_hello
  rw [hrequired]
  simp only [PyVal.item_dict, hheight, htimestamp, hkey, hsignature, orRaise, ok_bind, is_height,
    Int.natCast_nonneg, decide_true, Bool.not_true, Bool.false_eq_true, if_false, PyVal.toInt]
  rcases too_far settings.max_skew_seconds now timestamp with e | _ | _
  · rfl
  · simp only [ok_bind, Bool.false_eq_true, if_false, pyStr, hsig, hbytes]
    exact hsigned
  · rfl

end Built

end Hello

end EasyBlockchain
