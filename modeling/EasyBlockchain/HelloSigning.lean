/-
`network/peer_auth.py`: what a signature on a HELLO covers.

The signed dictionary is rebuilt from the payload, with `int` around the timestamp
and `str` around the advertised URL. The fields that `_on_hello` acts on enter it
as they are, or are compared by type first; a text that `str` makes of anything but
a string is never the text of a ws URL, so the coercion hides no URL and invents
none.
-/
import EasyBlockchain.ConnectPeer
import EasyBlockchain.HashCommitment
import EasyBlockchain.PeerAuth

set_option autoImplicit false

namespace EasyBlockchain

open Py

/-! ## What is assumed -/

/-- `str` of a value that is no string: `None`, `True`, `False`, digits, `nan`, `inf`
or something in brackets. -/
def PlainTexts [Stringify] : Prop :=
  ∀ v : PyVal, (∀ s, v ≠ .str s) → (Stringify.str v).head? ≠ some (ofChar 'w')

/-- A signature verifies under a key for one of these byte strings at most. -/
def OneContent [Rsa] (contents : Set (List UInt8)) : Prop :=
  ∀ key signature c d, c ∈ contents → d ∈ contents → Rsa.verify key signature c = true →
    Rsa.verify key signature d = true → c = d

section Signing

variable [Runtime] [Rsa] [Stringify]

/-! ## The signed fields -/

omit [Runtime] [Rsa] in
/-- What `hello_signing_payload` takes from a payload. -/
theorem of_hello_signing_payload {payload signing : Dict}
    (h : hello_signing_payload payload = .ok signing) :
    Dict.find signing (lit "consensus_type") = Dict.find payload (lit "consensus_type") ∧
      Dict.find signing (lit "genesis_hash") = Dict.find payload (lit "genesis_hash") ∧
      Dict.find signing (lit "chain_height") = Dict.find payload (lit "chain_height") ∧
      Dict.find signing (lit "advertised_url")
        = (Dict.find payload (lit "advertised_url")).map fun v => .str (pyStr v) := by
  simp only [hello_signing_payload, bind_eq_ok, PyVal.item_dict, orRaise_eq_ok] at h
  obtain ⟨node_id, -, consensus_type, hconsensus, genesis_hash, hgenesis, chain_height, hheight,
    timestamp, -, number, -, h⟩ := h
  cases hurl : Dict.find payload (lit "advertised_url") with
  | none =>
      rw [hurl] at h
      obtain rfl := Except.ok.inj h
      exact ⟨hconsensus.symm, hgenesis.symm, hheight.symm, rfl⟩
  | some url =>
      rw [hurl] at h
      obtain rfl := Except.ok.inj h
      exact ⟨hconsensus.symm, hgenesis.symm, hheight.symm, rfl⟩

/-- What an accepted HELLO holds. -/
theorem of_verify_hello {payload : Dict} {settings : PeerAuthSettings} {now : ℚ}
    (h : verify_hello payload settings now = .ok true) :
    (∃ height : ℤ, Dict.find payload (lit "chain_height") = some (.int height)) ∧
      ∃ signature public_key sig pem key signing content,
        Dict.find payload (lit "signature") = some signature ∧
        Dict.find payload (lit "public_key") = some public_key ∧
        fromHex (pyStr signature) = some sig ∧ utf8 (pyStr public_key) = some pem ∧
        import_public_key pem = some key ∧ hello_signing_payload payload = .ok signing ∧
        signed_bytes signing = .ok content ∧ Rsa.verify key sig content = true := by
  unfold verify_hello at h
  split at h
  · cases h
  simp only [bind_eq_ok, PyVal.item_dict, orRaise_eq_ok] at h
  obtain ⟨chain_height, hheight, h⟩ := h
  split at h
  · cases h
  rename_i his
  simp only [bind_eq_ok] at h
  obtain ⟨timestamp, -, h⟩ := h
  split at h
  · cases h
  simp only [bind_eq_ok] at h
  obtain ⟨far, -, h⟩ := h
  split at h
  · cases h
  simp only [bind_eq_ok] at h
  obtain ⟨signature, hsignature, public_key, hpublic, h⟩ := h
  split at h
  · rename_i sig pem hsig hpem
    rw [verify_hello_signature, falseOnError_eq_true] at h
    simp only [bind_eq_ok, orRaise_eq_ok] at h
    obtain ⟨key, hkey, signing, hsigning, h⟩ := h
    unfold verify_signature at h
    split at h
    · cases h
    simp only [bind_eq_ok, pure_eq, Except.ok.injEq] at h
    obtain ⟨content, hcontent, hverify⟩ := h
    refine ⟨?_, signature, public_key, sig, pem, key, signing, content,
      orRaise_eq_ok.mp hsignature, orRaise_eq_ok.mp hpublic, hsig, hpem, hkey, hsigning, hcontent,
      hverify⟩
    cases chain_height with
    | int height => exact ⟨height, hheight⟩
    | _ => simp [is_height] at his
  · cases h

omit [Runtime] [Rsa] in
/-- A text of a ws URL is the text of a string only, so the same texts are the same
URLs. -/
theorem advertises_congr (hplain : PlainTexts) {v w : PyVal} (h : pyStr v = pyStr w)
    (node : DialingNode) (peer_id : Str) : node.advertises peer_id v = node.advertises peer_id w := by
  have hnone : ∀ (v w : PyVal), (∀ s, v ≠ .str s) → pyStr v = pyStr w →
      node.advertises peer_id w = none := by
    intro v w hv hvw
    have hv' : pyStr v = Stringify.str v := by
      cases v with
      | str s => exact absurd rfl (hv s)
      | _ => rfl
    cases w with
    | str url =>
        have hhead := hplain v hv
        rw [← hv', hvw] at hhead
        simp only [pyStr] at hhead
        have hscheme : ((lit "ws://").isPrefixOf url || (lit "wss://").isPrefixOf url) = false := by
          cases url with
          | nil => rfl
          | cons c url =>
              have hc : c ≠ ofChar 'w' := fun hc => hhead (by rw [hc]; rfl)
              simp [lit, List.isPrefixOf, Ne.symm hc]
        simp [DialingNode.advertises, hscheme]
    | _ => rfl
  by_cases hv : ∃ s, v = .str s
  · obtain ⟨s, rfl⟩ := hv
    by_cases hw : ∃ t, w = .str t
    · obtain ⟨t, rfl⟩ := hw
      obtain rfl : s = t := h
      rfl
    · rw [hnone w (.str s) (by simpa using hw) h.symm]
      cases w with
      | str t => exact absurd ⟨t, rfl⟩ hw
      | _ => rfl
  · rw [hnone v w (by simpa using hv) h]
    cases v with
    | str s => exact absurd ⟨s, rfl⟩ hv
    | _ => rfl

/-! ## What the signature covers -/

/-- The payloads agree on what `_on_hello` acts on: the values it compares, up to the
order of the keys in them, the height, and the URL that a node would register for
any of its peers. -/
structure ActsAlike (p q : Dict) : Prop where
  consensus_type : (Dict.find p (lit "consensus_type")).map canon
    = (Dict.find q (lit "consensus_type")).map canon
  genesis_hash : (Dict.find p (lit "genesis_hash")).map canon
    = (Dict.find q (lit "genesis_hash")).map canon
  chain_height : Dict.find p (lit "chain_height") = Dict.find q (lit "chain_height")
  registers : ∀ (node : DialingNode) (peer_id : Str),
    node.advertises peer_id ((Dict.find p (lit "advertised_url")).getD .none)
      = node.advertises peer_id ((Dict.find q (lit "advertised_url")).getD .none)

/-- What is signed for a payload is among these values, and its text among these
byte strings. -/
def SignedAmong (json : Set PyVal) (contents : Set (List UInt8)) (payload : Dict) : Prop :=
  ∀ signing, hello_signing_payload payload = .ok signing →
    .dict signing ∈ json ∧ ∀ content, signed_bytes signing = .ok content → content ∈ contents

omit [Rsa] [Stringify] in
theorem dumps_of_signed_bytes {signing : Dict} {content : List UInt8}
    (h : signed_bytes signing = .ok content) :
    ∃ text, dumps sortedAscii (.dict signing) = .ok text ∧ utf8 text = some content := by
  simp only [signed_bytes, bind_eq_ok, encode, orRaise_eq_ok] at h
  exact h

theorem acts_alike {json : Set PyVal} {contents : Set (List UInt8)} (hplain : PlainTexts)
    (hjson : DumpsInjective json) (hideal : OneContent contents) {p q : Dict}
    (hp : SignedAmong json contents p) (hq : SignedAmong json contents q)
    (hkey : Dict.find p (lit "public_key") = Dict.find q (lit "public_key"))
    (hsignature : Dict.find p (lit "signature") = Dict.find q (lit "signature"))
    {settings settings' : PeerAuthSettings} {now now' : ℚ}
    (hverify : verify_hello p settings now = .ok true)
    (hverify' : verify_hello q settings' now' = .ok true) : ActsAlike p q := by
  obtain ⟨⟨height, hheight⟩, signature, public_key, sig, pem, key, signing, content, hs, hk, hsig,
    hpem, himport, hsigning, hcontent, hv⟩ := of_verify_hello hverify
  obtain ⟨⟨height', hheight'⟩, signature', public_key', sig', pem', key', signing', content', hs', hk',
    hsig', hpem', himport', hsigning', hcontent', hv'⟩ := of_verify_hello hverify'
  -- one signature, one key, so one byte string
  rw [hsignature, hs'] at hs
  obtain rfl := Option.some.inj hs
  rw [hkey, hk'] at hk
  obtain rfl := Option.some.inj hk
  rw [hsig'] at hsig
  obtain rfl := Option.some.inj hsig
  rw [hpem'] at hpem
  obtain rfl := Option.some.inj hpem
  rw [himport'] at himport
  obtain rfl := Option.some.inj himport
  obtain rfl := hideal _ _ content content' ((hp signing hsigning).2 content hcontent)
    ((hq signing' hsigning').2 content' hcontent') hv hv'
  -- one byte string, one text, so one JSON value
  obtain ⟨text, htext, hutf8⟩ := dumps_of_signed_bytes hcontent
  obtain ⟨text', htext', hutf8'⟩ := dumps_of_signed_bytes hcontent'
  obtain rfl := utf8_inj hutf8 hutf8'
  have hsame : JsonEq (.dict signing) (.dict signing') :=
    hjson _ (hp signing hsigning).1 _ (hq signing' hsigning').1 text htext htext'
  obtain ⟨hconsensus, hgenesis, hchain, hurl⟩ := of_hello_signing_payload hsigning
  obtain ⟨hconsensus', hgenesis', hchain', hurl'⟩ := of_hello_signing_payload hsigning'
  constructor
  · rw [← hconsensus, ← hconsensus']
    exact hsame.find _
  · rw [← hgenesis, ← hgenesis']
    exact hsame.find _
  · have hfind := hsame.find (lit "chain_height")
    rw [hchain, hchain', hheight, hheight'] at hfind
    obtain rfl : height = height' := by simpa [canon] using hfind
    rw [hheight, hheight']
  · intro node peer_id
    have hfind := hsame.find (lit "advertised_url")
    rw [hurl, hurl', Option.map_map, Option.map_map] at hfind
    cases hfp : Dict.find p (lit "advertised_url") with
    | none =>
        cases hfq : Dict.find q (lit "advertised_url") with
        | none => rfl
        | some w => simp [hfp, hfq] at hfind
    | some v =>
        cases hfq : Dict.find q (lit "advertised_url") with
        | none => simp [hfp, hfq] at hfind
        | some w =>
            refine advertises_congr hplain ?_ node peer_id
            simpa [hfp, hfq, canon] using hfind

/-- Two payloads under one key and one signature that both pass are acted on alike,
and what a node builds passes while the clocks are close. -/
theorem signed_hello_unaltered {json : Set PyVal} {contents : Set (List UInt8)}
    (hplain : PlainTexts) (hjson : DumpsInjective json) (hideal : OneContent contents) :
    (∀ (p q : Dict) (settings settings' : PeerAuthSettings) (now now' : ℚ),
      SignedAmong json contents p → SignedAmong json contents q →
      Dict.find p (lit "public_key") = Dict.find q (lit "public_key") →
      Dict.find p (lit "signature") = Dict.find q (lit "signature") →
      verify_hello p settings now = .ok true → verify_hello q settings' now' = .ok true →
        ActsAlike p q) ∧
    ∀ (node_id consensus_type genesis_hash_value : Str) (chain_height : ℕ) (advertised_url : Option Str)
      (timestamp : ℤ) (manager : SignatureManager) (pem : Str) (salt : List UInt8) (payload : Dict)
      (settings : PeerAuthSettings) (now : ℚ), Signs manager pem →
      build_hello_payload node_id consensus_type chain_height genesis_hash_value manager
        advertised_url timestamp salt = .ok payload →
      too_far settings.max_skew_seconds now timestamp = .ok false →
        verify_hello payload settings now = .ok true := by
  refine ⟨fun p q settings settings' now now' hp hq hkey hsignature hv hv' =>
    acts_alike hplain hjson hideal hp hq hkey hsignature hv hv', ?_⟩
  intro node_id consensus_type genesis_hash_value chain_height advertised_url timestamp manager pem
    salt payload settings now hsigns hbuilt hclose
  rw [verify_hello_built node_id consensus_type genesis_hash_value chain_height advertised_url
    timestamp hsigns hbuilt, hclose]
  rfl

end Signing

/-! A HELLO with a field that is not signed. -/

namespace ExtraField

attribute [local instance] cpython letterRsa

local instance : Stringify := ⟨fun _ => lit "None"⟩

def built : Dict :=
  ((build_hello_payload (lit "n") (lit "pow") 3 DEFAULT_GENESIS_PREV_HASH
    Proposals.manager (some (lit "ws://n:9000")) 1000 []).toOption).getD []

def extended : Dict := built ++ [(.str (lit "x"), .int 1)]

def settings : PeerAuthSettings := ⟨true, 300⟩

def signing : Dict := ((hello_signing_payload built).toOption).getD []

def content : List UInt8 := ((signed_bytes signing).toOption).getD []

theorem signed_among {payload : Dict} (h : hello_signing_payload payload = .ok signing) :
    SignedAmong {.dict signing} {content} payload := by
  intro other hother
  rw [h] at hother
  obtain rfl := Except.ok.inj hother
  refine ⟨rfl, fun bytes hbytes => ?_⟩
  rw [Set.mem_singleton_iff, content, hbytes]
  rfl

theorem extended_unaltered : ActsAlike built extended ∧ verify_hello built settings 1001 = .ok true := by
  have hnone : (lit "None").head? ≠ some (ofChar 'w') := by decide
  have hplain : PlainTexts := fun _ _ => hnone
  have hjson : DumpsInjective {PyVal.dict signing} := by
    intro a ha b hb _ _ _
    rw [Set.mem_singleton_iff.mp ha, Set.mem_singleton_iff.mp hb]
    exact JsonEq.refl _
  have hideal : OneContent {content} := by
    intro _ _ c d hc hd _ _
    exact (Set.mem_singleton_iff.mp hc).trans (Set.mem_singleton_iff.mp hd).symm
  have hall := signed_hello_unaltered hplain hjson hideal
  refine ⟨hall.1 built extended settings settings 1001 1002 (signed_among (by decide +kernel))
    (signed_among (by decide +kernel)) (by decide +kernel) (by decide +kernel) (by decide +kernel)
    (by decide +kernel), ?_⟩
  exact hall.2 (lit "n") (lit "pow") DEFAULT_GENESIS_PREV_HASH 3 (some (lit "ws://n:9000")) 1000
    Proposals.manager (lit "-----A") [] built settings 1001 Proposals.signs (by decide +kernel) (by decide +kernel)

end ExtraField

end EasyBlockchain
