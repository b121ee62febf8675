/-
`signature.py`: signing and verifying blocks.

`Rsa` is the `cryptography` package as this module uses it: loading a public
key, its size, and the PSS/SHA-256 signature and verification functions. What a
key or a signature is stays abstract. A load that fails, whatever it raises
(`ValueError`, `UnsupportedAlgorithm`, a key that is not RSA), is `none`: the
one caller turns all of them into `False`.
-/
import EasyBlockchain.HashUtils
import EasyBlockchain.Py.CPython

set_option autoImplicit false

namespace EasyBlockchain

open Py

/-- The `cryptography` package, as far as `signature.py` calls it. -/
class Rsa where
  PrivateKey : Type
  PublicKey : Type
  public_key : PrivateKey → PublicKey
  load_pem_public_key : List UInt8 → Option PublicKey
  load_der_public_key : List UInt8 → Option PublicKey
  /-- the PEM text of a public key -/
  public_bytes : PublicKey → Str
  /-- the size of the key in bits -/
  key_size : PublicKey → ℕ
  /-- the PSS signature with the given salt -/
  sign : PrivateKey → List UInt8 → List UInt8 → List UInt8
  verify : PublicKey → List UInt8 → List UInt8 → Bool

/-! ## Hexadecimal text -/

/-- `bs.hex()`. -/
def toHex (bs : List UInt8) : Str :=
  bs.flatMap fun b => [hexDigit (b.toNat / 0x10), hexDigit b.toNat]

/-- ASCII white space, which `bytes.fromhex` skips between bytes. -/
def isAsciiSpace (c : CodePoint) : Bool := c.val ∈ [0x20, 0x09, 0x0a, 0x0b, 0x0c, 0x0d]

/-- `bytes.fromhex(s)`, or `none` where Python raises `ValueError`. -/
def fromHex : Str → Option (List UInt8)
  | [] => some []
  | [c] => if isAsciiSpace c then some [] else none
  | c :: d :: rest =>
    if isAsciiSpace c then fromHex (d :: rest)
    else
      match hexValue c, hexValue d, fromHex rest with
      | some hi, some lo, some bs => some ((16 * hi + lo).toUInt8 :: bs)
      | _, _, _ => none

theorem isAsciiSpace_hexDigit (n : ℕ) : isAsciiSpace (hexDigit n) = false := by
  have hdigits : ∀ m < 16, isAsciiSpace (ofChar (Nat.digitChar m)) = false := by decide
  exact hdigits _ (Nat.mod_lt n (by decide))

/-- Hexadecimal text is read back. -/
theorem fromHex_toHex (bs : List UInt8) : fromHex (toHex bs) = some bs := by
  induction bs with
  | nil => rfl
  | cons b bs ih =>
      have hbyte : 16 * (b.toNat / 0x10 % 16) + b.toNat % 16 = b.toNat := by
        have hlt := b.toNat_lt
        omega
      rw [toHex, List.flatMap_cons, List.cons_append, List.cons_append, List.nil_append, ← toHex,
        fromHex, isAsciiSpace_hexDigit]
      simp only [Bool.false_eq_true, if_false, hexValue_hexDigit, ih, hbyte, Option.some.injEq,
        List.cons.injEq, and_true]
      exact UInt8.ofNat_toNat

/-! ## `SignatureManager` -/

/-- The keys a `SignatureManager` holds. -/
structure SignatureManager [Rsa] where
  private_key : Option Rsa.PrivateKey
  public_key : Option Rsa.PublicKey

/-- `except (ValueError, TypeError, UnsupportedAlgorithm): return False`. -/
def falseOnError (r : PyM Bool) : PyM Bool :=
  match r with
  | .error e => if e.isValueError || e = .typeError then .ok false else .error e
  | r => r

@[simp] theorem falseOnError_eq_true {r : PyM Bool} : falseOnError r = .ok true ↔ r = .ok true := by
  cases r with
  | error e => simp only [falseOnError]; split <;> simp
  | ok b => simp [falseOnError]

section Signatures

variable [Runtime] [Rsa]

/-- `import_public_key`, `none` where it raises. -/
def import_public_key (key_data : List UInt8) : Option Rsa.PublicKey :=
  let stripped := key_data.dropWhile fun b => isAsciiSpace (ofChar (Char.ofNat b.toNat))
  if List.replicate 5 0x2d <+: stripped then Rsa.load_pem_public_key key_data
  else Rsa.load_der_public_key key_data

/-- The bytes `sign_data` and `verify_signature` hash for a dictionary. -/
def signed_bytes (data : Dict) : PyM (List UInt8) := do
  let data_string ← dumps sortedAscii (.dict data)
  encode data_string

/-- A block without its signature fields. -/
def unsigned (block : Dict) : Dict :=
  (Dict.without block (lit "signature")).without (lit "public_key")

/-- `verify_signature` for a dictionary and an imported key. -/
def verify_signature (data : Dict) (signature : List UInt8) (public_key : Rsa.PublicKey) :
    PyM Bool := do
  if signature.length ≠ Rsa.key_size public_key / 8 then return false
  let data_bytes ← signed_bytes data
  return Rsa.verify public_key signature data_bytes

/-- The body of the `try` statement of `verify_block_signature`. -/
def verify_block_signature_body (signed_block : Dict) (signature_hex public_key : PyVal) :
    PyM Bool :=
  match signature_hex, public_key with
  | .str signature_hex, .str public_key => do
    let public_key_pem ← encode public_key
    let signature ← orRaise .valueError (fromHex signature_hex)
    let public_key ← orRaise .valueError (import_public_key public_key_pem)
    verify_signature (unsigned signed_block) signature public_key
  | _, _ => .ok false

def verify_block_signature (signed_block : PyVal) : PyM Bool :=
  match signed_block with
  | .dict d =>
    match Dict.find d (lit "signature"), Dict.find d (lit "public_key") with
    | some signature_hex, some public_key =>
      falseOnError (verify_block_signature_body d signature_hex public_key)
    | _, _ => .ok false
  | _ => .error .typeError

/-- `signature` is a hexadecimal text that the key in `pem` verifies over the
content of `block`. -/
def SignedBy (pem : Str) (signature : Str) (content : List UInt8) : Prop :=
  ∃ bytes sig key, utf8 pem = some bytes ∧ fromHex signature = some sig ∧
    import_public_key bytes = some key ∧ sig.length = Rsa.key_size key / 8 ∧
    Rsa.verify key sig content = true

theorem verify_block_signature_body_eq_true {d : Dict} {s k : PyVal} :
    verify_block_signature_body d s k = .ok true ↔
      ∃ signature pem content, s = .str signature ∧ k = .str pem ∧
        signed_bytes (unsigned d) = .ok content ∧ SignedBy pem signature content := by
  constructor
  · intro h
    unfold verify_block_signature_body at h
    split at h
    · rename_i signature pem
      simp only [bind_eq_ok, encode, orRaise_eq_ok, verify_signature] at h
      obtain ⟨bytes, hbytes, sig, hsig, key, hkey, h⟩ := h
      by_cases hlen : sig.length = Rsa.key_size key / 8
      · simp only [hlen, ne_eq, not_true_eq_false, if_false, bind_eq_ok, pure_eq,
          Except.ok.injEq] at h
        obtain ⟨content, hcontent, hverify⟩ := h
        exact ⟨signature, pem, content, rfl, rfl, hcontent, bytes, sig, key, hbytes, hsig, hkey,
          hlen, hverify⟩
      · simp [hlen] at h
    · simp at h
  · rintro ⟨signature, pem, content, rfl, rfl, hcontent, bytes, sig, key, hbytes, hsig, hkey,
      hlen, hverify⟩
    simp [verify_block_signature_body, encode, hbytes, hsig, hkey, verify_signature, hlen,
      hcontent, hverify]

/-- What a verified block signature means. -/
theorem verify_block_signature_eq_true {d : Dict} :
    verify_block_signature (.dict d) = .ok true ↔
      ∃ signature pem content, Dict.find d (lit "signature") = some (.str signature) ∧
        Dict.find d (lit "public_key") = some (.str pem) ∧
        signed_bytes (unsigned d) = .ok content ∧ SignedBy pem signature content := by
  unfold verify_block_signature
  rcases hs : Dict.find d (lit "signature") with _ | s
  · simp [hs]
  rcases hk : Dict.find d (lit "public_key") with _ | k
  · simp [hs, hk]
  simp only [hs, hk, falseOnError_eq_true, verify_block_signature_body_eq_true, Option.some.injEq]

/-- `export_public_key().decode("utf-8")`. -/
def export_public_key (manager : SignatureManager) : PyM Str :=
  match manager.public_key with
  | some key => .ok (Rsa.public_bytes key)
  | none => .error .valueError

/-- `sign_block`; `salt` is the random salt of the PSS padding. -/
def sign_block (manager : SignatureManager) (salt : List UInt8) (block_data : Dict) :
    PyM Dict := do
  let payload := unsigned block_data
  let private_key ← orRaise .valueError manager.private_key
  let data_bytes ← signed_bytes payload
  let signature := Rsa.sign private_key salt data_bytes
  let public_key ← export_public_key manager
  return Dict.set (Dict.set payload (lit "signature") (.str (toHex signature)))
    (lit "public_key") (.str public_key)

end Signatures

/-! ## A scheme to run on

Keys are letters, and the signature is the digest of the letter and the data,
so a signature verifies under the key that made it and no other text reads back
as a key. Nothing is secret about it. -/

/-- The digest as 32 bytes. -/
def digestBytes (digest : BitVec 256) : List UInt8 :=
  (List.range 32).map fun i => (digest.toNat / 256 ^ (31 - i)).toUInt8

instance neZero_letter : NeZero 26 := ⟨by decide⟩

/-- The byte of a letter. -/
def letterByte (key : Fin 26) : UInt8 := (0x41 + key.val).toUInt8

@[reducible] def letterRsa : Rsa where
  PrivateKey := Fin 26
  PublicKey := Fin 26
  public_key := id
  load_pem_public_key bytes :=
    (List.finRange 26).find? fun key => bytes = List.replicate 5 0x2d ++ [letterByte key]
  load_der_public_key _ := none
  public_bytes key := lit "-----" ++ [ofChar (Char.ofNat (0x41 + key.val))]
  key_size _ := 256
  sign key _ data := digestBytes (Sha256.digest (letterByte key :: data))
  verify key signature data := signature = digestBytes (Sha256.digest (letterByte key :: data))

end EasyBlockchain
