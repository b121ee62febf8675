/-
`hash_utils.py`: the hashes of a block and the proof-of-work target.

The hashed texts are plain concatenations. `prev_hash` comes out of a decoded
block, so it can be any value; Python raises `TypeError` where it is not a
string.
-/
import EasyBlockchain.Py.JsonText
import EasyBlockchain.Types

set_option autoImplicit false

namespace EasyBlockchain

open Py

/-- `digest.hexdigest()`: 64 hexadecimal digits, most significant first. -/
def hexdigest (digest : BitVec 256) : Str :=
  (List.range 64).map fun i => hexDigit (digest.toNat / 16 ^ (63 - i))

@[simp] theorem hexdigest_length (digest : BitVec 256) : (hexdigest digest).length = 64 := by
  simp [hexdigest]

theorem scalars_hexdigest (digest : BitVec 256) : Scalars (hexdigest digest) := by
  intro c hc
  obtain ⟨i, -, rfl⟩ := List.mem_map.mp hc
  have h : ∀ n : Fin 16, isSurrogate (hexDigit n.val) = false := by decide
  have hmod : ∀ n, hexDigit n = hexDigit (n % 16) := by
    intro n
    simp [hexDigit]
  rw [hmod]
  exact h ⟨_, Nat.mod_lt _ (by omega)⟩

/-- `value + text`, which raises unless `value` is a string. -/
def concat (value : PyVal) (text : Str) : PyM Str :=
  match value with
  | .str s => .ok (s ++ text)
  | _ => .error .typeError

@[simp] theorem concat_eq_ok {value : PyVal} {text t : Str} :
    concat value text = .ok t ↔ ∃ s, value = .str s ∧ s ++ text = t := by
  cases value <;> simp [concat]

section Hashes

variable [Runtime]

def sha256_hex (data : Str) : PyM Str := do
  let bytes ← encode data
  return hexdigest (Runtime.sha256 bytes)

def calc_body_hash (transaction : PyVal) : PyM Str := do
  let text ← dumps sortedAscii transaction
  let tran_string ← encode text
  sha256_hex (reprBytes tran_string)

def calc_legacy_tran_hash (prev_hash : PyVal) (body_hash : Str) : PyM Str := do
  let text ← concat prev_hash body_hash
  sha256_hex text

def calc_pow_tran_hash (prev_hash : PyVal) (body_hash : Str) (nonce : ℤ) : PyM Str := do
  let text ← concat prev_hash body_hash
  let nonce ← orRaise .valueError (strOfInt nonce)
  sha256_hex (text ++ nonce)

def calc_pos_tran_hash (prev_hash : PyVal) (body_hash validator_id : Str) (slot : ℤ) : PyM Str := do
  let text ← concat prev_hash body_hash
  let slot ← orRaise .valueError (strOfInt slot)
  sha256_hex (text ++ validator_id ++ slot)

/-- Every hash the program stores has 64 characters. -/
theorem sha256_hex_length {data h : Str} (hash : sha256_hex data = .ok h) : h.length = 64 := by
  simp only [sha256_hex, bind_eq_ok, pure_eq, Except.ok.injEq] at hash
  obtain ⟨bytes, -, rfl⟩ := hash
  exact hexdigest_length _

/-- A hashed text can be encoded, and so can its hash. -/
theorem scalars_of_sha256_hex {data h : Str} (hash : sha256_hex data = .ok h) :
    Scalars data ∧ Scalars h := by
  simp only [sha256_hex, bind_eq_ok, pure_eq, Except.ok.injEq, encode, orRaise_eq_ok] at hash
  obtain ⟨bytes, hbytes, rfl⟩ := hash
  exact ⟨utf8_isSome_iff.mp (Option.isSome_of_eq_some hbytes), scalars_hexdigest _⟩

theorem calc_body_hash_length {transaction : PyVal} {h : Str}
    (hash : calc_body_hash transaction = .ok h) : h.length = 64 := by
  simp only [calc_body_hash, bind_eq_ok] at hash
  obtain ⟨_, -, _, -, hash⟩ := hash
  exact sha256_hex_length hash

end Hashes

/-- `len(s) - len(s.lstrip("0"))`. -/
def leading_zeros (hash_hex : Str) : ℕ := (hash_hex.takeWhile (· = ofChar '0')).length

def meets_difficulty (hash_hex : Str) (difficulty : ℤ) : Bool :=
  if difficulty ≤ 0 then false else difficulty ≤ leading_zeros hash_hex

/-- The target is a bound on the number of leading zeros. -/
theorem meets_difficulty_iff {hash_hex : Str} {difficulty : ℤ} :
    meets_difficulty hash_hex difficulty = true ↔
      0 < difficulty ∧ difficulty ≤ leading_zeros hash_hex := by
  unfold meets_difficulty
  split
  · simp; omega
  · simp; omega

end EasyBlockchain
