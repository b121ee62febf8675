/-
SHA-256 (FIPS 180-4), over natural numbers so that the kernel can evaluate it.

The development is stated for any digest function; this one is the real thing,
for runs on concrete inputs.
-/
import Mathlib.Data.Nat.Notation
import Mathlib.Data.UInt

set_option autoImplicit false

namespace EasyBlockchain.Py.Sha256

/-- The round constants. -/
def roundConstants : List ℕ :=
  [0x428a2f98, 0x71374491, 0xb5c0fbcf, 0xe9b5dba5, 0x3956c25b, 0x59f111f1, 0x923f82a4, 0xab1c5ed5,
    0xd807aa98, 0x12835b01, 0x243185be, 0x550c7dc3, 0x72be5d74, 0x80deb1fe, 0x9bdc06a7, 0xc19bf174,
    0xe49b69c1, 0xefbe4786, 0x0fc19dc6, 0x240ca1cc, 0x2de92c6f, 0x4a7484aa, 0x5cb0a9dc, 0x76f988da,
    0x983e5152, 0xa831c66d, 0xb00327c8, 0xbf597fc7, 0xc6e00bf3, 0xd5a79147, 0x06ca6351, 0x14292967,
    0x27b70a85, 0x2e1b2138, 0x4d2c6dfc, 0x53380d13, 0x650a7354, 0x766a0abb, 0x81c2c92e, 0x92722c85,
    0xa2bfe8a1, 0xa81a664b, 0xc24b8b70, 0xc76c51a3, 0xd192e819, 0xd6990624, 0xf40e3585, 0x106aa070,
    0x19a4c116, 0x1e376c08, 0x2748774c, 0x34b0bcb5, 0x391c0cb3, 0x4ed8aa4a, 0x5b9cca4f, 0x682e6ff3,
    0x748f82ee, 0x78a5636f, 0x84c87814, 0x8cc70208, 0x90befffa, 0xa4506ceb, 0xbef9a3f7, 0xc67178f2]

/-- The initial hash value. -/
def initial : List ℕ :=
  [0x6a09e667, 0xbb67ae85, 0x3c6ef372, 0xa54ff53a, 0x510e527f, 0x9b05688c, 0x1f83d9ab, 0x5be0cd19]

/-- Reduction to a 32-bit word. -/
def word (n : ℕ) : ℕ := n % 2 ^ 32

/-- Rotation of a 32-bit word to the right. -/
def rotr (x n : ℕ) : ℕ := (x >>> n) ||| word (x <<< (32 - n))

def bigSigma0 (x : ℕ) : ℕ := rotr x 2 ^^^ rotr x 13 ^^^ rotr x 22

def bigSigma1 (x : ℕ) : ℕ := rotr x 6 ^^^ rotr x 11 ^^^ rotr x 25

def smallSigma0 (x : ℕ) : ℕ := rotr x 7 ^^^ rotr x 18 ^^^ (x >>> 3)

def smallSigma1 (x : ℕ) : ℕ := rotr x 17 ^^^ rotr x 19 ^^^ (x >>> 10)

def choose (x y z : ℕ) : ℕ := (x &&& y) ^^^ ((2 ^ 32 - 1 - x) &&& z)

def majority (x y z : ℕ) : ℕ := (x &&& y) ^^^ (x &&& z) ^^^ (y &&& z)

/-- Hands the evaluated number to the continuation, which keeps the kernel from
carrying unevaluated words through the rounds. -/
def forced {α : Type} (n : ℕ) (k : ℕ → α) : α :=
  match n with
  | 0 => k 0
  | m + 1 => k (m + 1)

/-- Sixty-four words of the message schedule, from the last sixteen, newest first. -/
def extendSchedule : ℕ → List ℕ → List ℕ
  | 0, ws => ws
  | n + 1, ws =>
    forced
      (word (smallSigma1 (ws.getD 1 0) + ws.getD 6 0 + smallSigma0 (ws.getD 14 0) + ws.getD 15 0))
      fun w => extendSchedule n (w :: ws)

/-- One round per schedule word. -/
def rounds : List (ℕ × ℕ) → ℕ → ℕ → ℕ → ℕ → ℕ → ℕ → ℕ → ℕ → List ℕ
  | [], a, b, c, d, e, f, g, h => [a, b, c, d, e, f, g, h]
  | (k, w) :: rest, a, b, c, d, e, f, g, h =>
    forced (h + bigSigma1 e + choose e f g + k + w) fun t₁ =>
    forced (word (d + t₁)) fun e' =>
    forced (word (t₁ + bigSigma0 a + majority a b c)) fun a' =>
    rounds rest a' a b c e' e f g

/-- The compression of one block of sixteen words. -/
def compress (state block : List ℕ) : List ℕ :=
  let schedule := (extendSchedule 48 block.reverse).reverse
  let out :=
    match state with
    | [a, b, c, d, e, f, g, h] => rounds (roundConstants.zip schedule) a b c d e f g h
    | _ => state
  List.zipWith (fun x y => word (x + y)) state out

/-- The message with its padding, as bytes. -/
def padded (message : List UInt8) : List ℕ :=
  let n := message.length
  let zeros := (119 - n % 64) % 64
  message.map UInt8.toNat ++ [0x80] ++ List.replicate zeros 0
    ++ (List.range 8).map (fun i => (8 * n) >>> (8 * (7 - i)) % 256)

/-- Big-endian words. -/
def toWords : List ℕ → List ℕ
  | a :: b :: c :: d :: rest =>
    forced (a * 0x1000000 + b * 0x10000 + c * 0x100 + d) fun w => w :: toWords rest
  | _ => []

/-- The compressions of all blocks. -/
def blocks : ℕ → List ℕ → List ℕ → List ℕ
  | 0, _, state => state
  | n + 1, ws, state => blocks n (ws.drop 16) (compress state (ws.take 16))

/-- The digest of a byte string. -/
def digest (message : List UInt8) : BitVec 256 :=
  let ws := toWords (padded message)
  let state := blocks (ws.length / 16) ws initial
  BitVec.ofNat 256 (state.foldl (fun acc w => acc * 2 ^ 32 + w) 0)

end EasyBlockchain.Py.Sha256
