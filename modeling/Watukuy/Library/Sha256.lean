import Mathlib.Data.List.Basic

/-!
# HMAC-SHA-256

FIPS 180-4 and FIPS 198-1 over lists of bytes. A word is a natural number under `2 ^ 32`. Every step
computes; a keyed digest is evaluated inner digest first.
-/

set_option autoImplicit false

namespace Watukuy.Library.Sha256

/-! ## Words -/

def modulus : Nat := 4294967296

/-- `ROTR`. -/
def rotr (x n : Nat) : Nat := x >>> n ||| (x <<< (32 - n)) % modulus

/-- `Ch`. -/
def choose (x y z : Nat) : Nat := x &&& y ^^^ (modulus - 1 - x) &&& z

/-- `Maj`. -/
def majority (x y z : Nat) : Nat := x &&& y ^^^ x &&& z ^^^ y &&& z

/-- The last `n` bytes of a number, the high one first. -/
def bytesOf : Nat → Nat → List UInt8
  | 0, _ => []
  | n + 1, x => bytesOf n (x / 256) ++ [UInt8.ofNat (x % 256)]

@[simp] theorem length_bytesOf (n x : Nat) : (bytesOf n x).length = n := by
  induction n generalizing x with
  | zero => rfl
  | succ n ih => rw [bytesOf, List.length_append, ih, List.length_singleton]

def words : List UInt8 → List Nat
  | a :: b :: c :: d :: rest =>
    (((a.toNat * 256 + b.toNat) * 256 + c.toNat) * 256 + d.toNat) :: words rest
  | _ => []

/-! ## Compression -/

/-- The cube roots of the first sixty-four primes. -/
def roundConstants : List Nat := [
  0x428a2f98, 0x71374491, 0xb5c0fbcf, 0xe9b5dba5, 0x3956c25b, 0x59f111f1, 0x923f82a4, 0xab1c5ed5,
  0xd807aa98, 0x12835b01, 0x243185be, 0x550c7dc3, 0x72be5d74, 0x80deb1fe, 0x9bdc06a7, 0xc19bf174,
  0xe49b69c1, 0xefbe4786, 0x0fc19dc6, 0x240ca1cc, 0x2de92c6f, 0x4a7484aa, 0x5cb0a9dc, 0x76f988da,
  0x983e5152, 0xa831c66d, 0xb00327c8, 0xbf597fc7, 0xc6e00bf3, 0xd5a79147, 0x06ca6351, 0x14292967,
  0x27b70a85, 0x2e1b2138, 0x4d2c6dfc, 0x53380d13, 0x650a7354, 0x766a0abb, 0x81c2c92e, 0x92722c85,
  0xa2bfe8a1, 0xa81a664b, 0xc24b8b70, 0xc76c51a3, 0xd192e819, 0xd6990624, 0xf40e3585, 0x106aa070,
  0x19a4c116, 0x1e376c08, 0x2748774c, 0x34b0bcb5, 0x391c0cb3, 0x4ed8aa4a, 0x5b9cca4f, 0x682e6ff3,
  0x748f82ee, 0x78a5636f, 0x84c87814, 0x8cc70208, 0x90befffa, 0xa4506ceb, 0xbef9a3f7, 0xc67178f2]

structure Chain where
  a : Nat
  b : Nat
  c : Nat
  d : Nat
  e : Nat
  f : Nat
  g : Nat
  h : Nat

/-- The square roots of the first eight primes. -/
def initial : Chain :=
  ⟨0x6a09e667, 0xbb67ae85, 0x3c6ef372, 0xa54ff53a, 0x510e527f, 0x9b05688c, 0x1f83d9ab, 0x5be0cd19⟩

def Chain.round (s : Chain) (constant word : Nat) : Chain :=
  let t₁ := (s.h + (rotr s.e 6 ^^^ rotr s.e 11 ^^^ rotr s.e 25) + choose s.e s.f s.g + constant +
    word) % modulus
  let t₂ := ((rotr s.a 2 ^^^ rotr s.a 13 ^^^ rotr s.a 22) + majority s.a s.b s.c) % modulus
  ⟨(t₁ + t₂) % modulus, s.a, s.b, s.c, (s.d + t₁) % modulus, s.e, s.f, s.g⟩

/-- The word sixteen places after the first one given. -/
def nextWord (ws : List Nat) : Nat :=
  let x := ws.getD 1 0
  let y := ws.getD 14 0
  (ws.getD 0 0 + (rotr x 7 ^^^ rotr x 18 ^^^ x >>> 3) + ws.getD 9 0 +
    (rotr y 17 ^^^ rotr y 19 ^^^ y >>> 10)) % modulus

/-- One round for each constant; the list holds the next sixteen words. -/
def rounds : List Nat → List Nat → Chain → Chain
  | [], _, s => s
  | constant :: constants, ws, s =>
    rounds constants (ws.tail ++ [nextWord ws]) (s.round constant (ws.getD 0 0))

def Chain.add (s t : Chain) : Chain :=
  ⟨(s.a + t.a) % modulus, (s.b + t.b) % modulus, (s.c + t.c) % modulus, (s.d + t.d) % modulus,
    (s.e + t.e) % modulus, (s.f + t.f) % modulus, (s.g + t.g) % modulus, (s.h + t.h) % modulus⟩

def compress (s : Chain) (block : List Nat) : Chain := s.add (rounds roundConstants block s)

def Chain.bytes (s : Chain) : List UInt8 :=
  bytesOf 4 s.a ++ bytesOf 4 s.b ++ bytesOf 4 s.c ++ bytesOf 4 s.d ++
    (bytesOf 4 s.e ++ bytesOf 4 s.f ++ bytesOf 4 s.g ++ bytesOf 4 s.h)

/-! ## Digests -/

/-- A one bit, zeros and the length in bits fill the last block. -/
def padded (message : List UInt8) : List UInt8 :=
  message ++ 128 :: (List.replicate ((119 - message.length % 64) % 64) 0 ++
    bytesOf 8 (8 * message.length))

theorem padded_blocks (message : List UInt8) : 64 ∣ (padded message).length := by
  simp only [padded, List.length_append, List.length_cons, List.length_replicate, length_bytesOf]
  omega

def blocks : Nat → List Nat → List (List Nat)
  | 0, _ => []
  | n + 1, ws => ws.take 16 :: blocks n (ws.drop 16)

def sha256 (message : List UInt8) : List UInt8 :=
  let bytes := padded message
  ((blocks (bytes.length / 64) (words bytes)).foldl compress initial).bytes

@[simp] theorem length_sha256 (message : List UInt8) : (sha256 message).length = 32 := by
  simp only [sha256, Chain.bytes, List.length_append, length_bytesOf]

/-- A key longer than a block is hashed first; a shorter one is filled with zeros. -/
def blockKey (key : List UInt8) : List UInt8 :=
  let short := if 64 < key.length then sha256 key else key
  short ++ List.replicate (64 - short.length) 0

theorem length_blockKey (key : List UInt8) : (blockKey key).length = 64 := by
  rw [blockKey]
  split
  · rw [List.length_append, List.length_replicate, length_sha256]
  · rw [List.length_append, List.length_replicate]
    omega

def innerDigest (key message : List UInt8) : List UInt8 :=
  sha256 ((blockKey key).map (· ^^^ 0x36) ++ message)

def outerDigest (key inner : List UInt8) : List UInt8 :=
  sha256 ((blockKey key).map (· ^^^ 0x5c) ++ inner)

def hmac (key message : List UInt8) : List UInt8 := outerDigest key (innerDigest key message)

theorem length_hmac (key message : List UInt8) : (hmac key message).length = 32 :=
  length_sha256 _

theorem hmac_of_inner {key message inner : List UInt8} (h : innerDigest key message = inner) :
    hmac key message = outerDigest key inner := by
  rw [hmac, h]

/-- The key is `Jefe`, the message `what do ya want for nothing?`. -/
example :
    hmac [0x4a, 0x65, 0x66, 0x65]
      [0x77, 0x68, 0x61, 0x74, 0x20, 0x64, 0x6f, 0x20, 0x79, 0x61, 0x20, 0x77, 0x61, 0x6e, 0x74, 0x20,
        0x66, 0x6f, 0x72, 0x20, 0x6e, 0x6f, 0x74, 0x68, 0x69, 0x6e, 0x67, 0x3f] =
      [0x5b, 0xdc, 0xc1, 0x46, 0xbf, 0x60, 0x75, 0x4e, 0x6a, 0x04, 0x24, 0x26, 0x08, 0x95, 0x75, 0xc7,
        0x5a, 0x00, 0x3f, 0x08, 0x9d, 0x27, 0x39, 0x83, 0x9d, 0xec, 0x58, 0xb9, 0x64, 0xec, 0x38,
        0x43] := by
  have hinner : innerDigest [0x4a, 0x65, 0x66, 0x65]
      [0x77, 0x68, 0x61, 0x74, 0x20, 0x64, 0x6f, 0x20, 0x79, 0x61, 0x20, 0x77, 0x61, 0x6e, 0x74, 0x20,
        0x66, 0x6f, 0x72, 0x20, 0x6e, 0x6f, 0x74, 0x68, 0x69, 0x6e, 0x67, 0x3f] =
      [0xa2, 0xe4, 0x85, 0x86, 0x3d, 0x27, 0xf9, 0xd8, 0x64, 0xac, 0x8d, 0x80, 0x24, 0x32, 0xa1, 0xed,
        0x47, 0x7d, 0x8c, 0x4c, 0x6f, 0x34, 0x9d, 0x16, 0xd4, 0xe7, 0xe9, 0x17, 0xc6, 0x29, 0xca,
        0xd7] := by
    decide +kernel
  rw [hmac_of_inner hinner]
  decide +kernel

end Watukuy.Library.Sha256
