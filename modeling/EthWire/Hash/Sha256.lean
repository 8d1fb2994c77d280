/-
# SHA-256 and HMAC

SHA-256 chains eight words of 32 bits through blocks of 64 octets. A block is expanded to 64 words by
a recurrence on the sixteen words before, and every one of them drives one round. HMAC-SHA-256, which
deterministic signing draws its nonces from, hashes twice under a key padded to one block.

Key definitions: `Sha256.schedule`, `Sha256.compress`, `sha256`, `hmacSha256`.
-/
import EthWire.Bytes.Basic

namespace EthWire
namespace Sha256

/-- The chaining state. -/
structure State where
  a : UInt32
  b : UInt32
  c : UInt32
  d : UInt32
  e : UInt32
  f : UInt32
  g : UInt32
  h : UInt32
  deriving DecidableEq

/-- The word rotated towards its low bits, for amounts from 1 to 31. -/
@[inline] def rotate (word : UInt32) (amount : UInt32) : UInt32 :=
  (word >>> amount) ||| (word <<< (32 - amount))

def lowSigma0 (x : UInt32) : UInt32 := rotate x 7 ^^^ rotate x 18 ^^^ (x >>> 3)

def lowSigma1 (x : UInt32) : UInt32 := rotate x 17 ^^^ rotate x 19 ^^^ (x >>> 10)

def highSigma0 (x : UInt32) : UInt32 := rotate x 2 ^^^ rotate x 13 ^^^ rotate x 22

def highSigma1 (x : UInt32) : UInt32 := rotate x 6 ^^^ rotate x 11 ^^^ rotate x 25

/-- The second word where the first is set, and the third elsewhere. -/
def choose (x y z : UInt32) : UInt32 := (x &&& y) ^^^ (~~~x &&& z)

/-- The majority of three words, bit by bit. -/
def majority (x y z : UInt32) : UInt32 := (x &&& y) ^^^ (x &&& z) ^^^ (y &&& z)

/-- The constants of the 64 rounds. -/
def roundConstants : List UInt32 :=
  [0x428a2f98, 0x71374491, 0xb5c0fbcf, 0xe9b5dba5, 0x3956c25b, 0x59f111f1, 0x923f82a4, 0xab1c5ed5,
    0xd807aa98, 0x12835b01, 0x243185be, 0x550c7dc3, 0x72be5d74, 0x80deb1fe, 0x9bdc06a7, 0xc19bf174,
    0xe49b69c1, 0xefbe4786, 0x0fc19dc6, 0x240ca1cc, 0x2de92c6f, 0x4a7484aa, 0x5cb0a9dc, 0x76f988da,
    0x983e5152, 0xa831c66d, 0xb00327c8, 0xbf597fc7, 0xc6e00bf3, 0xd5a79147, 0x06ca6351, 0x14292967,
    0x27b70a85, 0x2e1b2138, 0x4d2c6dfc, 0x53380d13, 0x650a7354, 0x766a0abb, 0x81c2c92e, 0x92722c85,
    0xa2bfe8a1, 0xa81a664b, 0xc24b8b70, 0xc76c51a3, 0xd192e819, 0xd6990624, 0xf40e3585, 0x106aa070,
    0x19a4c116, 0x1e376c08, 0x2748774c, 0x34b0bcb5, 0x391c0cb3, 0x4ed8aa4a, 0x5b9cca4f, 0x682e6ff3,
    0x748f82ee, 0x78a5636f, 0x84c87814, 0x8cc70208, 0x90befffa, 0xa4506ceb, 0xbef9a3f7, 0xc67178f2]

/-- The state before the first block. -/
def start : State :=
  ⟨0x6a09e667, 0xbb67ae85, 0x3c6ef372, 0xa54ff53a, 0x510e527f, 0x9b05688c, 0x1f83d9ab, 0x5be0cd19⟩

/-- The word of four octets, the most significant first. -/
def word (octets : Bytes) : UInt32 :=
  octets.foldl (fun w b => (w <<< 8) ||| b.toUInt32) 0

/-- The next `n` words after the sixteen given ones, which move on by one word with every step. -/
def extend : Nat → List UInt32 → List UInt32
  | n + 1, w0 :: w1 :: w2 :: w3 :: w4 :: w5 :: w6 :: w7 :: w8 :: w9 :: w10 :: w11 :: w12 :: w13 ::
      w14 :: [w15] =>
    let w16 := w0 + lowSigma0 w1 + w9 + lowSigma1 w14
    w16 :: extend n [w1, w2, w3, w4, w5, w6, w7, w8, w9, w10, w11, w12, w13, w14, w15, w16]
  | _, _ => []

/-- The 64 words that drive the rounds of a block. -/
def schedule (block : Bytes) : List UInt32 :=
  let input := (Bytes.blocks 3 block).map word
  input ++ extend 48 input

/-- One round. -/
def round (st : State) (constant word : UInt32) : State :=
  let t1 := st.h + highSigma1 st.e + choose st.e st.f st.g + constant + word
  let t2 := highSigma0 st.a + majority st.a st.b st.c
  ⟨t1 + t2, st.a, st.b, st.c, st.d + t1, st.e, st.f, st.g⟩

/-- All rounds of a block. -/
def rounds : State → List UInt32 → List UInt32 → State
  | st, k :: ks, w :: ws => rounds (round st k w) ks ws
  | st, _, _ => st

/-- Chains one block into the state. -/
def compress (st : State) (block : Bytes) : State :=
  let out := rounds st roundConstants (schedule block)
  ⟨st.a + out.a, st.b + out.b, st.c + out.c, st.d + out.d, st.e + out.e, st.f + out.f,
    st.g + out.g, st.h + out.h⟩

/-- The padding behind a message: a one, zeros up to 56 modulo 64, and the length in bits. -/
def padding (length : Nat) : Bytes :=
  0x80 :: (List.replicate ((119 - length % 64) % 64) 0 ++ Bytes.toBigEndian 8 (length * 8))

/-- The four octets of a word, the most significant first. -/
def wordOctets (x : UInt32) : Bytes :=
  [(x >>> 24).toUInt8, (x >>> 16).toUInt8, (x >>> 8).toUInt8, x.toUInt8]

end Sha256

open Sha256 in
/-- The SHA-256 digest of an octet string. -/
def sha256 (message : Bytes) : Bytes :=
  let out := (Bytes.blocks 63 (message ++ padding message.length)).foldl compress start
  wordOctets out.a ++ wordOctets out.b ++ wordOctets out.c ++ wordOctets out.d ++
    wordOctets out.e ++ wordOctets out.f ++ wordOctets out.g ++ wordOctets out.h

@[simp] theorem length_sha256 (message : Bytes) : (sha256 message).length = 32 := rfl

/-- The keyed digest HMAC-SHA-256. -/
def hmacSha256 (key message : Bytes) : Bytes :=
  let short := if key.length > 64 then sha256 key else key
  let padded := short ++ List.replicate (64 - short.length) 0
  sha256 (padded.map (· ^^^ 0x5c) ++ sha256 (padded.map (· ^^^ 0x36) ++ message))

end EthWire
