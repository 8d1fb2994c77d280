/-
# Deterministic recoverable ECDSA

The scheme that signs transactions: ECDSA on secp256k1, with the nonce drawn from the key and the
digest by a generator on HMAC-SHA-256, so that signing needs no randomness. A signature is given in
the form with the smaller of `s` and its negation; negating `s` negates the nonce point, so the
parity is flipped along with it.

Key definitions: `Ecdsa.Drbg`, `Ecdsa.signWith?`, `Ecdsa.sign`, `Ecdsa.recover`, `secp256k1`.
-/
import EthWire.Curve.Point
import EthWire.Hash.Sha256

namespace EthWire
namespace Ecdsa

open Curve

/-- The order of the group as a number. -/
def order : Nat := groupOrder.toNat

/-! ### Nonces -/

/-- The state of the nonce generator. -/
structure Drbg where
  key : Bytes
  value : Bytes

/-- Mixes a marker octet and the seed into the state. -/
def Drbg.mix (st : Drbg) (marker : UInt8) (seed : Bytes) : Drbg :=
  let key := hmacSha256 st.key (st.value ++ marker :: seed)
  ⟨key, hmacSha256 key st.value⟩

/-- The generator seeded with the secret scalar and the reduced digest. -/
def Drbg.start (secret digest : Word) : Drbg :=
  let seed := secret.toBytes ++ Bytes.toBigEndian 32 (digest.toNat % order)
  ((⟨List.replicate 32 0, List.replicate 32 1⟩ : Drbg).mix 0 seed).mix 1 seed

/-- The next candidate. -/
def Drbg.next (st : Drbg) : Nat × Drbg :=
  let value := hmacSha256 st.key st.value
  (Bytes.ofBigEndian value, ⟨st.key, value⟩)

/-! ### Signing -/

/-- The signature over a digest under a given nonce, with the smaller `s`; a nonce out of range, or
one that makes a scalar zero, gives none. -/
def signWith? (digest secret nonce : Nat) : Option Signature :=
  if nonce = 0 ∨ order ≤ nonce then none
  else do
    let (x, y) ← (Point.generator.multiply nonce).affine?
    let r := x % order
    let s := inverse order nonce * (digest + r * secret) % order
    if r = 0 ∨ s = 0 then none
    else if s ≤ order / 2 then some ⟨y % 2 == 1, BitVec.ofNat 256 r, BitVec.ofNat 256 s⟩
    else some ⟨y % 2 == 0, BitVec.ofNat 256 r, BitVec.ofNat 256 (order - s)⟩

/-- The signature under the first usable nonce among the next ones; after a candidate that is no
use the generator is mixed again. -/
def signFrom (digest secret : Nat) : Nat → Drbg → Option Signature
  | 0, _ => none
  | tries + 1, st =>
    let (nonce, st) := st.next
    match signWith? digest secret nonce with
    | some signature => some signature
    | none => signFrom digest secret tries (st.mix 0 [])

/-- The signature over a digest. A candidate nonce is no use with probability 2^-127, and after 64 of
them the zero signature, which nothing accepts, stands for the failure. -/
def sign (digest secret : Word) : Signature :=
  (signFrom (digest.toNat % order) secret.toNat 64 (Drbg.start secret digest)).getD ⟨false, 0, 0⟩

/-! ### Recovery -/

/-- The public key from which a signature over a digest comes, if there is one. -/
def recover (digest : Word) (signature : Signature) : Option Bytes :=
  let r := signature.r.toNat
  let s := signature.s.toNat
  if r = 0 ∨ s = 0 ∨ order ≤ r ∨ order ≤ s then none
  else do
    let nonce ← Point.lift? r signature.yParity
    let inv := inverse order r
    let back := (order - digest.toNat % order) * inv % order
    let forth := s * inv % order
    ((Point.generator.multiply back).addMultiple nonce forth).coordinates?

/-- The public key of a secret scalar, and no octets where there is none. -/
def publicKey (secret : Word) : Bytes :=
  (Point.generator.multiply secret.toNat).coordinates?.getD []

end Ecdsa

/-- ECDSA on secp256k1 with deterministic nonces. -/
def secp256k1 : Scheme where
  publicKey := Ecdsa.publicKey
  sign := Ecdsa.sign
  recover := Ecdsa.recover

end EthWire
