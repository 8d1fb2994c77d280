/-
# Recoverable signature schemes

What this library needs of a signature scheme is three functions on words and octets: the public key
of a secret one, a signature over a digest, and the key that a signature over a digest points back
to. Signing, sender recovery and everything built on them take the scheme as an argument, so their
laws hold of every scheme that satisfies the laws of `Lawful`, and the curve that transactions use is
one instance (`EthWire.Curve.Ecdsa`).

Key definitions: `Signature`, `Scheme`, `groupOrder`, `halfOrder`, `Scheme.Lawful`.
-/
import EthWire.Word

namespace EthWire

/-- The order of the group of secp256k1. -/
def groupOrder : Word :=
  0xfffffffffffffffffffffffffffffffebaaedce6af48a03bbfd25e8cd0364141

/-- Half the group order, rounded down. -/
def halfOrder : Word :=
  0x7fffffffffffffffffffffffffffffff5d576e7357a4501ddfe92f46681b20a0

/-- The parity of a curve point and the two scalars of a signature. -/
structure Signature where
  yParity : Bool
  r : Word
  s : Word
  deriving DecidableEq, Repr

/-- A scheme of signatures from which the signer's key can be recovered. -/
structure Scheme where
  /-- The 64 coordinate octets of the public key of a secret scalar. -/
  publicKey : Word → Bytes
  /-- The signature over a digest by a secret scalar. -/
  sign : (digest secret : Word) → Signature
  /-- The public key that gives this signature over the digest. -/
  recover : (digest : Word) → Signature → Option Bytes

/-- The laws that signing and recovery rest on. -/
structure Scheme.Lawful (scheme : Scheme) : Prop where
  /-- Both scalars of a signature lie strictly between zero and the group order. -/
  inRange : ∀ digest secret : Word, 0 < secret → secret < groupOrder →
    0 < (scheme.sign digest secret).r ∧ (scheme.sign digest secret).r < groupOrder ∧
      0 < (scheme.sign digest secret).s ∧ (scheme.sign digest secret).s < groupOrder
  /-- Recovery gives back the signer's public key. -/
  recover_sign : ∀ digest secret : Word, 0 < secret → secret < groupOrder →
    scheme.recover digest (scheme.sign digest secret) = some (scheme.publicKey secret)
  /-- So it does from the negated signature. -/
  recover_negated : ∀ digest secret : Word, 0 < secret → secret < groupOrder →
    scheme.recover digest
        { yParity := !(scheme.sign digest secret).yParity
          r := (scheme.sign digest secret).r
          s := groupOrder - (scheme.sign digest secret).s }
      = some (scheme.publicKey secret)

end EthWire
