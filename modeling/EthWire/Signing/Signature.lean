/-
# Recoverable signatures

A signature is two scalars and the parity of the nonce point. Legacy transactions fold the parity into
a value `v`: 27 or 28, or, together with a chain id `c`, `2 c + 35` or one more.

Two signatures of opposite parity, with `s` and its negation, point to the same key. Only the one with
`s` at most half the group order passes `Signature.check`, so what is checked cannot be changed into
another accepted signature; `normalize` passes to that one.

Key definitions: `Signature.v`, `Signature.eip155V`, `Signature.parseV`, `Signature.check`,
`Signature.isLowS`, `Signature.normalize`, `Signature.toBytes`, `Signature.ofBytes`,
`Signature.toCompact`, `Signature.ofCompact`, `Signature.text`, `Signature.parse`,
`Signature.toItems`, `Signature.ofItems`, `Signature.recover`, `verify`.
-/
import EthWire.Address.Basic
import EthWire.Curve.Scheme

namespace EthWire

/-- Chain ids of legacy transactions lie below this, so that `2 c + 36` is below 2^64. -/
def maxChainId : Nat := 9223372036854775790

namespace Signature

/-- The value of `v` without a chain id. -/
def v (signature : Signature) : UInt8 :=
  if signature.yParity then 28 else 27

/-- The value of `v` that commits to a chain id. -/
def eip155V (signature : Signature) (chainId : Word) : Except Error Word :=
  if maxChainId ≤ chainId.toNat then .error .networkId
  else .ok (chainId * 2 + (if signature.yParity then 36 else 35))

/-- The parity that a value of `v` gives, and the chain id that it commits to, if any. The values 0
and 1 are read like 27 and 28. -/
def parseV (v : Word) : Except Error (Bool × Option Word) :=
  if v = 0 ∨ v = 27 then .ok (false, none)
  else if v = 1 ∨ v = 28 then .ok (true, none)
  else if v < 35 then .error .signatureV
  else
    let offset := v - 35
    .ok (offset % 2 != 0, some (offset / 2))

/-! ### The accepted range -/

/-- Whether `s` is at most half the group order. -/
def isLowS (signature : Signature) : Bool :=
  signature.s ≤ halfOrder

/-- The signature of the same key with the smaller `s`. An `s` outside the group order has no
negation and is left alone. -/
def normalize (signature : Signature) : Signature :=
  if signature.isLowS ∨ groupOrder ≤ signature.s then signature
  else ⟨!signature.yParity, signature.r, groupOrder - signature.s⟩

/-- Refuses scalars that are zero or too large. -/
def check (signature : Signature) : Except Error Unit :=
  if groupOrder ≤ signature.r ∨ signature.r = 0 then .error .signatureR
  else if !signature.isLowS ∨ signature.s = 0 then .error .signatureS
  else .ok ()

/-- Whether a signature passes the check. -/
def isValid (signature : Signature) : Bool :=
  signature.check.isOk

/-! ### Octets -/

/-- The 65 octets: `r`, `s`, and `v` as 27 or 28. -/
def toBytes (signature : Signature) : Bytes :=
  signature.r.toBytes ++ signature.s.toBytes ++ [signature.v]

/-- The signature of 65 octets, where `v` may be anything that has a parity. -/
def ofBytes (bytes : Bytes) : Except Error Signature := do
  if bytes.length ≠ 65 then throw (.signatureLength bytes.length)
  let (yParity, _) ← parseV (Word.ofBytes (bytes.drop 64))
  return ⟨yParity, Word.ofBytes (bytes.take 32), Word.ofBytes ((bytes.drop 32).take 32)⟩

/-- The highest bit of a word. -/
def topBit : Word := BitVec.twoPow 256 255

/-- The 64 octets with the parity in the top bit of `s`. -/
def toCompact (signature : Signature) : Bytes :=
  signature.r.toBytes ++
    (if signature.yParity then signature.s ||| topBit else signature.s).toBytes

/-- The signature of 64 octets. -/
def ofCompact (bytes : Bytes) : Except Error Signature :=
  if bytes.length ≠ 64 then .error (.signatureLength bytes.length)
  else
    let s := Word.ofBytes (bytes.drop 32)
    .ok ⟨s.msb, Word.ofBytes (bytes.take 32), s &&& ~~~topBit⟩

/-! ### Text -/

/-- The text of a signature: `0x` and the digits of the 65 octets. -/
def text (signature : Signature) : String :=
  Hex.data signature.toBytes

/-- Reads hex text of 65 or 64 octets. -/
def parse (text : String) : Except Error Signature := do
  let bytes ← Hex.decode (String.ofList (Text.after0x text.toList))
  if bytes.length = 64 then ofCompact bytes else ofBytes bytes

/-! ### As RLP -/

/-- The parity and the two scalars. -/
def toItems (signature : Signature) : List Rlp.Item :=
  [.ofBool signature.yParity, .ofWord signature.r, .ofWord signature.s]

/-- The signature in what follows the other fields of a list: nothing, or the parity and the two
scalars. -/
def ofItems : List Rlp.Item → Except Error (Option Signature)
  | [] => .ok none
  | [yParity, r, s] => do
    let yParity ← yParity.toBool .signatureV
    let r ← r.toWord
    let s ← s.toWord
    return some ⟨yParity, r, s⟩
  | _ => .error .rlpShape

/-! ### Recovery -/

/-- The address whose key signed the digest. -/
def recoverWord (scheme : Scheme) (signature : Signature) (digest : Word) :
    Except Error Address := do
  if groupOrder ≤ signature.r ∨ groupOrder ≤ signature.s then throw .signatureParse
  match scheme.recover digest signature with
  | some key => Address.ofPublicKey key
  | none => throw .signatureRecover

/-- The address whose key signed the digest, which must be 32 octets. -/
def recover (scheme : Scheme) (signature : Signature) (digest : Bytes) : Except Error Address :=
  if digest.length = 32 then signature.recoverWord scheme (Word.ofBytes digest)
  else .error (.digestLength digest.length)

end Signature

/-- Whether the signature passes the check and the address signed the digest with it. -/
def verify (scheme : Scheme) (address : Address) (digest : Bytes) (signature : Signature) : Bool :=
  match signature.check, signature.recover scheme digest with
  | .ok _, .ok signer => signer = address
  | _, _ => false

end EthWire
