/-
# Signatures of accounts that do not run their code yet

The signature of an account is wrapped together with the authorization under which the account runs the
code that verifies the signature, and with a call to be made before. The parts follow the signature,
then comes their length, then the mark.

No call is written as a call to the zero address with no data, and read back as none.

Key definitions: `PredelegatedSignature`, `PredelegatedSignature.isWrapped`, `PredelegatedSignature.wrap`,
`PredelegatedSignature.unwrap`.
-/
import EthWire.Abi.Layout
import EthWire.Abi.Reading
import EthWire.Transaction.Authorization
import EthWire.WrappedSignature.Suffix

namespace EthWire

/-- A signature, the authorization that goes with it, and the call to be made before. -/
structure PredelegatedSignature where
  authorization : SignedAuthorization
  «to» : Option Address
  data : Option Bytes
  signature : Bytes
  deriving DecidableEq, Repr

namespace PredelegatedSignature

/-- The octets at the end. -/
def mark : Bytes := Wrapped.suffix 0x80 0x10

/-- The types of the parts. -/
def kinds : List Abi.Kind :=
  [.tuple [.uint 256, .address, .uint 256, .uint 8, .uint 256, .uint 256], .address, .bytes]

/-- The octets behind the parts: their length and the mark. -/
def trailerLength : Nat := 64

/-- Whether the mark is there and a length in front of it. -/
def isWrapped (bytes : Bytes) : Bool :=
  trailerLength ≤ bytes.length && Wrapped.endsWith mark bytes

/-- The authorization as a tuple. -/
def authorizationValue (signed : SignedAuthorization) : Abi.Value :=
  .tuple
    [.uint signed.authorization.chainId,
      .address signed.authorization.address,
      .uint (BitVec.ofNat 256 signed.authorization.nonce.toNat),
      .uint (if signed.signature.yParity then 1 else 0),
      .uint signed.signature.r,
      .uint signed.signature.s]

/-- The octets of a wrapped signature. -/
def wrap (wrapped : PredelegatedSignature) : Except Error Bytes := do
  let parts ← Abi.encode kinds
    [authorizationValue wrapped.authorization, .address (wrapped.to.getD .zero),
      .bytes (wrapped.data.getD [])]
  return wrapped.signature ++ parts ++ Bytes.toBigEndian 32 parts.length ++ mark

/-- A parity that is written as a word. -/
def parityOfWord (word : Word) : Except Error Bool :=
  if word = 0 then .ok false else if word = 1 then .ok true else .error .signatureV

/-- The authorization in a tuple. -/
def authorizationOfValue : Abi.Value → Except Error SignedAuthorization
  | .tuple [.uint chainId, .address address, .uint nonce, .uint yParity, .uint r, .uint s] =>
    if nonce.toNat < 2 ^ 64 then do
      let yParity ← parityOfWord yParity
      return ⟨⟨chainId, address, UInt64.ofNat nonce.toNat⟩, ⟨yParity, r, s⟩⟩
    else .error (.wrappedSignature "erc8010 nonce")
  | _ => .error (.wrappedSignature "erc8010 authorization")

/-- Takes a wrapped signature apart. -/
def unwrap (bytes : Bytes) : Except Error PredelegatedSignature := do
  if !isWrapped bytes then throw (.wrappedSignature "missing erc8010 suffix")
  let content := Wrapped.withoutLast trailerLength bytes
  let length := Bytes.ofBigEndian ((bytes.drop content.length).take 32)
  if length > content.length then throw (.wrappedSignature "erc8010 suffix length")
  let parts := content.drop (content.length - length)
  match ← Abi.decode kinds parts with
  | [authorization, .address recipient, .bytes data] =>
    return {
      authorization := ← authorizationOfValue authorization
      «to» := if recipient = .zero then none else some recipient
      data := if data.isEmpty then none else some data
      signature := content.take (content.length - length) }
  | _ => throw (.wrappedSignature "erc8010 body")

end PredelegatedSignature
end EthWire
