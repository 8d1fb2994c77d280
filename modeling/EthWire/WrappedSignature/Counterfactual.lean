/-
# Signatures of contracts that do not exist yet

The signature of a contract that is still to be created is wrapped together with the call that creates
it: the factory to be called and the call's data. Octets without the mark at their end are a signature
that is not wrapped.

Key definitions: `CounterfactualSignature`, `CounterfactualSignature.isWrapped`,
`CounterfactualSignature.wrap`, `CounterfactualSignature.unwrap`.
-/
import EthWire.Abi.Layout
import EthWire.Abi.Reading
import EthWire.WrappedSignature.Suffix

namespace EthWire

/-- A signature and the call that creates its contract, if it has to be created. -/
structure CounterfactualSignature where
  creation : Option (Address × Bytes)
  signature : Bytes
  deriving DecidableEq, Repr

namespace CounterfactualSignature

/-- The octets at the end. -/
def mark : Bytes := Wrapped.suffix 0x64 0x92

/-- The types of the parts. -/
def kinds : List Abi.Kind := [.address, .bytes, .bytes]

/-- Whether the mark is there. -/
def isWrapped (bytes : Bytes) : Bool :=
  Wrapped.endsWith mark bytes

/-- The octets of a wrapped signature. -/
def wrap (factory : Address) (data signature : Bytes) : Except Error Bytes := do
  let body ← Abi.encode kinds [.address factory, .bytes data, .bytes signature]
  return body ++ mark

/-- Takes a wrapped signature apart; one that is not wrapped stays as it is. -/
def unwrap (bytes : Bytes) : Except Error CounterfactualSignature := do
  if !isWrapped bytes then return ⟨none, bytes⟩
  match ← Abi.decode kinds (Wrapped.withoutLast mark.length bytes) with
  | [.address factory, .bytes data, .bytes signature] => return ⟨some (factory, data), signature⟩
  | _ => throw (.wrappedSignature "erc6492 body")

end CounterfactualSignature
end EthWire
