/-
# Recognising wrapped signatures

A wrapped signature ends in 32 octets that repeat a number of two, which says how it is wrapped.

Key definitions: `Wrapped.suffix`, `Wrapped.endsWith`.
-/
import EthWire.Bytes.Basic

namespace EthWire
namespace Wrapped

/-- Two octets sixteen times over. -/
def suffix (high low : UInt8) : Bytes :=
  (List.replicate 16 [high, low]).flatten

/-- Whether the octets end in the given ones. -/
def endsWith (mark bytes : Bytes) : Bool :=
  mark.isSuffixOf bytes

/-- The octets without as many at the end. -/
def withoutLast (count : Nat) (bytes : Bytes) : Bytes :=
  bytes.take (bytes.length - count)

end Wrapped
end EthWire
