/-
# Octet strings of one size

Commitments, proofs and blobs each have one size, which the type states.

Key definitions: `FixedBytes`, `FixedBytes.ofBytes?`.
-/
import EthWire.Bytes.Basic

namespace EthWire

/-- A string of exactly so many octets. -/
structure FixedBytes (size : Nat) where
  bytes : Bytes
  length_eq : bytes.length = size
  deriving DecidableEq, Repr

namespace FixedBytes

variable {size : Nat}

/-- The octets, if there are as many as there should be. -/
def ofBytes? (bytes : Bytes) : Option (FixedBytes size) :=
  if h : bytes.length = size then some ⟨bytes, h⟩ else none

@[simp] theorem ofBytes?_bytes (content : FixedBytes size) :
    ofBytes? content.bytes = some content := by
  simp [ofBytes?, content.length_eq]

@[ext] theorem ext {a b : FixedBytes size} (h : a.bytes = b.bytes) : a = b := by
  cases a; cases b; simpa using h

end FixedBytes
end EthWire
