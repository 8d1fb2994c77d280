/-
# Reading RLP

The reader accepts canonical encodings only. A length in octets of its own must not start with a zero
octet, must be above 55, and a string of one octet below 0x80 must not have a header. The payload must
lie within the input, and lists may nest 256 levels deep below the outermost item.

Errors come in the order in which the reader looks: the header octet, the length octets, the length
they give, and last whether the payload is there.

Key definitions: `Rlp.Header`, `Rlp.readHeader`, `Rlp.readItem`, `Rlp.decodeFront`, `Rlp.decode`,
`Rlp.decodeAll`.
-/
import EthWire.Rlp.Item

namespace EthWire
namespace Rlp

/-- The place of a payload: how many octets come before it, and how many it has. -/
structure Header where
  isList : Bool
  offset : Nat
  length : Nat
  deriving DecidableEq, Repr

/-- The payload length that is written in the first `count` octets. -/
def readLength (count : Nat) (input : Bytes) : Except Error Nat :=
  if Bytes.hasAtLeast count input then
    let octets := input.take count
    let length := Bytes.ofBigEndian octets
    if octets.head? = some 0 ∨ length ≤ 55 then .error .rlpNotCanonical else .ok length
  else .error (.rlpTruncated count input.length)

/-- The header that the first octet starts; `rest` is what follows that octet. -/
def headerAt (first : UInt8) (rest : Bytes) : Except Error Header :=
  if first < 0x80 then .ok ⟨false, 0, 1⟩
  else if first < 0xb8 then
    let length := (first - 0x80).toNat
    if length = 1 ∧ rest.head?.any (· < 0x80) then .error .rlpNotCanonical
    else .ok ⟨false, 1, length⟩
  else if first < 0xc0 then
    let count := (first - 0xb7).toNat
    (readLength count rest).map fun length => ⟨false, 1 + count, length⟩
  else if first < 0xf8 then .ok ⟨true, 1, (first - 0xc0).toNat⟩
  else
    let count := (first - 0xf7).toNat
    (readLength count rest).map fun length => ⟨true, 1 + count, length⟩

/-- The header of the first item, whose payload must be within the input. A need beyond 64 bits is
reported as the largest number of 64 bits. -/
def readHeader : Bytes → Except Error Header
  | [] => .error (.rlpTruncated 1 0)
  | first :: rest => do
    let header ← headerAt first rest
    let needed := header.offset + header.length
    if Bytes.hasAtLeast needed (first :: rest) then return header
    else throw (.rlpTruncated (min needed (2 ^ 64 - 1)) (rest.length + 1))

/-- The items that a reader finds one after another until the input is used up. -/
def readRun (read : Bytes → Except Error (Item × Nat)) : Bytes → Except Error (List Item)
  | [] => .ok []
  | b :: rest => do
    match ← read (b :: rest) with
    | (_, 0) => throw .rlpShape
    | (item, used + 1) => return item :: (← readRun read (rest.drop used))
termination_by input => input.length
decreasing_by simp only [List.length_drop, List.length_cons]; omega

/-- The first item of the input and the number of octets it takes, for lists that nest less than
`levels` deep. -/
def readItem : (levels : Nat) → Bytes → Except Error (Item × Nat)
  | 0, _ => .error .rlpShape
  | levels + 1, input => do
    let header ← readHeader input
    let payload := (input.drop header.offset).take header.length
    let used := header.offset + header.length
    if header.isList then return (.list (← readRun (readItem levels) payload), used)
    else return (.bytes payload, used)

/-- The levels that a reader follows: the outermost item and 256 below it. -/
def maxLevels : Nat := 257

/-- The first item of the input and the octets behind it. -/
def decodeFront (input : Bytes) : Except Error (Item × Bytes) := do
  let (item, used) ← readItem maxLevels input
  return (item, input.drop used)

/-- The one item that makes up the input. -/
def decode (input : Bytes) : Except Error Item := do
  let (item, rest) ← decodeFront input
  if rest.isEmpty then return item else throw (.rlpTrailing rest.length)

/-- The items that make up the input, of which there must be at least one. -/
def decodeAll (input : Bytes) : Except Error (List Item) :=
  if input.isEmpty then .error (.rlpTruncated 1 0) else readRun (readItem maxLevels) input

end Rlp
end EthWire
