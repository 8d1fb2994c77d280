/-
# Reading ABI data

The reader checks every value against its type: integers must fit their width, flags must be zero or
one, the upper part of an address must be zero, and strings must be UTF-8. It does not ask that data
be laid out as this library would: offsets may point anywhere inside their sequence, padding may hold
anything, and octets may follow.

The head of a sequence must lie within its data, and it is counted first, that of an empty array of any
length included. An array whose length promises more elements than there is data is refused before its
elements are read, where an element counts for at least one octet.

Key definitions: `Abi.readWord`, `Abi.readCount`, `Abi.readBytes`, `Abi.Slot`, `Abi.readSlots`,
`Abi.decodeValue`, `Abi.decode`.
-/
import EthWire.Abi.Value

namespace EthWire
namespace Abi

/-- The word at a position. -/
def readWord (data : Bytes) (pos : Nat) : Except Error Word :=
  if Bytes.hasAtLeast (pos + 32) data then .ok (Word.ofBytes ((data.drop pos).take 32))
  else .error (.abiDataSize (min (pos + 32) maxCount) data.length)

/-- The count at a position; one beyond 64 bits points outside any data. -/
def readCount (data : Bytes) (pos : Nat) : Except Error Nat := do
  let word ← readWord data pos
  if word.toNat ≤ maxCount then return word.toNat else throw (.abiOffset maxCount data.length)

/-- The octets behind their length. -/
def readBytes (data : Bytes) : Except Error Bytes := do
  let length ← readCount data 0
  let content := data.drop 32
  if Bytes.hasAtLeast length content then return content.take length
  else throw (.abiDataSize (min (length + 32) maxCount) data.length)

/-- How one value of a sequence is read. -/
structure Slot where
  isDynamic : Bool
  headSize : Nat
  read : Bytes → Except Error Value

/-- The slot of a type with its reader. -/
def Slot.ofKind (kind : Kind) (read : Bytes → Except Error Value) : Slot :=
  ⟨kind.isDynamic, kind.headSize, read⟩

/-- Refuses a sequence whose head cannot be counted or does not lie within its data. -/
def checkHead (counted : Bool) (headSize : Nat) (region : Bytes) : Except Error Unit :=
  if !counted then .error .abiHeadSum
  else if Bytes.hasAtLeast headSize region then .ok ()
  else .error (.abiDataSize (min headSize maxCount) region.length)

/-- The value of a slot at a position of the head. -/
def readSlot (slot : Slot) (region : Bytes) (pos : Nat) : Except Error Value := do
  if slot.isDynamic then
    let offset ← readCount region pos
    if Bytes.hasAtLeast (offset + 1) region then slot.read (region.drop offset)
    else throw (.abiOffset offset region.length)
  else slot.read (region.drop pos)

/-- The values of the slots from a position of the head on. -/
def readSlots (region : Bytes) : (pos : Nat) → List Slot → Except Error (List Value)
  | _, [] => .ok []
  | pos, slot :: slots => do
    let value ← readSlot slot region pos
    return value :: (← readSlots region (pos + slot.headSize) slots)

/-- An integer in the range of its type. -/
def checkRange (kind : Kind) (inRange : Bool) (value : Value) : Except Error Value :=
  if inRange then .ok value else .error (.abiRange kind.text)

mutual

/-- The value at the start of the data. -/
def decodeValue : Kind → Bytes → Except Error Value
  | .uint bits, data => do
    let word ← readWord data 0
    checkRange (.uint bits) (fitsUint word bits) (.uint word)
  | .int bits, data => do
    let word ← readWord data 0
    checkRange (.int bits) (fitsInt word bits) (.int word)
  | .address, data => do
    match Address.ofWord? (← readWord data 0) with
    | some a => return .address a
    | none => throw (.abiRange Kind.address.text)
  | .bool, data => do
    let word ← readWord data 0
    checkRange .bool (word.toNat ≤ 1) (.bool (word == 1))
  | .fixedBytes size, data => do
    if size < 1 ∨ 32 < size then throw (.abiType (Kind.fixedBytes size).text)
    return .fixedBytes ((← readWord data 0).toBytes.take size)
  | .bytes, data => (readBytes data).map .bytes
  | .string, data => do
    match Text.ofOctets? (← readBytes data) with
    | some text => return .string text
    | none => throw .invalidUtf8
  | .array elem, data => do
    let length ← readCount data 0
    if !elem.isCounted then throw .abiHeadSum
    let body := data.drop 32
    let needed := min (length * max elem.headSize 1) maxCount
    if !Bytes.hasAtLeast needed body then
      throw (.abiDataSize (min (needed + 32) maxCount) data.length)
    checkHead elem.isCounted (length * elem.headSize) body
    return .array (← readSlots body 0 (List.replicate length (.ofKind elem (decodeValue elem))))
  | .fixedArray elem length, data => do
    checkHead (length == 0 || elem.isCounted) (length * elem.headSize) data
    return .fixedArray (← readSlots data 0 (List.replicate length (.ofKind elem (decodeValue elem))))
  | .tuple members, data => do
    checkHead (Kind.allCounted members) (Kind.headSizes members) data
    return .tuple (← readSlots data 0 (slots members))
termination_by structural kind => kind

/-- How values of the types are read in a sequence. -/
def slots : List Kind → List Slot
  | [] => []
  | kind :: kinds => .ofKind kind (decodeValue kind) :: slots kinds
termination_by structural kinds => kinds

end

/-- The values of a parameter list at the start of the data. -/
def decode (kinds : List Kind) (data : Bytes) : Except Error (List Value) :=
  if kinds.isEmpty then .ok []
  else if data.isEmpty then .error .abiNoData
  else do
    checkHead (Kind.allCounted kinds) (Kind.headSizes kinds) data
    readSlots data 0 (slots kinds)

end Abi
end EthWire
