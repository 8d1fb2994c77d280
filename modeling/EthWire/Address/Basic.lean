/-
# Addresses

An address is a number of 160 bits, the low part of the Keccak-256 digest of a public key. It is
written as 40 hex digits, whose letters carry a checksum by their case: the letter at a place is in
upper case exactly when the digest of the lower case text has a digit of at least 8 there.

A text whose letters are all of one case carries no checksum and is read as it is. Otherwise the case
of every letter must be the checksum's.

Key definitions: `Address`, `Address.toBytes`, `Address.ofBytes`, `Address.toWord`,
`Address.ofWord?`, `Address.checksum`, `Address.parse`, `Address.ofPublicKey`.
-/
import EthWire.Hash.Keccak
import EthWire.Rlp.Item

namespace EthWire

/-- An account of the chain. -/
structure Address where
  value : BitVec 160
  deriving DecidableEq, Repr

namespace Address

/-- The address of all zeros. -/
def zero : Address := ⟨0⟩

/-- The 20 octets of an address. -/
def toBytes (address : Address) : Bytes :=
  Bytes.toBigEndian 20 address.value.toNat

@[simp] theorem length_toBytes (address : Address) : address.toBytes.length = 20 :=
  Bytes.length_toBigEndian 20 _

/-- The address of exactly 20 octets. -/
def ofBytes (bytes : Bytes) : Except Error Address :=
  if bytes.length = 20 then .ok ⟨BitVec.ofNat 160 (Bytes.ofBigEndian bytes)⟩
  else .error (.addressLength bytes.length 20)

/-- The word with the address in its low bits. -/
def toWord (address : Address) : Word :=
  address.value.setWidth 256

/-- The address in the low bits of a word, if the others are zero. -/
def ofWord? (word : Word) : Option Address :=
  if word.toNat < 2 ^ 160 then some ⟨word.setWidth 160⟩ else none

/-- The address in the low bits of a word. -/
def ofLowBits (word : Word) : Address :=
  ⟨word.setWidth 160⟩

/-- The address of the 64 coordinate octets of a public key. -/
def ofPublicKey (coordinates : Bytes) : Except Error Address :=
  if coordinates.all (· == 0) then .error .zeroPrivateKey
  else .ok (ofLowBits (keccak256 coordinates))

/-- The address in an RLP string. -/
def ofItem (item : Rlp.Item) : Except Error Address :=
  item.asBytes >>= ofBytes

/-- The address as an RLP string. -/
def toItem (address : Address) : Rlp.Item :=
  .bytes address.toBytes

/-! ### Text -/

/-- The 40 lower case digits. -/
def digits (address : Address) : List Char :=
  Hex.encode address.toBytes

/-- Every letter in upper case where the digest has a digit of at least 8. -/
def withCase (digits : List Char) (digest : Bytes) : List Char :=
  List.zipWith (fun c nibble => if 8 ≤ nibble then c.toUpper else c) digits
    (digest.flatMap fun b => [b.toNat / 16, b.toNat % 16])

/-- The 40 digits in checksum case. -/
def checksumDigits (address : Address) : List Char :=
  let lower := address.digits
  withCase lower (keccak256 (Text.octets (String.ofList lower))).toBytes

/-- The text of an address: `0x` and 40 digits in checksum case. -/
def checksum (address : Address) : String :=
  "0x" ++ String.ofList address.checksumDigits

/-- Whether a text has letters of both cases, so that it carries a checksum. -/
def isMixedCase (text : List Char) : Bool :=
  text.any Char.isLower && text.any Char.isUpper

/-- The address that the text denotes whatever its case, and the digits that were read. -/
def parseAnyCase (text : String) : Except Error (Address × List Char) := do
  let digits := Text.after0x text.toList
  let size := Text.octetCount (String.ofList digits)
  if size ≠ 40 then throw (.addressLength (size / 2) 20)
  let address ← ofBytes (← Hex.decode (String.ofList digits))
  return (address, digits)

/-- Reads an address; mixed case must be the checksum's. -/
def parse (text : String) : Except Error Address := do
  let (address, digits) ← parseAnyCase text
  if isMixedCase digits ∧ address.checksumDigits ≠ digits then throw .checksumCase
  return address

end Address
end EthWire
