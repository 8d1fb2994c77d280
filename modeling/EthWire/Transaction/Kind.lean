/-
# Transaction types

There are five types of transactions. The first has no type octet of its own and is recognised by
being a list; the others are told apart by the octet in front of theirs.

Key definitions: `TxKind`, `TxKind.name`, `TxKind.typeByte?`, `TxKind.ofTypeByte`,
`TxKind.fieldCount`.
-/
import EthWire.Error
import EthWire.Json.Decoder
import EthWire.Json.Printer

namespace EthWire

/-- The types of transactions. -/
inductive TxKind where
  | legacy
  /-- With an access list. -/
  | eip2930
  /-- With a fee cap and a tip. -/
  | eip1559
  /-- With blobs. -/
  | eip4844
  /-- With authorizations to set code. -/
  | eip7702
  deriving DecidableEq, Repr

namespace TxKind

def all : List TxKind :=
  [legacy, eip2930, eip1559, eip4844, eip7702]

/-- The name of a type. -/
def name : TxKind → String
  | legacy => "legacy"
  | eip2930 => "eip2930"
  | eip1559 => "eip1559"
  | eip4844 => "eip4844"
  | eip7702 => "eip7702"

/-- The octet in front of a transaction of the type. -/
def typeByte? : TxKind → Option UInt8
  | legacy => none
  | eip2930 => some 1
  | eip1559 => some 2
  | eip4844 => some 3
  | eip7702 => some 4

/-- The type of an octet. -/
def ofTypeByte (byte : UInt8) : Except Error TxKind :=
  match all.find? fun kind => kind.typeByte? = some byte with
  | some kind => .ok kind
  | none => .error (.txType byte)

/-- How many fields a transaction of the type has before its signature. -/
def fieldCount : TxKind → Nat
  | legacy => 6
  | eip2930 => 8
  | eip1559 => 9
  | eip4844 => 11
  | eip7702 => 10

/-! ### JSON -/

/-- The type of a name. -/
def ofName? (name : String) : Option TxKind :=
  all.find? fun kind => kind.name = name

/-- Reads a name, or an object whose one key is a name with the value null. -/
def decoder : Json.Decoder TxKind
  | _, .string codes => Json.textOfCodes? codes >>= ofName?
  | _, .object [(codes, .null)] => Json.textOfCodes? codes >>= ofName?
  | _, _ => none

/-- The text of a type. -/
def json (kind : TxKind) : String :=
  Json.quote kind.name

end TxKind
end EthWire
