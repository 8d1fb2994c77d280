/-
# Hashing typed data

A struct value is written as the digest of its type followed by one word for each member in the order
of the declaration. The word of a string, of an octet string, of an array and of a nested struct is a
digest; the absent struct, written as null, has the word zero; every other word holds its value.

An array's digest covers the words of its elements, so an element is written as a member of the
element type would be.

Key definitions: `arrayType?`, `fieldWord`, `encodeData`, `hashStruct`.
-/
import EthWire.TypedData.Atom
import EthWire.TypedData.Schema

namespace EthWire
namespace TypedData

/-- The element type and the length text of an array type; other types have none. -/
def arrayType? (type : String) : Except Error (Option (String × List Char)) :=
  match type.toList.reverse with
  | ']' :: rest =>
    match Text.cutAt? '[' rest with
    | some (length, elem) => .ok (some (String.ofList elem.reverse, length.reverse))
    | none => .error (.abiType type)
  | _ => .ok none

/-- Refuses an array whose size is not the one that its type gives, if it gives one. -/
def checkLength (type : String) (length : List Char) (size : Nat) : Except Error Unit :=
  if length.isEmpty then .ok ()
  else
    match Numeral.readCount? length with
    | none => .error (.abiType type)
    | some expected => if size = expected then .ok () else .error (.abiCount expected size)

/-- The word of a value of a type that is neither a struct nor an array. -/
def plainWord (type : String) (value : Json.Value) : Except Error Word :=
  if type = "string" then
    match value with
    | .string s => .ok (keccak256 (Text.octets s))
    | _ => invalid (value.text ++ " is not a string")
  else if type = "bytes" then (readOctets value).map keccak256
  else atomWord type value

theorem sizeOf_lookup_lt {α : Type} [SizeOf α] {members : List (String × α)} {name : String}
    {value : α} (h : members.lookup name = some value) : sizeOf value < sizeOf members := by
  induction members with
  | nil => simp at h
  | cons member rest ih =>
    obtain ⟨k, v⟩ := member
    simp only [List.lookup_cons] at h
    split at h
    · simp only [Option.some.injEq] at h
      subst h
      simp only [List.cons.sizeOf_spec, Prod.mk.sizeOf_spec]
      omega
    · have := ih h
      simp only [List.cons.sizeOf_spec]
      omega

mutual

/-- The word of a value in a member of some type. -/
def fieldWord (schema : Schema) (type : String) (value : Json.Value) : Except Error Word :=
  if schema.contains type then
    if value.isNull then .ok 0 else (encodeData schema type value).map keccak256
  else do
    match ← arrayType? type with
    | none => plainWord type value
    | some (elem, length) =>
      match value with
      | .list items =>
        checkLength type length items.length
        let words ← items.attach.mapM fun ⟨item, _⟩ => fieldWord schema elem item
        return keccak256 (words.flatMap Word.toBytes)
      | _ => invalid (type ++ " value is not an array")
termination_by 2 * sizeOf value + 1

/-- A struct value as octets: the digest of its type and the words of its members. -/
def encodeData (schema : Schema) (type : String) (value : Json.Value) : Except Error Bytes :=
  match schema.get? type with
  | none => .error (Schema.unknownType type)
  | some members =>
    match value with
    | .object fields => do
      let digest ← schema.typeDigest type
      let words ← members.mapM fun member =>
        match _h : fields.lookup member.name with
        | some field => fieldWord schema member.type field
        | none => .error (.typedDataMember type member.name)
      return digest.toBytes ++ words.flatMap Word.toBytes
    | _ => invalid (type ++ " value is not an object")
termination_by 2 * sizeOf value
decreasing_by
  have := sizeOf_lookup_lt _h
  simp only [Json.Value.object.sizeOf_spec]
  omega

end

/-- The digest of a struct value. -/
def hashStruct (schema : Schema) (type : String) (value : Json.Value) : Except Error Word :=
  (encodeData schema type value).map keccak256

end TypedData
end EthWire
