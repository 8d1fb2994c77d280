/-
# Struct types of typed data

A schema declares struct types: each is a list of members, and a member has a name and the text of its
type. A type refers to a struct by its name, with array suffixes behind it perhaps.

The text of a struct type is its own declaration followed by the declarations of all types that can be
reached from it, in ascending order of their names. Its digest stands in front of every value of the
type, so values of different types are never confused.

Key definitions: `Member`, `Schema`, `Schema.explore`, `Schema.reachable`, `Schema.typeText`, `Schema.typeDigest`.
-/
import EthWire.Error
import EthWire.Hash.Keccak
import EthWire.Json.Value
import EthWire.Text.Basic

namespace EthWire
namespace TypedData

/-- A member of a struct type. -/
structure Member where
  name : String
  type : String
  deriving DecidableEq, Repr

/-- The text of a member in a declaration. -/
def Member.text (member : Member) : String :=
  member.type ++ " " ++ member.name

/-- Struct types by their names. -/
abbrev Schema := Dictionary (List Member)

namespace Schema

/-- A type without its array suffixes. -/
def baseName (type : String) : String :=
  String.ofList (type.toList.takeWhile (· ≠ '['))

/-- How many of the declared types have not been found. -/
def missing (schema found : Schema) : Nat :=
  schema.countP fun declared => !found.contains declared.1

theorem missing_insert_lt {schema found : Schema} {name : String} {members : List Member}
    (hnew : ¬ found.contains name) (h : schema.get? name = some members) :
    missing schema (found.insert name members) < missing schema found := by
  obtain ⟨before, after, hsplit, -⟩ := List.lookup_eq_some_iff.mp h
  have hless : ∀ declared : String × List Member,
      (!(found.insert name members).contains declared.1) = true → (!found.contains declared.1) = true := by
    intro declared
    rw [Dictionary.contains_insert, Bool.not_or, Bool.and_eq_true]
    exact And.right
  have hbefore := List.countP_mono_left (l := before) fun declared _ => hless declared
  have hafter := List.countP_mono_left (l := after) fun declared _ => hless declared
  rw [missing, missing, hsplit, List.countP_append, List.countP_append,
    List.countP_cons_of_neg (by simp [Dictionary.contains_insert]), List.countP_cons_of_pos (by simpa using hnew)]
  omega

/-- The found types, and the declared ones that can be reached from the pending ones, in ascending order. The
members of a type are looked at before what else is pending. A type counts as found before its members are
looked at, so the members of a type that refers to itself are looked at once. -/
def explore (schema : Schema) : (found : Schema) → (pending : List String) → Schema
  | found, [] => found
  | found, type :: pending =>
    if _hfound : found.contains (baseName type) then explore schema found pending
    else
      match _hget : schema.get? (baseName type) with
      | none => explore schema found pending
      | some members =>
        explore schema (found.insert (baseName type) members) (members.map (·.type) ++ pending)
termination_by found pending => (missing schema found, pending.length)
decreasing_by
  · exact Prod.Lex.right _ (Nat.lt_succ_self _)
  · exact Prod.Lex.right _ (Nat.lt_succ_self _)
  · exact Prod.Lex.left _ _ (missing_insert_lt _hfound _hget)

/-- The declared types that can be reached from a type, its own struct included, in ascending order. -/
def reachable (schema : Schema) (type : String) : List String :=
  (explore schema [] [type]).map (·.1)

/-- The declaration of a struct type. -/
def declaration (schema : Schema) (name : String) : String :=
  name ++ "(" ++ ",".intercalate (((schema.get? name).getD []).map Member.text) ++ ")"

/-- The failure of a type that is not declared. -/
def unknownType (name : String) : Error :=
  .typedData ("unknown type " ++ name)

/-- The text of a struct type: its declaration, and behind it those of the types it refers to. -/
def typeText (schema : Schema) (name : String) : Except Error String :=
  if schema.contains name then
    .ok (String.join ((name :: (schema.reachable name).filter (· ≠ name)).map schema.declaration))
  else .error (unknownType name)

/-- The digest of the text of a struct type. -/
def typeDigest (schema : Schema) (name : String) : Except Error Word :=
  (schema.typeText name).map fun text => keccak256 (Text.octets text)

end Schema
end TypedData
end EthWire
