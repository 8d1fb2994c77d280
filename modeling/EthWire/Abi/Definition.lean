/-
# Definitions

A function, an event or an error is defined by a line of text: a name, its inputs in parentheses, and
perhaps modifiers and a list of outputs behind the word `returns`. Of an input only the type counts,
and whether the word `indexed` follows it; a tuple's members are declared like inputs.

What is left when names, modifiers and outputs are dropped is the canonical text, and its digest
identifies the definition: the first four octets select a function or an error, and the whole digest
is the first topic of an event.

Key definitions: `Abi.Definition`, `Abi.Input`, `Abi.inputKind`, `Abi.Definition.parse`,
`Abi.Definition.canonical`, `Abi.Definition.topic`, `Abi.Definition.selector`.
-/
import EthWire.Abi.KindReader
import EthWire.Hash.Keccak

namespace EthWire
namespace Abi

/-- An input of a definition: its type, and whether an event stores it as a topic. -/
structure Input where
  kind : Kind
  indexed : Bool
  deriving Repr

/-- A function, an event or an error. -/
structure Definition where
  name : String
  inputs : List Input
  outputs : List Kind
  deriving Repr

/-! ### Parameters -/

/-- Whether a text is a name: letters, digits, `_` and `$` of ASCII, no digit first. -/
def isIdentifier (name : List Char) : Bool :=
  !name.isEmpty && !(name.head?.any Char.isDigit) &&
    name.all fun c => c.isAlphanum || c == '_' || c == '$'

/-- Whether a character can belong to an array suffix directly behind a parenthesis. -/
def isSuffixChar (c : Char) : Bool :=
  c == '[' || c == ']' || c.isDigit

set_option linter.unusedVariables false in
/-- The type of a declared parameter: its first word, or a list of declared members in parentheses
with the array suffixes directly behind it. -/
def inputKind (declaration : List Char) : Except Error Kind :=
  match hn : Text.trim declaration with
  | param =>
  match h : Kind.afterTuple param with
  | '(' :: rest =>
    match hParen : closeParen? 0 rest with
    | none => .error (.abiDefinition (String.ofList param))
    | some (inside, behind) => do
      let members ←
        if (Text.trim inside).isEmpty then pure []
        else
          match hSplit : splitTopLevel? 0 inside with
          | some pieces => pieces.attach.mapM fun ⟨piece, _⟩ => inputKind piece
          | none => throw (.abiType (String.ofList inside))
      (Kind.tuple members).withSuffix (behind.takeWhile isSuffixChar)
  | _ =>
    match Text.words param with
    | [] => .error (.abiDefinition (String.ofList param))
    | word :: _ => Kind.parse word
termination_by declaration.length
decreasing_by
  rename_i hp
  have := length_of_mem_splitTopLevel hSplit _ hp
  have := length_of_closeParen hParen
  have := Kind.length_afterTuple param
  have := Text.length_trim_le declaration
  simp only [h, hn, List.length_cons] at *
  omega

/-- What follows the type in a declaration. -/
def behindKind (param : List Char) : List Char :=
  match Kind.afterTuple param with
  | '(' :: rest => (closeParen? 0 rest).elim [] (·.2)
  | _ => (param.dropWhile (!Text.isBlank ·)).drop 1

/-- An input of a definition. -/
def readInput (declaration : List Char) : Except Error Input := do
  let kind ← inputKind declaration
  let words := Text.words (behindKind (Text.trim declaration))
  return ⟨kind, words.contains "indexed".toList⟩

/-- The declarations between commas; blanks alone are none. -/
def declarations? (inside : List Char) : Option (List (List Char)) :=
  if (Text.trim inside).isEmpty then some [] else splitTopLevel? 0 inside

/-! ### Definitions -/

/-- What follows the first place where a text occurs. -/
def afterFirst? (mark : List Char) : List Char → Option (List Char)
  | [] => if mark.isEmpty then some [] else none
  | c :: rest =>
    match Text.afterFront? mark (c :: rest) with
    | some behind => some behind
    | none => afterFirst? mark rest

/-- The text without the keyword and blanks in front of it. -/
def afterKeyword (text : List Char) (keyword : String) : List Char :=
  match Text.afterFront? (keyword.toList ++ [' ']) text with
  | some rest => Text.trimStart rest
  | none => text

namespace Definition

/-- The declarations in the outputs list of what follows the inputs, if there is one. -/
def outputDeclarations? (modifiers : List Char) : Option (List (List Char)) :=
  match afterFirst? "returns".toList modifiers with
  | none => some []
  | some behind =>
    match Text.trimStart behind with
    | '(' :: rest => do
      let (inside, _) ← closeParen? 0 rest
      declarations? inside
    | _ => none

/-- Reads a definition, with one of the keywords in front of it or none. -/
def parse (text : String) : Except Error Definition := do
  let invalid : Error := .abiDefinition text
  let line := ["function", "event", "error"].foldl afterKeyword (Text.trim text.toList)
  let some (front, rest) := Text.cutAt? '(' line | throw invalid
  let name := Text.trim front
  if !isIdentifier name then throw invalid
  let some (inside, modifiers) := closeParen? 0 rest | throw invalid
  let some declared := declarations? inside | throw invalid
  let inputs ← declared.mapM readInput
  let some outputs := outputDeclarations? modifiers | throw invalid
  return ⟨String.ofList name, inputs, ← outputs.mapM inputKind⟩

/-- The types of the inputs. -/
def inputKinds (definition : Definition) : List Kind :=
  definition.inputs.map (·.kind)

/-- The canonical text: the name and the types of the inputs. -/
def canonical (definition : Definition) : String :=
  definition.name ++ Kind.parenthesized (definition.inputKinds.map Kind.text)

/-- The digest of the canonical text. -/
def topic (definition : Definition) : Word :=
  keccak256 (Text.octets definition.canonical)

/-- The first four octets of the digest. -/
def selector (definition : Definition) : Bytes :=
  definition.topic.toBytes.take 4

end Definition
end Abi
end EthWire
