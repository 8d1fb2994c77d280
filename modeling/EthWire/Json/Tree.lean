/-
# JSON syntax trees

A tree is JSON text before anybody asks what it means: numbers are still digits, strings are still
code points, and an object lists its members as they were written, repeated keys included.

Trees are read from tokens by a machine with a stack. A frame of the stack is a list or an object that
is still open; the machine knows what may come next.

Key definitions: `Json.Tree`, `Json.Frame`, `Json.Expect`, `Json.Machine`, `Json.Tree.ofTokens?`,
`Json.Tree.parse?`.
-/
import EthWire.Json.Token

namespace EthWire
namespace Json

/-- JSON text as it was written. -/
inductive Tree where
  | null
  | bool (value : Bool)
  | number (value : Numeral)
  | string (codes : List Nat)
  | list (items : List Tree)
  | object (members : List (List Nat × Tree))
  deriving Repr

/-- A list or an object that is still open, what it holds so far latest first. -/
inductive Frame where
  | list (items : List Tree)
  | object (members : List (List Nat × Tree))
  /-- An object whose latest key has no value yet. -/
  | keyed (members : List (List Nat × Tree)) (key : List Nat)
  deriving Repr

/-- What may come next. -/
inductive Expect where
  /-- A value. -/
  | value
  /-- A value, or the end of a list that has none. -/
  | firstItem
  /-- A key, or the end of an object that has none. -/
  | firstKey
  /-- A key. -/
  | key
  /-- The colon behind a key. -/
  | colon
  /-- A comma, or the end of what is open. -/
  | separator
  /-- Nothing: the outermost value is complete. -/
  | nothing (result : Tree)
  deriving Repr

/-- The stack and what may come next. -/
structure Machine where
  frames : List Frame
  expect : Expect
  deriving Repr

namespace Machine

/-- The machine before the first token. -/
def start : Machine := ⟨[], .value⟩

/-- Puts a complete value where it belongs. -/
def complete? (value : Tree) : List Frame → Option Machine
  | [] => some ⟨[], .nothing value⟩
  | .list items :: rest => some ⟨.list (value :: items) :: rest, .separator⟩
  | .keyed members key :: rest => some ⟨.object ((key, value) :: members) :: rest, .separator⟩
  | .object _ :: _ => none

/-- A token that starts a value. -/
def value? (frames : List Frame) : Token → Option Machine
  | .openList => some ⟨.list [] :: frames, .firstItem⟩
  | .openObject => some ⟨.object [] :: frames, .firstKey⟩
  | .null => complete? .null frames
  | .bool b => complete? (.bool b) frames
  | .number n => complete? (.number n) frames
  | .string codes => complete? (.string codes) frames
  | _ => none

/-- A token that should be a key. -/
def key? (frames : List Frame) : Token → Option Machine
  | .string codes =>
    match frames with
    | .object members :: rest => some ⟨.keyed members codes :: rest, .colon⟩
    | _ => none
  | _ => none

/-- A token that ends the innermost open list or object. -/
def close? (frames : List Frame) (token : Token) : Option Machine :=
  match token, frames with
  | .closeList, .list items :: rest => complete? (.list items.reverse) rest
  | .closeObject, .object members :: rest => complete? (.object members.reverse) rest
  | _, _ => none

/-- One token. -/
def step? (machine : Machine) (token : Token) : Option Machine :=
  match machine.expect with
  | .value => value? machine.frames token
  | .firstItem =>
    if token = .closeList then close? machine.frames token else value? machine.frames token
  | .firstKey =>
    if token = .closeObject then close? machine.frames token else key? machine.frames token
  | .key => key? machine.frames token
  | .colon => if token = .colon then some ⟨machine.frames, .value⟩ else none
  | .separator =>
    if token = .comma then
      match machine.frames with
      | .list _ :: _ => some ⟨machine.frames, .value⟩
      | .object _ :: _ => some ⟨machine.frames, .key⟩
      | _ => none
    else close? machine.frames token
  | .nothing _ => none

/-- The value that is complete when the tokens end. -/
def result? (machine : Machine) : Option Tree :=
  match machine.expect with
  | .nothing value => some value
  | _ => none

end Machine

namespace Tree

/-- The tree of a token string. -/
def ofTokens? (tokens : List Token) : Option Tree :=
  tokens.foldlM Machine.step? Machine.start >>= Machine.result?

/-- The tree of a text. -/
def parse? (text : String) : Option Tree :=
  tokens? text.toList >>= ofTokens?

end Tree
end Json
end EthWire
