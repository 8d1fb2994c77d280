/-
# Definitions are read piece by piece

A line is cut at its first parenthesis into the name and the rest, the rest at the parenthesis that closes
the first one into the inputs and the modifiers, and the inputs at their commas. If each piece is read, so
is the line (`Abi.Definition.parse_eq_ok`), and a line that is read has such pieces
(`Abi.Definition.exists_pieces_of_parse`).

The reader of types calls itself on ever shorter texts. On the declaration of an elementary input it does
so once: the type is that of the first word, and a word without brackets and parentheses is the name of
its type (`Abi.readInput_of_name`).

Key theorems: `Abi.Kind.parse_of_name`, `Abi.readInput_of_name`, `Abi.Definition.parse_eq_ok`,
`Abi.Definition.exists_pieces_of_parse`.
-/
import EthWire.Abi.Definition
import EthWire.Proofs.Outcome

namespace EthWire
namespace Abi

/-! ### Elementary inputs -/

/-- A text that ends in no bracket and starts with no parenthesis is the name of a type. -/
theorem Kind.parse_of_name {text : List Char} {kind : Kind} (hlast : (Text.trim text).getLast? ≠ some ']')
    (hfirst : (afterTuple (Text.trim text)).head? ≠ some '(')
    (hname : ofName? (Text.trim text) = some kind) : parse text = .ok kind := by
  rw [parse]
  simp only [if_neg hlast]
  split
  · rename_i rest hrest
    rw [hrest] at hfirst
    exact absurd rfl hfirst
  · rw [hname]

theorem inputKind_of_words {declaration word : List Char} {others : List (List Char)}
    (hfirst : (Kind.afterTuple (Text.trim declaration)).head? ≠ some '(')
    (hwords : Text.words (Text.trim declaration) = word :: others) :
    inputKind declaration = Kind.parse word := by
  rw [inputKind]
  simp only
  split
  · rename_i rest hrest
    rw [hrest] at hfirst
    exact absurd rfl hfirst
  · rw [hwords]

section

variable {declaration word : List Char} {others : List (List Char)} {kind : Kind}

theorem inputKind_of_name (hfirst : (Kind.afterTuple (Text.trim declaration)).head? ≠ some '(')
    (hwords : Text.words (Text.trim declaration) = word :: others)
    (hkind : Kind.parse word = .ok kind) : inputKind declaration = .ok kind := by
  rw [inputKind_of_words hfirst hwords, hkind]

theorem readInput_of_name (hfirst : (Kind.afterTuple (Text.trim declaration)).head? ≠ some '(')
    (hwords : Text.words (Text.trim declaration) = word :: others)
    (hkind : Kind.parse word = .ok kind) :
    readInput declaration
      = .ok ⟨kind, (Text.words (behindKind (Text.trim declaration))).contains "indexed".toList⟩ := by
  rw [readInput, inputKind_of_name hfirst hwords hkind]
  rfl

end

/-! ### Lines -/

/-- A line is read if each of its pieces is. -/
theorem Definition.parse_eq_ok {text : String} {front rest inside modifiers : List Char}
    {declared returned : List (List Char)} {inputs : List Input} {outputs : List Kind}
    (hcut : Text.cutAt? '(' (["function", "event", "error"].foldl afterKeyword (Text.trim text.toList))
      = some (front, rest))
    (hname : isIdentifier (Text.trim front) = true)
    (hclose : closeParen? 0 rest = some (inside, modifiers))
    (hdeclared : declarations? inside = some declared) (hinputs : declared.mapM readInput = .ok inputs)
    (hreturned : outputDeclarations? modifiers = some returned)
    (houtputs : returned.mapM inputKind = .ok outputs) :
    parse text = .ok ⟨String.ofList (Text.trim front), inputs, outputs⟩ := by
  unfold parse
  simp only [hcut, hname, hclose, hdeclared, hinputs, hreturned, houtputs, bind, Except.bind]
  rfl

/-- A line that is read has an identifier in front of its first parenthesis and declarations of its inputs. -/
theorem Definition.exists_pieces_of_parse {text : String} {definition : Definition}
    (h : parse text = .ok definition) :
    ∃ (front : List Char) (declared : List (List Char)), definition.name = String.ofList (Text.trim front) ∧
      isIdentifier (Text.trim front) = true ∧ declared.mapM readInput = .ok definition.inputs := by
  unfold parse at h
  simp only at h
  split at h
  · rename_i front rest hcut
    obtain ⟨hidentifier, hlist⟩ := guard_eq_ok_iff.mp h
    rw [Bool.not_eq_true', Bool.not_eq_false] at hidentifier
    split at hlist
    · split at hlist
      · rename_i declared hdeclared
        obtain ⟨inputs, hinputs, hreturns⟩ := bind_eq_ok_iff.mp hlist
        split at hreturns
        · obtain ⟨outputs, -, hdefinition⟩ := bind_eq_ok_iff.mp hreturns
          obtain rfl := pure_eq_ok_iff.mp hdefinition
          exact ⟨front, declared, rfl, hidentifier, hinputs⟩
        · cases hreturns
      · cases hlist
    · cases hlist
  · cases h

end Abi
end EthWire
