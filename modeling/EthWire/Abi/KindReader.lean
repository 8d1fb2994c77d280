/-
# Reading type texts

A type text is an elementary name, or a list of types in parentheses with `tuple` in front or not, and
behind it any number of array suffixes. Blanks may stand around types, members and lengths. Widths are
decimal numerals without leading zeros; `uint` and `int` alone mean 256 bits, and `function` is an
address followed by a selector.

Suffixes are read from the end of the text, so the failure of an inner type is found before that of
the suffix behind it. The text of a failure is the piece at which it was found.

Key definitions: `Abi.splitTopLevel?`, `Abi.closeParen?`, `Abi.suffixes?`, `Abi.Kind.withSuffix`,
`Abi.Kind.ofName?`, `Abi.Kind.parse`.
-/
import EthWire.Abi.Kind
import EthWire.Text.HexReader

namespace EthWire
namespace Abi

/-! ### Parentheses -/

/-- The pieces between the commas that stand outside all parentheses, `depth` of which are open; every
one must be closed again. -/
def splitTopLevel? : (depth : Nat) → List Char → Option (List (List Char))
  | 0, [] => some [[]]
  | _ + 1, [] => none
  | depth, c :: rest =>
    if c = ',' ∧ depth = 0 then (splitTopLevel? 0 rest).map ([] :: ·)
    else if c = ')' ∧ depth = 0 then none
    else
      let depth := if c = '(' then depth + 1 else if c = ')' then depth - 1 else depth
      match splitTopLevel? depth rest with
      | some (piece :: pieces) => some ((c :: piece) :: pieces)
      | _ => none

/-- The text up to the parenthesis that closes the last of `depth + 1` open ones, and the text behind
it. -/
def closeParen? : (depth : Nat) → List Char → Option (List Char × List Char)
  | _, [] => none
  | depth, c :: rest =>
    if c = ')' ∧ depth = 0 then some ([], rest)
    else
      let depth := if c = '(' then depth + 1 else if c = ')' then depth - 1 else depth
      (closeParen? depth rest).map fun (inside, behind) => (c :: inside, behind)

theorem length_of_mem_splitTopLevel {depth : Nat} {text : List Char} {pieces : List (List Char)}
    (h : splitTopLevel? depth text = some pieces) : ∀ piece ∈ pieces, piece.length ≤ text.length := by
  induction text generalizing depth pieces with
  | nil => cases depth <;> simp [splitTopLevel?] at h; simp [← h]
  | cons c rest ih =>
    rw [splitTopLevel?] at h
    split at h
    · obtain ⟨ps, hps, rfl⟩ := Option.map_eq_some_iff.1 h
      intro piece hp
      rcases List.mem_cons.1 hp with rfl | hp
      · simp
      · exact Nat.le_succ_of_le (ih hps piece hp)
    · split at h
      · simp at h
      · simp only at h
        split at h
        · rename_i p ps hps
          simp only [Option.some.injEq] at h
          subst h
          intro piece hp
          rcases List.mem_cons.1 hp with rfl | hp
          · simpa using ih hps p (by simp)
          · exact Nat.le_succ_of_le (ih hps piece (by simp [hp]))
        · simp at h

theorem length_of_closeParen {depth : Nat} {text inside behind : List Char}
    (h : closeParen? depth text = some (inside, behind)) :
    inside.length + behind.length < text.length := by
  induction text generalizing depth inside behind with
  | nil => simp [closeParen?] at h
  | cons c rest ih =>
    rw [closeParen?] at h
    split at h
    · simp only [Option.some.injEq, Prod.mk.injEq] at h
      simp [← h.1, ← h.2]
    · obtain ⟨⟨i, b⟩, hib, heq⟩ := Option.map_eq_some_iff.1 h
      simp only [Prod.mk.injEq] at heq
      have := ih hib
      simp only [← heq.1, ← heq.2, List.length_cons]
      omega

/-! ### Array suffixes -/

/-- The lengths of array suffixes from left to right, none for arrays of any length; `size` is what
has been read of the length at hand, latest character first. -/
def suffixesFrom? : (size : Option (List Char)) → List Char → Option (List (Option Nat))
  | none, [] => some []
  | some _, [] => none
  | none, c :: rest => if c = '[' then suffixesFrom? (some []) rest else none
  | some size, c :: rest =>
    if c = ']' then
      match Text.trim size.reverse with
      | [] => (suffixesFrom? none rest).map (none :: ·)
      | digits => do
        let length ← Numeral.readCount? digits
        some (some length :: (← suffixesFrom? none rest))
    else suffixesFrom? (some (c :: size)) rest

/-- The lengths of the array suffixes that a text consists of. -/
def suffixes? (text : List Char) : Option (List (Option Nat)) :=
  suffixesFrom? none (Text.trim text)

namespace Kind

/-- Arrays of the type, of the length if one is given. -/
def arrayOf (kind : Kind) : Option Nat → Kind
  | none => .array kind
  | some length => .fixedArray kind length

/-- The type with array suffixes behind it, the leftmost innermost. -/
def withSuffix (kind : Kind) (suffix : List Char) : Except Error Kind :=
  match suffixes? suffix with
  | some lengths => .ok (lengths.foldl arrayOf kind)
  | none => .error (.abiType (String.ofList suffix))

/-! ### Elementary types -/

/-- A width without leading zeros that passes the test. -/
def width? (valid : Nat → Bool) (digits : List Char) : Option Nat :=
  if digits.head? = some '0' then none else (Numeral.readCount? digits).filter valid

/-- The width of an integer type in bits, 256 if none is written. -/
def bitWidth? (digits : List Char) : Option Nat :=
  if digits.isEmpty then some 256
  else width? (fun bits => bits % 8 == 0 && 8 ≤ bits && bits ≤ 256) digits

/-- The size of a fixed bytes type. -/
def byteWidth? (digits : List Char) : Option Nat :=
  width? (fun size => 1 ≤ size && size ≤ 32) digits

/-- The elementary type of a name. -/
def ofName? (name : List Char) : Option Kind :=
  if name = "address".toList then some .address
  else if name = "bool".toList then some .bool
  else if name = "string".toList then some .string
  else if name = "bytes".toList then some .bytes
  else if name = "function".toList then some (.fixedBytes 24)
  else match Text.afterFront? "uint".toList name with
    | some digits => (bitWidth? digits).map .uint
    | none =>
      match Text.afterFront? "int".toList name with
      | some digits => (bitWidth? digits).map .int
      | none =>
        match Text.afterFront? "bytes".toList name with
        | some digits => (byteWidth? digits).map .fixedBytes
        | none => none

/-! ### All types -/

/-- The text from its last opening bracket on, and the text in front of it. -/
def cutLastBracket? : List Char → Option (List Char × List Char)
  | [] => none
  | c :: rest =>
    match cutLastBracket? rest with
    | some (front, suffix) => some (c :: front, suffix)
    | none => if c = '[' then some ([], c :: rest) else none

theorem length_of_cutLastBracket {text front suffix : List Char}
    (h : cutLastBracket? text = some (front, suffix)) : front.length < text.length := by
  induction text generalizing front suffix with
  | nil => simp [cutLastBracket?] at h
  | cons c rest ih =>
    rw [cutLastBracket?] at h
    split at h
    · rename_i f s hfs
      simp only [Option.some.injEq, Prod.mk.injEq] at h
      have := ih hfs
      simp only [← h.1, List.length_cons]
      omega
    · split at h
      · simp only [Option.some.injEq, Prod.mk.injEq] at h
        simp [← h.1]
      · simp at h

/-- The text behind the word `tuple`, if it starts with it. -/
def afterTuple (text : List Char) : List Char :=
  (Text.afterFront? "tuple".toList text).getD text

theorem length_afterTuple (text : List Char) : (afterTuple text).length ≤ text.length := by
  rw [afterTuple, Text.afterFront?]
  split <;> simp

set_option linter.unusedVariables false in
/-- The type that a text names. -/
def parse (text : List Char) : Except Error Kind :=
  match hn : Text.trim text with
  | name =>
  if name.getLast? = some ']' then
    match h : cutLastBracket? name with
    | none => .error (.abiType (String.ofList name))
    | some (front, suffix) => do (← parse front).withSuffix suffix
  else
    match h : afterTuple name with
    | '(' :: rest =>
      match hParen : closeParen? 0 rest with
      | some (inside, []) =>
        if (Text.trim inside).isEmpty then .ok (.tuple [])
        else
          match hSplit : splitTopLevel? 0 inside with
          | some pieces => do
            let members ← pieces.attach.mapM fun ⟨piece, _⟩ => parse piece
            return .tuple members
          | none => .error (.abiType (String.ofList inside))
      | _ => .error (.abiType (String.ofList name))
    | _ =>
      match ofName? name with
      | some kind => .ok kind
      | none => .error (.abiType (String.ofList name))
termination_by text.length
decreasing_by
  · have := length_of_cutLastBracket h
    have := Text.length_trim_le text
    simp only [hn] at *
    omega
  · rename_i hp
    have := length_of_mem_splitTopLevel hSplit _ hp
    have := length_of_closeParen hParen
    have := length_afterTuple name
    have := Text.length_trim_le text
    simp only [h, hn, List.length_cons] at *
    omega

end Kind
end Abi
end EthWire
