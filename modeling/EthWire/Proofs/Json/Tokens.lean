/-
# Printed text is cut where it was put together

The machine that cuts text into tokens goes on with a word or a number until a character comes that cannot belong
to it. Printed text has a comma or a closing bracket there, or it ends (`Json.IsDelimited`). So the tokens of a
printed value do not depend on what follows (`Json.CutsInto`), and those of a list or an object are the ones of
its parts. Strings end by themselves; what is escaped in them is read as the character again.

Key definitions: `Json.codesOf`, `Json.IsDelimited`, `Json.CutsInto`.
Key theorems: `Json.tokensFrom?_quote`, `Json.cutsInto_integer`, `Json.cutsInto_list`, `Json.cutsInto_object`.
-/
import EthWire.Json.Printer
import EthWire.Proofs.Text.Numeral
import Mathlib.Data.List.TakeWhile

namespace EthWire
namespace Json

/-- The code points of a text. -/
def codesOf (text : String) : List Nat :=
  text.toList.map Char.toNat

/-- The text is empty or starts with a character that follows values: a comma or a closing bracket. -/
def IsDelimited (rest : List Char) : Prop :=
  ∀ c, rest.head? = some c → c = ',' ∨ c = ']' ∨ c = '\x7d'

/-- The text is cut into the tokens, whatever delimited text follows. -/
def CutsInto (text : List Char) (tokens : List Token) : Prop :=
  ∀ rest, IsDelimited rest → tokensFrom? .between (text ++ rest) = (tokensFrom? .between rest).map (tokens ++ ·)

/-! ### Single characters -/

section

variable {mode next : Mode} {c : Char} {token : Token} {rest : List Char}

theorem tokensFrom?_of_silent (h : step? mode c = some ([], next)) :
    tokensFrom? mode (c :: rest) = tokensFrom? next rest := by
  rw [tokensFrom?, h]
  simp

theorem tokensFrom?_of_token (h : step? mode c = some ([token], next)) :
    tokensFrom? mode (c :: rest) = (tokensFrom? next rest).map (token :: ·) := by
  rw [tokensFrom?, h]
  rfl

end

/-- A word or a number ends where something else is delimited. -/
theorem tokensFrom?_of_flush {mode : Mode} {ended : List Token} {rest : List Char} (h : flush? mode = some ended)
    (hstep : ∀ c, c = ',' ∨ c = ']' ∨ c = '\x7d' → step? mode c = beginAfter? mode c) (hrest : IsDelimited rest) :
    tokensFrom? mode rest = (tokensFrom? .between rest).map (ended ++ ·) := by
  cases rest with
  | nil =>
    rw [tokensFrom?, h, tokensFrom?]
    simp [flush?]
  | cons c rest =>
    have hc := hrest c rfl
    rw [tokensFrom?, hstep c hc, beginAfter?, h, tokensFrom?]
    have hbegin : ∃ token, begin? c = some ([token], .between) := by
      rcases hc with rfl | rfl | rfl
      · exact ⟨.comma, rfl⟩
      · exact ⟨.closeList, rfl⟩
      · exact ⟨.closeObject, rfl⟩
    obtain ⟨token, hbegin⟩ := hbegin
    simp [step?, hbegin, Function.comp_def]

/-! ### Strings -/

theorem digitValue?_digit {n : Nat} (h : n < 16) : EthWire.Numeral.digitValue? 16 (Hex.digit n) = some n := by
  have hall : ∀ n < 16, EthWire.Numeral.digitValue? 16 (Hex.digit n) = some n := by decide
  exact hall n h

section

variable {codes : List Nat} {rest : List Char}

theorem tokensFrom?_shortEscape {c : Char} {code : Nat} (hcode : escapeCode? c = some code) (hu : c ≠ 'u') :
    tokensFrom? (.string codes) ('\\' :: c :: rest) = tokensFrom? (.string (code :: codes)) rest := by
  have hletter : step? (.escape codes) c = some ([], .string (code :: codes)) := by
    rw [step?, if_neg hu, hcode]
    rfl
  rw [tokensFrom?_of_silent (rfl : step? (.string codes) '\\' = some ([], .escape codes)),
    tokensFrom?_of_silent hletter]

theorem step?_hex {n value count : Nat} (h : n < 16) : step? (.hex codes value count) (Hex.digit n)
    = some (if count = 3 then ([], .string ((value * 16 + n) :: codes))
        else ([], .hex codes (value * 16 + n) (count + 1))) := by
  rw [step?, digitValue?_digit h]
  rfl

theorem tokensFrom?_longEscape {code : Nat} (h : code < 256) :
    tokensFrom? (.string codes) ('\\' :: 'u' :: '0' :: '0' :: Hex.digit (code / 16) :: Hex.digit (code % 16) :: rest)
      = tokensFrom? (.string (code :: codes)) rest := by
  have hfirst : step? (.hex codes 0 0) '0' = some ([], .hex codes 0 1) := rfl
  have hsecond : step? (.hex codes 0 1) '0' = some ([], .hex codes 0 2) := rfl
  have hthird : step? (.hex codes 0 2) (Hex.digit (code / 16)) = some ([], .hex codes (code / 16) 3) := by
    rw [step?_hex (by omega), if_neg (by decide), Nat.zero_mul, Nat.zero_add]
  have hfourth : step? (.hex codes (code / 16) 3) (Hex.digit (code % 16)) = some ([], .string (code :: codes)) := by
    rw [step?_hex (Nat.mod_lt _ (by decide)), if_pos rfl, Nat.div_add_mod']
  rw [tokensFrom?_of_silent (rfl : step? (.string codes) '\\' = some ([], .escape codes)),
    tokensFrom?_of_silent (rfl : step? (.escape codes) 'u' = some ([], .hex codes 0 0)),
    tokensFrom?_of_silent hfirst, tokensFrom?_of_silent hsecond, tokensFrom?_of_silent hthird,
    tokensFrom?_of_silent hfourth]

/-- An escaped character is read as the character. -/
theorem tokensFrom?_escapeChar (c : Char) :
    tokensFrom? (.string codes) (escapeChar c ++ rest) = tokensFrom? (.string (c.toNat :: codes)) rest := by
  rw [escapeChar]
  -- Seven characters have a letter that stands for them.
  iterate 7
    split
    · rename_i hc
      rw [hc]
      exact tokensFrom?_shortEscape rfl (by decide)
  split
  · rename_i hc
    exact tokensFrom?_longEscape (by omega)
  · rename_i hquote hbackslash _ _ _ _ _ hcontrol
    refine tokensFrom?_of_silent ?_
    rw [step?, if_neg hquote, if_neg hbackslash, if_neg hcontrol]

theorem tokensFrom?_flatMap_escapeChar (chars : List Char) :
    tokensFrom? (.string codes) (chars.flatMap escapeChar ++ '"' :: rest)
      = (tokensFrom? .between rest).map (.string (codes.reverse ++ chars.map Char.toNat) :: ·) := by
  induction chars generalizing codes with
  | nil =>
    have hend : step? (.string codes) '"' = some ([.string codes.reverse], .between) := rfl
    rw [List.flatMap_nil, List.nil_append, tokensFrom?_of_token hend, List.map_nil, List.append_nil]
  | cons c chars ih =>
    rw [List.flatMap_cons, List.append_assoc, tokensFrom?_escapeChar, ih, List.map_cons, List.reverse_cons,
      List.append_assoc, List.singleton_append]

end

/-- A string literal is one token, whatever follows it. -/
theorem tokensFrom?_quote (text : String) (rest : List Char) :
    tokensFrom? .between ((quote text).toList ++ rest)
      = (tokensFrom? .between rest).map (.string (codesOf text) :: ·) := by
  have hchars : (quote text).toList ++ rest = '"' :: (text.toList.flatMap escapeChar ++ '"' :: rest) := by
    simp [quote]
  rw [hchars, tokensFrom?_of_silent (rfl : step? .between '"' = some ([], .string [])), tokensFrom?_flatMap_escapeChar]
  rfl

theorem cutsInto_quote (text : String) : CutsInto (quote text).toList [.string (codesOf text)] :=
  fun rest _ => tokensFrom?_quote text rest

/-! ### Words and numbers -/

section

variable {collect : List Char → Mode} {chars run rest : List Char}

theorem tokensFrom?_run (h : ∀ c ∈ run, ∀ chars, step? (collect chars) c = some ([], collect (c :: chars))) :
    tokensFrom? (collect chars) (run ++ rest) = tokensFrom? (collect (run.reverse ++ chars)) rest := by
  induction run generalizing chars with
  | nil => rfl
  | cons c run ih =>
    obtain ⟨hc, hrun⟩ := List.forall_mem_cons.mp h
    rw [List.cons_append, tokensFrom?_of_silent (hc chars), ih hrun, List.reverse_cons, List.append_assoc,
      List.singleton_append]

/-- A run that is collected up to a delimiter is one token. -/
theorem cutsInto_run {first : Char} {token : Token} (hfirst : begin? first = some ([], collect [first]))
    (hrun : ∀ c ∈ run, ∀ chars, step? (collect chars) c = some ([], collect (c :: chars)))
    (hend : ∀ chars c, c = ',' ∨ c = ']' ∨ c = '\x7d' → step? (collect chars) c = beginAfter? (collect chars) c)
    (htoken : flush? (collect (first :: run).reverse) = some [token]) : CutsInto (first :: run) [token] := by
  intro rest hrest
  have hstart : step? .between first = some ([], collect [first]) := hfirst
  rw [List.cons_append, tokensFrom?_of_silent hstart, tokensFrom?_run hrun, ← List.reverse_cons,
    tokensFrom?_of_flush htoken (hend _) hrest]

end

theorem cutsInto_word {first : Char} {others : List Char} {token : Token}
    (hfirst : begin? first = some ([], .word [first])) (hothers : others.all Char.isLower = true)
    (htoken : wordToken? (first :: others) = some token) : CutsInto (first :: others) [token] := by
  refine cutsInto_run hfirst (fun c hc chars => ?_) (fun chars c hc => ?_) ?_
  · rw [step?, if_pos (List.all_eq_true.mp hothers c hc)]
  · rcases hc with rfl | rfl | rfl <;> rfl
  · rw [flush?, List.reverse_reverse, htoken]
    rfl

theorem cutsInto_null : CutsInto "null".toList [.null] :=
  cutsInto_word rfl rfl rfl

theorem cutsInto_true : CutsInto "true".toList [.bool true] :=
  cutsInto_word rfl rfl rfl

theorem cutsInto_false : CutsInto "false".toList [.bool false] :=
  cutsInto_word rfl rfl rfl

/-- The parts of an integer: a sign and digits. -/
def integerParts (negative : Bool) (n : Nat) : Numeral :=
  ⟨negative, Nat.toDigits 10 n, [], none⟩

theorem isDigit_of_mem_toDigits {n : Nat} {c : Char} (h : c ∈ Nat.toDigits 10 n) : c.isDigit = true :=
  Nat.isDigit_of_mem_toDigits (by decide) (by decide) h

theorem ofChars?_integer (negative : Bool) (n : Nat) :
    Numeral.ofChars? ((if negative then ['-'] else []) ++ Nat.toDigits 10 n) = some (integerParts negative n) := by
  have hwhole : (Nat.toDigits 10 n).takeWhile Char.isDigit = Nat.toDigits 10 n :=
    List.takeWhile_eq_self_iff.mpr fun _ => isDigit_of_mem_toDigits
  have hcheck : ¬ ((Nat.toDigits 10 n).isEmpty = true ∨
      (Nat.toDigits 10 n).head? = some '0' ∧ (Nat.toDigits 10 n).length > 1) := by
    rintro (hempty | ⟨hzero, hlong⟩)
    · exact Nat.toDigits_ne_nil (List.isEmpty_iff.mp hempty)
    · rcases Nat.eq_zero_or_pos n with rfl | hpos
      · exact absurd hlong (by decide)
      · exact EthWire.Numeral.head?_toDigits_ne hpos hzero
  cases negative with
  | true =>
    rw [if_pos rfl, List.singleton_append, Numeral.ofChars?]
    simp only [hwhole, if_neg hcheck, List.drop_length]
    rfl
  | false =>
    have hminus : ∀ rest, Nat.toDigits 10 n ≠ '-' :: rest := by
      intro rest hdigits
      have hdigit : '-'.isDigit = true := isDigit_of_mem_toDigits (hdigits ▸ List.mem_cons_self)
      cases hdigit
    rw [if_neg Bool.false_ne_true, List.nil_append, Numeral.ofChars?]
    · simp only [hwhole, if_neg hcheck, List.drop_length]
      rfl
    · exact hminus

theorem begin?_of_isDigit {c : Char} (h : c.isDigit = true) : begin? c = some ([], .number [c]) := by
  have hother : ∀ d : Char, d.isDigit = false → c ≠ d := by
    rintro d hd rfl
    rw [h] at hd
    cases hd
  have hblank : ¬ (c = ' ' ∨ c = '\t' ∨ c = '\n' ∨ c = '\r') := by
    simp [hother]
  rw [begin?, if_neg hblank, if_neg (hother _ rfl), if_neg (hother _ rfl), if_neg (hother _ rfl),
    if_neg (hother _ rfl), if_neg (hother _ rfl), if_neg (hother _ rfl), if_neg (hother _ rfl), if_pos (.inl h)]

theorem cutsInto_number {first : Char} {digits : List Char} {number : Numeral}
    (hfirst : begin? first = some ([], .number [first])) (hdigits : ∀ c ∈ digits, c.isDigit = true)
    (hnumber : Numeral.ofChars? (first :: digits) = some number) : CutsInto (first :: digits) [.number number] := by
  refine cutsInto_run hfirst (fun c hc chars => ?_) (fun chars c hc => ?_) ?_
  · rw [step?, if_pos (.inl (hdigits c hc))]
  · rcases hc with rfl | rfl | rfl <;> rfl
  · rw [flush?, List.reverse_reverse, hnumber]
    rfl

/-- An integer is one token. -/
theorem cutsInto_integer (negative : Bool) (n : Nat) :
    CutsInto ((if negative then ['-'] else []) ++ Nat.toDigits 10 n) [.number (integerParts negative n)] := by
  have hparts := ofChars?_integer negative n
  cases negative with
  | true => exact cutsInto_number rfl (fun _ => isDigit_of_mem_toDigits) hparts
  | false =>
    obtain ⟨c, rest, hdigits⟩ := List.exists_cons_of_ne_nil (Nat.toDigits_ne_nil (b := 10) (n := n))
    have hall : ∀ d ∈ c :: rest, d.isDigit = true := fun _ hd => isDigit_of_mem_toDigits (hdigits ▸ hd)
    rw [if_neg Bool.false_ne_true, List.nil_append, hdigits] at hparts ⊢
    exact cutsInto_number (begin?_of_isDigit (hall c List.mem_cons_self))
      (fun d hd => hall d (List.mem_cons_of_mem c hd)) hparts

/-! ### Lists and objects -/

/-- Texts with commas in between are cut into their tokens with commas in between. -/
theorem cutsInto_intercalate : ∀ {rows : List (List Char × List Token)}, (∀ row ∈ rows, CutsInto row.1 row.2) →
    CutsInto ([','].intercalate (rows.map (·.1))) ([.comma].intercalate (rows.map (·.2)))
  | [], _ => fun rest _ => by simp
  | [row], h => by
    rw [List.map_singleton, List.map_singleton, List.intercalate_singleton, List.intercalate_singleton]
    exact h row List.mem_cons_self
  | row :: next :: rows, h => by
    obtain ⟨hrow, hrows⟩ := List.forall_mem_cons.mp h
    have hlater := cutsInto_intercalate hrows
    intro rest hrest
    have hcomma : ∀ others, IsDelimited (',' :: others) := fun others c hc => .inl (Option.some.inj hc).symm
    have hstep : step? .between ',' = some ([.comma], .between) := rfl
    rw [List.map_cons, List.map_cons] at hlater ⊢
    rw [List.map_cons, List.map_cons, List.intercalate_cons_cons, List.intercalate_cons_cons, List.append_assoc,
      List.append_assoc, List.singleton_append, hrow _ (hcomma _), tokensFrom?_of_token hstep, hlater rest hrest]
    simp [Function.comp_def]

theorem cutsInto_bracketed {opening closing : Char} {first last : Token} {text : List Char} {tokens : List Token}
    (hopening : step? .between opening = some ([first], .between))
    (hclosing : step? .between closing = some ([last], .between)) (hends : closing = ']' ∨ closing = '\x7d')
    (h : CutsInto text tokens) : CutsInto (opening :: (text ++ [closing])) (first :: (tokens ++ [last])) := by
  intro rest _
  have hdelimited : IsDelimited (closing :: rest) := by
    intro c hc
    obtain rfl := Option.some.inj hc
    exact .inr hends
  rw [List.cons_append, tokensFrom?_of_token hopening, List.append_assoc, List.singleton_append, h _ hdelimited,
    tokensFrom?_of_token hclosing]
  simp [Function.comp_def]

/-- The tokens of a list are those of its items with commas in between, in brackets. -/
theorem cutsInto_list {rows : List (String × List Token)} (h : ∀ row ∈ rows, CutsInto row.1.toList row.2) :
    CutsInto (listText (rows.map (·.1))).toList
      (.openList :: ([.comma].intercalate (rows.map (·.2)) ++ [.closeList])) := by
  have hitems : ∀ row ∈ rows.map fun row => (row.1.toList, row.2), CutsInto row.1 row.2 := by
    intro row hrow
    obtain ⟨item, hitem, rfl⟩ := List.mem_map.mp hrow
    exact h item hitem
  have hcut := cutsInto_bracketed (rfl : step? .between '[' = some ([.openList], .between)) rfl (.inl rfl)
    (cutsInto_intercalate hitems)
  rw [List.map_map, List.map_map] at hcut
  simpa [listText, commaList, String.toList_intercalate, Function.comp_def] using hcut

/-- The tokens of an object are those of its members, each with its key and a colon in front. -/
theorem cutsInto_object {rows : List ((String × String) × List Token)}
    (h : ∀ row ∈ rows, CutsInto row.1.2.toList row.2) :
    CutsInto (objectText (rows.map (·.1))).toList (.openObject ::
      ([.comma].intercalate (rows.map fun row => .string (codesOf row.1.1) :: .colon :: row.2) ++ [.closeObject])) := by
  have hmembers : ∀ row ∈ rows.map fun row => ((quote row.1.1).toList ++ ':' :: row.1.2.toList,
      .string (codesOf row.1.1) :: .colon :: row.2), CutsInto row.1 row.2 := by
    intro member hmember rest hrest
    obtain ⟨row, hrow, rfl⟩ := List.mem_map.mp hmember
    have hcolon : step? .between ':' = some ([.colon], .between) := rfl
    rw [List.append_assoc, tokensFrom?_quote, List.cons_append, tokensFrom?_of_token hcolon, h row hrow rest hrest]
    simp [Function.comp_def]
  have hcut := cutsInto_bracketed (rfl : step? .between '\x7b' = some ([.openObject], .between)) rfl (.inr rfl)
    (cutsInto_intercalate hmembers)
  rw [List.map_map, List.map_map] at hcut
  simpa [objectText, commaList, String.toList_intercalate, Function.comp_def] using hcut

end Json
end EthWire
