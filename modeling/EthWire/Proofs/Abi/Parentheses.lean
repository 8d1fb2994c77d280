/-
# Balanced texts

The readers of types go over a text character by character and count how many parentheses are open. In front of
a text that closes what it opens, such a count comes out behind it as it went in: it neither ends at a
parenthesis in it nor is cut at one of its commas, unless the comma stands outside of all parentheses
(`Abi.Balanced`). So a list of balanced pieces in parentheses is found again as it was.

Key definitions: `Abi.Balanced`.
Key theorems: `Abi.closeParen?_append`, `Abi.splitTopLevel?_append`, `Abi.splitTopLevel?_intercalate`,
`Abi.intercalate_of_splitTopLevel?`.
-/
import EthWire.Abi.KindReader

namespace EthWire
namespace Abi

/-- Every parenthesis in the text is closed in it, and only what was opened in it is. Whether commas may stand
outside of all parentheses is given. -/
inductive Balanced : Bool → List Char → Prop where
  | nil {commas : Bool} : Balanced commas []
  | plain {commas : Bool} {c : Char} {text : List Char} (ne_open : c ≠ '(') (ne_close : c ≠ ')')
      (ne_comma : c ≠ ',') (rest : Balanced commas text) : Balanced commas (c :: text)
  | comma {text : List Char} (rest : Balanced true text) : Balanced true (',' :: text)
  | parens {commas : Bool} {inside text : List Char} (enclosed : Balanced true inside)
      (rest : Balanced commas text) : Balanced commas ('(' :: (inside ++ ')' :: text))

namespace Balanced

variable {commas : Bool} {text other : List Char}

theorem of_plain (h : ∀ c ∈ text, c ≠ '(' ∧ c ≠ ')' ∧ c ≠ ',') : Balanced commas text := by
  induction text with
  | nil => exact .nil
  | cons c text ih =>
    obtain ⟨⟨hopen, hclose, hcomma⟩, htext⟩ := List.forall_mem_cons.mp h
    exact .plain hopen hclose hcomma (ih htext)

theorem append (h : Balanced commas text) (h' : Balanced commas other) : Balanced commas (text ++ other) := by
  induction h with
  | nil => exact h'
  | plain hopen hclose hcomma _ ih => exact .plain hopen hclose hcomma (ih h')
  | comma _ ih => exact .comma (ih h')
  | parens hinside _ _ ih =>
    rw [List.cons_append, List.append_assoc, List.cons_append]
    exact .parens hinside (ih h')

theorem withCommas (h : Balanced commas text) : Balanced true text := by
  induction h with
  | nil => exact .nil
  | plain hopen hclose hcomma _ ih => exact .plain hopen hclose hcomma ih
  | comma _ ih => exact .comma ih
  | parens hinside _ _ ih => exact .parens hinside ih

theorem intercalate : ∀ {pieces : List (List Char)}, (∀ piece ∈ pieces, Balanced true piece) →
    Balanced true ([','].intercalate pieces)
  | [], _ => .nil
  | [piece], h => by
    rw [List.intercalate_singleton]
    exact h piece List.mem_cons_self
  | piece :: next :: pieces, h => by
    obtain ⟨hpiece, hothers⟩ := List.forall_mem_cons.mp h
    rw [List.intercalate_cons_cons, List.append_assoc]
    exact hpiece.append (.comma (intercalate hothers))

end Balanced

/-! ### Closing parentheses -/

theorem closeParen?_append {commas : Bool} {text : List Char} (h : Balanced commas text) (depth : Nat)
    (rest : List Char) :
    closeParen? depth (text ++ rest) = (closeParen? depth rest).map fun cut => (text ++ cut.1, cut.2) := by
  induction h generalizing depth rest with
  | nil => simp
  | plain hopen hclose _ _ ih =>
    rw [List.cons_append, closeParen?, if_neg (by simp [hclose])]
    simp only [if_neg hopen, if_neg hclose, ih, Option.map_map]
    rfl
  | comma _ ih =>
    rw [List.cons_append, closeParen?, if_neg (by simp)]
    simp [ih, Function.comp_def]
  | @parens _ inside text _ _ ihInside ih =>
    rw [List.cons_append, List.append_assoc, closeParen?, if_neg (by simp)]
    simp only [reduceIte]
    rw [ihInside, List.cons_append, closeParen?, if_neg (by simp)]
    simp [ih, Function.comp_def]

/-- A balanced text in parentheses is found again. -/
theorem closeParen?_of_balanced {commas : Bool} {inside : List Char} (h : Balanced commas inside)
    (behind : List Char) : closeParen? 0 (inside ++ ')' :: behind) = some (inside, behind) := by
  rw [closeParen?_append h, closeParen?, if_pos ⟨rfl, rfl⟩]
  simp

/-- What is cut at a parenthesis stands around it. -/
theorem eq_append_of_closeParen? {depth : Nat} {text inside behind : List Char}
    (h : closeParen? depth text = some (inside, behind)) : text = inside ++ ')' :: behind := by
  induction text generalizing depth inside with
  | nil => cases h
  | cons c rest ih =>
    rw [closeParen?] at h
    split at h
    · rename_i hc
      obtain ⟨rfl, rfl⟩ := Prod.mk.inj (Option.some.inj h)
      rw [hc.1]
      rfl
    · obtain ⟨cut, hcut, heq⟩ := Option.map_eq_some_iff.mp h
      obtain ⟨rfl, rfl⟩ := Prod.mk.inj heq
      rw [ih hcut]
      rfl

/-! ### Lists -/

/-- A balanced text belongs to the piece that it stands in front of. -/
theorem splitTopLevel?_append {commas : Bool} {text : List Char} (h : Balanced commas text) {depth : Nat}
    (hdepth : commas = true → 0 < depth) {rest piece : List Char} {pieces : List (List Char)}
    (hrest : splitTopLevel? depth rest = some (piece :: pieces)) :
    splitTopLevel? depth (text ++ rest) = some ((text ++ piece) :: pieces) := by
  induction h generalizing depth rest piece pieces with
  | nil => exact hrest
  | plain hopen hclose hcomma _ ih =>
    rw [List.cons_append, splitTopLevel?, if_neg (by simp [hcomma]), if_neg (by simp [hclose])]
    simp only [if_neg hopen, if_neg hclose, ih hdepth hrest, List.cons_append]
  | comma _ ih =>
    have hne : depth ≠ 0 := Nat.ne_of_gt (hdepth rfl)
    rw [List.cons_append, splitTopLevel?, if_neg (by simp [hne]), if_neg (by simp)]
    simp [ih hdepth hrest]
  | @parens _ inside text _ _ ihInside ih =>
    have hclosed : splitTopLevel? (depth + 1) (')' :: (text ++ rest)) = some ((')' :: (text ++ piece)) :: pieces) := by
      rw [splitTopLevel?, if_neg (by simp), if_neg (by simp)]
      simp [ih hdepth hrest]
    rw [List.cons_append, List.append_assoc, splitTopLevel?, if_neg (by simp), if_neg (by simp)]
    simp only [reduceIte]
    rw [List.cons_append, ihInside (fun _ => Nat.succ_pos depth) hclosed]
    simp

theorem splitTopLevel?_of_balanced {text : List Char} (h : Balanced false text) :
    splitTopLevel? 0 text = some [text] := by
  have hnothing : splitTopLevel? 0 [] = some [[]] := rfl
  have hsplit := splitTopLevel?_append h (by simp) hnothing
  rwa [List.append_nil] at hsplit

/-- Balanced pieces with commas between them are found again. -/
theorem splitTopLevel?_intercalate : ∀ {pieces : List (List Char)}, pieces ≠ [] →
    (∀ piece ∈ pieces, Balanced false piece) → splitTopLevel? 0 ([','].intercalate pieces) = some pieces
  | [], hne, _ => absurd rfl hne
  | [piece], _, h => by
    rw [List.intercalate_singleton]
    exact splitTopLevel?_of_balanced (h piece List.mem_cons_self)
  | piece :: next :: pieces, _, h => by
    obtain ⟨hpiece, hothers⟩ := List.forall_mem_cons.mp h
    have hbehind : splitTopLevel? 0 (',' :: [','].intercalate (next :: pieces)) = some ([] :: next :: pieces) := by
      rw [splitTopLevel?, if_pos ⟨rfl, rfl⟩, splitTopLevel?_intercalate (List.cons_ne_nil _ _) hothers]
      rfl
    have hsplit := splitTopLevel?_append hpiece (by simp) hbehind
    rw [List.append_nil] at hsplit
    rw [List.intercalate_cons_cons, List.append_assoc]
    exact hsplit

theorem intercalate_of_splitTopLevel? {depth : Nat} {text : List Char} {pieces : List (List Char)}
    (h : splitTopLevel? depth text = some pieces) : pieces ≠ [] ∧ [','].intercalate pieces = text := by
  induction text generalizing depth pieces with
  | nil =>
    cases depth with
    | zero =>
      obtain rfl := Option.some.inj h
      exact ⟨List.cons_ne_nil _ _, rfl⟩
    | succ depth => cases h
  | cons c rest ih =>
    rw [splitTopLevel?] at h
    split at h
    · rename_i hc
      obtain ⟨others, hothers, rfl⟩ := Option.map_eq_some_iff.mp h
      obtain ⟨hne, hrest⟩ := ih hothers
      obtain ⟨first, others, rfl⟩ := List.exists_cons_of_ne_nil hne
      refine ⟨List.cons_ne_nil _ _, ?_⟩
      rw [List.intercalate_cons_cons, hrest, hc.1]
      rfl
    · split at h
      · cases h
      · simp only at h
        split at h
        · rename_i first others hfirst
          obtain rfl := Option.some.inj h
          obtain ⟨-, hrest⟩ := ih hfirst
          refine ⟨List.cons_ne_nil _ _, ?_⟩
          cases others with
          | nil =>
            rw [List.intercalate_singleton] at hrest ⊢
            rw [hrest]
          | cons next others =>
            rw [List.intercalate_cons_cons] at hrest ⊢
            rw [List.cons_append, List.cons_append, hrest]
        · cases h

end Abi
end EthWire
