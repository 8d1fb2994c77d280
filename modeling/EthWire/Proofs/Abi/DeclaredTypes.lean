/-
# Types in definitions

The type of a declared input is read by another reader than a type text. That one takes the first word of a
declaration, or what stands in parentheses and the characters of array suffixes directly behind them. So it stops
where the reader of type texts goes on over a blank. If it stops inside of a bracket it fails. If it stops in
front of one, it has read the type with the suffixes up to there, and those behind the blank count as names or
modifiers (`Abi.HasGap`).

Of a type text that other reader therefore reads the type itself, or the type without some of its suffixes, or
nothing (`Abi.keeps_of_inputKind`). Where suffixes are lost, the canonical text of the definition is shorter than
that of the type.

Key definitions: `Abi.HasGap`, `Abi.Suffixes`, `Abi.Core`, `Abi.Keeps`.
Key theorems: `Abi.Spells.exists_core`, `Abi.Suffixes.takeWhile_cases`, `Abi.keeps_of_inputKind`,
`Abi.definition_keeps_type_text_iff`.
-/
import EthWire.Proofs.Abi.TypeGrammar
import EthWire.Proofs.Text.Numeral

namespace EthWire
namespace Abi

open Text

/-! ### Gaps -/

/-- A blank stands directly in front of an opening bracket. -/
def HasGap (text : List Char) : Prop :=
  ∃ blank, isBlank blank = true ∧ [blank, '['] <:+: text

theorem not_hasGap_nil : ¬ HasGap [] := by
  rintro ⟨blank, -, hinfix⟩
  cases List.eq_nil_of_infix_nil hinfix

theorem hasGap_cons_iff {c : Char} {text : List Char} :
    HasGap (c :: text) ↔ (isBlank c = true ∧ text.head? = some '[') ∨ HasGap text := by
  have hbracket : ['['] <+: text ↔ text.head? = some '[' := by
    cases text <;> simp [eq_comm]
  simp only [HasGap, List.infix_cons_iff, List.cons_prefix_cons, hbracket]
  constructor
  · rintro ⟨blank, hblank, ⟨rfl, hhead⟩ | hinfix⟩
    · exact .inl ⟨hblank, hhead⟩
    · exact .inr ⟨blank, hblank, hinfix⟩
  · rintro (⟨hblank, hhead⟩ | ⟨blank, hblank, hinfix⟩)
    · exact ⟨c, hblank, .inl ⟨rfl, hhead⟩⟩
    · exact ⟨blank, hblank, .inr hinfix⟩

instance decidableHasGap : ∀ text : List Char, Decidable (HasGap text)
  | [] => isFalse not_hasGap_nil
  | c :: text =>
    have := decidableHasGap text
    decidable_of_iff _ (hasGap_cons_iff (c := c)).symm

theorem mem_of_hasGap {text : List Char} (h : HasGap text) : '[' ∈ text := by
  obtain ⟨blank, -, hinfix⟩ := h
  exact hinfix.subset (by simp)

/-- A character that is neither a blank nor a bracket parts the gaps in front of it from those behind. -/
theorem hasGap_append_cons_iff {front behind : List Char} {c : Char} (hblank : isBlank c = false) (hc : c ≠ '[') :
    HasGap (front ++ c :: behind) ↔ HasGap front ∨ HasGap behind := by
  induction front with
  | nil => simp [hasGap_cons_iff, hblank, not_hasGap_nil]
  | cons x front ih =>
    have hhead : (front ++ c :: behind).head? = some '[' ↔ front.head? = some '[' := by
      cases front <;> simp [hc]
    rw [List.cons_append, hasGap_cons_iff, hasGap_cons_iff, ih, hhead, or_assoc]

/-- A text that ends in no blank and holds no bracket has no part in a gap. -/
theorem hasGap_append_iff {front behind : List Char} (hlast : ∃ c, front.getLast? = some c ∧ isBlank c = false)
    (hopen : '[' ∉ front) : HasGap (front ++ behind) ↔ HasGap behind := by
  induction front with
  | nil =>
    obtain ⟨c, hc, -⟩ := hlast
    cases hc
  | cons x front ih =>
    obtain ⟨hx, hfront⟩ := List.ne_and_not_mem_of_not_mem_cons hopen
    obtain ⟨c, hc, hblank⟩ := hlast
    cases front with
    | nil =>
      obtain rfl : x = c := Option.some.inj hc
      rw [List.singleton_append, hasGap_cons_iff, hblank]
      simp
    | cons y front =>
      have hy : y ≠ '[' := fun hy => hfront (by simp [hy])
      rw [List.cons_append, hasGap_cons_iff, ih ⟨c, by simpa using hc, hblank⟩ hfront]
      simp [hy]

theorem hasGap_intercalate_iff : ∀ {pieces : List (List Char)},
    HasGap ([','].intercalate pieces) ↔ ∃ piece ∈ pieces, HasGap piece
  | [] => by simp [not_hasGap_nil]
  | [piece] => by simp
  | piece :: next :: pieces => by
    rw [List.intercalate_cons_cons, List.append_assoc, List.singleton_append,
      hasGap_append_cons_iff rfl (by decide), hasGap_intercalate_iff]
    simp only [List.mem_cons, exists_eq_or_imp]

/-! ### Suffixes behind a type -/

/-- The text consists of array suffixes of the lengths, from left to right, and blanks between them. -/
inductive Suffixes : List Char → List (Option Nat) → Prop where
  | nil : Suffixes [] []
  | blank {c : Char} {text : List Char} {lengths : List (Option Nat)} (blank : isBlank c = true)
      (rest : Suffixes text lengths) : Suffixes (c :: text) lengths
  | suffix {size text : List Char} {length : Option Nat} {lengths : List (Option Nat)}
      (size_eq : sizeOf? size = some length) (rest : Suffixes text lengths) :
      Suffixes ('[' :: (size ++ ']' :: text)) (length :: lengths)

/-- A name or a list of types: what suffixes can stand behind. -/
inductive Core : List Char → Kind → Prop where
  | name {text : List Char} {kind : Kind} (named : Kind.ofName? text = some kind) : Core text kind
  | tuple {keyword inside : List Char} {members : List (List Char × Kind)}
      (keyword_eq : keyword = [] ∨ keyword = "tuple".toList) (list : Lists inside (members.map (·.1)))
      (each : ∀ member ∈ members, Spells member.1 member.2) :
      Core (keyword ++ '(' :: (inside ++ [')'])) (.tuple (members.map (·.2)))

namespace Suffixes

variable {text other : List Char} {lengths others : List (Option Nat)}

theorem append (h : Suffixes text lengths) (h' : Suffixes other others) :
    Suffixes (text ++ other) (lengths ++ others) := by
  induction h with
  | nil => exact h'
  | blank hblank _ ih => exact .blank hblank ih
  | suffix hsize _ ih =>
    rw [List.cons_append, List.append_assoc, List.cons_append]
    exact .suffix hsize ih

theorem of_isBlanks (h : IsBlanks text) : Suffixes text [] := by
  induction text with
  | nil => exact .nil
  | cons c rest ih =>
    obtain ⟨hc, hrest⟩ := List.forall_mem_cons.mp h
    exact .blank hc (ih hrest)

theorem not_mem_paren (h : Suffixes text lengths) : '(' ∉ text := by
  induction h with
  | nil => simp
  | @blank c text lengths hblank _ ih =>
    rw [List.mem_cons, not_or]
    exact ⟨(ne_paren_of_isBlank hblank).1.symm, ih⟩
  | @suffix size text length lengths hsize _ ih =>
    have hparen : '(' ∉ size := not_mem_of_sizeOf? rfl rfl hsize
    simp [hparen, ih]

theorem suffixesFrom?_eq (h : Suffixes text lengths) (hblank : ∀ c ∈ text, isBlank c = false) :
    suffixesFrom? none text = some lengths := by
  induction h with
  | nil => rfl
  | @blank c text lengths hc _ _ =>
    rw [hblank c List.mem_cons_self] at hc
    cases hc
  | @suffix size text length lengths hsize _ ih =>
    rw [suffixesFrom?_of_sizeOf? hsize, ih fun c hc => hblank c (by simp [hc])]
    rfl

theorem of_suffixesFrom? {text : List Char} {lengths : List (Option Nat)}
    (h : suffixesFrom? none text = some lengths) : Suffixes text lengths := by
  cases text with
  | nil =>
    obtain rfl := Option.some.inj h
    exact .nil
  | cons c text =>
    rw [suffixesFrom?] at h
    split at h
    · rename_i hc
      obtain ⟨size, rest, length, others, rfl, hlength, hothers, rfl⟩ := exists_first_of_suffixesFrom? h
      rw [hc]
      exact .suffix hlength (of_suffixesFrom? hothers)
    · cases h
termination_by text.length
decreasing_by
  simp only [*, List.length_cons, List.length_append]
  omega

theorem getLast?_eq (h : Suffixes text lengths) (hblank : ∀ c ∈ text, isBlank c = false) (hne : text ≠ []) :
    text.getLast? = some ']' := by
  induction h with
  | nil => exact absurd rfl hne
  | @blank c text lengths hc _ _ =>
    rw [hblank c List.mem_cons_self] at hc
    cases hc
  | @suffix size text length lengths _ hrest ih =>
    by_cases htext : text = []
    · simp [htext, List.getLast?_cons, List.getLast?_append]
    · simp [List.getLast?_cons, List.getLast?_append, ih (fun c hc => hblank c (by simp [hc])) htext]

theorem hasGap_cons_iff {c : Char} (h : Suffixes text lengths) (hc : isBlank c = true) :
    HasGap (c :: text) ↔ lengths ≠ [] := by
  induction h generalizing c with
  | nil => simp [Abi.hasGap_cons_iff, not_hasGap_nil]
  | @blank d text lengths hd _ ih =>
    have hne : d ≠ '[' := by
      rintro rfl
      cases hd
    rw [Abi.hasGap_cons_iff, ih hd]
    simp [hne]
  | suffix _ _ _ => simp [Abi.hasGap_cons_iff, hc]

/-- A reader of suffixes that stops at blanks takes some of the suffixes and leaves the others behind a gap, or
it stops inside of a bracket. -/
theorem takeWhile_cases {p : Char → Bool} (hopen : p '[' = true) (hclose : p ']' = true)
    (hblank : ∀ c, isBlank c = true → p c = false) (h : Suffixes text lengths) :
    ('[' ∈ text.takeWhile p ∧ ∃ c, (text.takeWhile p).getLast? = some c ∧ c ≠ ']' ∧ c ≠ ')') ∨
      ∃ taken left, lengths = taken ++ left ∧ Suffixes (text.takeWhile p) taken ∧ (HasGap text ↔ left ≠ []) := by
  induction h with
  | nil => exact .inr ⟨[], [], rfl, .nil, by simp [not_hasGap_nil]⟩
  | @blank c text lengths hc hrest _ =>
    rw [List.takeWhile_cons_of_neg (by simp [hblank c hc])]
    exact .inr ⟨[], lengths, rfl, .nil, hrest.hasGap_cons_iff hc⟩
  | @suffix size text length lengths hsize hrest ih =>
    have hopen' : '[' ∉ size := not_mem_of_sizeOf? rfl rfl hsize
    rw [List.takeWhile_cons_of_pos hopen]
    by_cases hall : ∀ c ∈ size, p c = true
    · rw [List.takeWhile_append_of_pos hall, List.takeWhile_cons_of_pos hclose]
      rcases ih with ⟨hmem, c, hlast, hc⟩ | ⟨taken, left, rfl, htaken, hgap⟩
      · refine .inl ⟨List.mem_cons_self, c, ?_, hc⟩
        simp [List.getLast?_cons, List.getLast?_append, hlast]
      · refine .inr ⟨length :: taken, left, rfl, .suffix hsize htaken, ?_⟩
        rw [← hgap, ← List.cons_append, hasGap_append_cons_iff rfl (by decide), or_iff_right]
        rw [Abi.hasGap_cons_iff]
        rintro (⟨hbracket, -⟩ | hgap)
        · cases hbracket
        · exact hopen' (mem_of_hasGap hgap)
    · -- The reader stops behind the opening bracket or inside of the length.
      have hshort : (size ++ ']' :: text).takeWhile p = size.takeWhile p := by
        rw [List.takeWhile_append, if_neg]
        intro hlength
        have hself := (List.takeWhile_prefix p).eq_of_length hlength
        exact hall (List.takeWhile_eq_self_iff.mp hself)
      rw [hshort]
      refine .inl ⟨List.mem_cons_self, ?_⟩
      rw [List.getLast?_cons]
      refine ⟨_, rfl, ?_⟩
      cases hlast : (size.takeWhile p).getLast? with
      | none => exact ⟨by decide, by decide⟩
      | some c =>
        have hc : c ∈ size := (List.takeWhile_prefix p).subset (List.mem_of_getLast? hlast)
        rw [Option.getD_some]
        constructor
        · rintro rfl
          exact not_mem_of_sizeOf? rfl rfl hsize hc
        · rintro rfl
          exact not_mem_of_sizeOf? rfl rfl hsize hc

end Suffixes

/-! ### Readers that stop -/

theorem takeWhile_trimEnd {p : Char → Bool} (hblank : ∀ c, isBlank c = true → p c = false) (text : List Char) :
    (trimEnd text).takeWhile p = text.takeWhile p := by
  have hsplit := List.takeWhile_append_dropWhile (p := isBlank) (l := text.reverse)
  have htext : text = trimEnd text ++ (text.reverse.takeWhile isBlank).reverse := by
    rw [trimEnd, ← List.reverse_append, hsplit, List.reverse_reverse]
  have hbehind : (text.reverse.takeWhile isBlank).reverse.takeWhile p = [] := by
    have hblanks : IsBlanks (text.reverse.takeWhile isBlank).reverse :=
      IsBlanks.reverse (List.all_eq_true.mp List.all_takeWhile)
    cases hcases : (text.reverse.takeWhile isBlank).reverse with
    | nil => rfl
    | cons c rest =>
      rw [hcases] at hblanks
      exact List.takeWhile_cons_of_neg (by simp [hblank c (hblanks c List.mem_cons_self)])
  conv => rhs; rw [htext, List.takeWhile_append, hbehind, List.append_nil]
  split
  · rename_i hlength
    exact (List.takeWhile_prefix p).eq_of_length hlength
  · rfl

/-- The first word ends at the first blank. -/
theorem exists_words {c : Char} {rest : List Char} (hc : isBlank c = false) :
    ∃ others, words (c :: rest) = (c :: rest).takeWhile (!isBlank ·) :: others := by
  have hfirst : ∀ text : List Char, ∃ others, splitWhere isBlank text = text.takeWhile (!isBlank ·) :: others := by
    intro text
    induction text with
    | nil => exact ⟨[], rfl⟩
    | cons x text ih =>
      obtain ⟨others, hothers⟩ := ih
      rw [splitWhere, hothers]
      cases hx : isBlank x with
      | true => exact ⟨_, by rw [List.takeWhile_cons_of_neg (by simp [hx])]⟩
      | false => exact ⟨others, by rw [List.takeWhile_cons_of_pos (by simp [hx])]⟩
  obtain ⟨others, hothers⟩ := hfirst (c :: rest)
  rw [words, hothers, List.filter_cons_of_pos]
  · exact ⟨_, rfl⟩
  · rw [List.takeWhile_cons_of_pos (by simp [hc])]
    rfl

theorem trim_append_of_ends {front core : List Char} (hfront : IsBlanks front)
    (hhead : ∃ c, core.head? = some c ∧ isBlank c = false)
    (hlast : ∀ c, core.getLast? = some c → isBlank c = false) (tail : List Char) :
    trim (front ++ (core ++ tail)) = core ++ trimEnd tail := by
  obtain ⟨c, hc, hblank⟩ := hhead
  obtain ⟨rest, rfl⟩ : ∃ rest, core = c :: rest := by
    cases core with
    | nil => cases hc
    | cons x rest => exact ⟨rest, by rw [Option.some.inj hc]⟩
  rw [trim_isBlanks_append hfront, trim, trimStart, List.cons_append, List.dropWhile_cons_of_neg (by simp [hblank]),
    ← List.cons_append, trimEnd, List.reverse_append, List.dropWhile_append]
  have hcore : (c :: rest).reverse.dropWhile isBlank = (c :: rest).reverse :=
    dropWhile_isBlank_of_head? (by rwa [List.head?_reverse])
  split
  · rename_i hempty
    rw [hcore, List.reverse_reverse, trimEnd, List.isEmpty_iff.mp hempty, List.reverse_nil, List.append_nil]
  · rw [List.reverse_append, List.reverse_reverse, trimEnd]

/-! ### A type text in parts -/

theorem Spells.append_suffixes {text tail : List Char} {kind : Kind} {lengths : List (Option Nat)}
    (htail : Suffixes tail lengths) (h : Spells text kind) :
    Spells (text ++ tail) (lengths.foldl Kind.arrayOf kind) := by
  induction htail generalizing text kind with
  | nil => rwa [List.append_nil]
  | @blank c tail lengths hc _ ih =>
    have hpadded : Spells (text ++ [c]) kind :=
      @Spells.padded [] text [c] kind (by simp [IsBlanks]) (by simpa [IsBlanks] using hc) h
    simpa using ih hpadded
  | @suffix size tail length lengths hsize _ ih =>
    have hnext := ih (.array h hsize)
    simpa using hnext

/-- A type text is a name or a list of types, with suffixes behind it. -/
theorem Spells.exists_core {text : List Char} {kind : Kind} (h : Spells text kind) :
    ∃ front core tail base lengths, IsBlanks front ∧ Core core base ∧ Suffixes tail lengths ∧
      text = front ++ (core ++ tail) ∧ kind = lengths.foldl Kind.arrayOf base := by
  induction h with
  | @name text kind named => exact ⟨[], text, [], kind, [], by simp [IsBlanks], .name named, .nil, by simp, rfl⟩
  | tuple keyword_eq list each _ =>
    exact ⟨[], _, [], _, [], by simp [IsBlanks], .tuple keyword_eq list each, .nil, by simp, rfl⟩
  | @array text size elem length _ size_eq ih =>
    obtain ⟨front, core, tail, base, lengths, hfront, hcore, htail, rfl, rfl⟩ := ih
    refine ⟨front, core, tail ++ '[' :: (size ++ [']']), base, lengths ++ [length], hfront, hcore,
      htail.append (.suffix size_eq .nil), ?_, ?_⟩
    · simp only [List.append_assoc]
    · rw [List.foldl_append]
      rfl
  | @padded before text behind kind before_blank behind_blank _ ih =>
    obtain ⟨front, core, tail, base, lengths, hfront, hcore, htail, rfl, rfl⟩ := ih
    refine ⟨before ++ front, core, tail ++ behind, base, lengths, ?_, hcore, ?_, ?_, rfl⟩
    · exact List.forall_mem_append.mpr ⟨before_blank, hfront⟩
    · have happend := htail.append (.of_isBlanks behind_blank)
      rwa [List.append_nil] at happend
    · simp only [List.append_assoc]

theorem inputKind_of_list {declaration inside behind : List Char} {pieces : List (List Char)}
    (hafter : Kind.afterTuple (trim declaration) = '(' :: (inside ++ ')' :: behind))
    (hinside : Balanced true inside) (hpieces : declarations? inside = some pieces) :
    inputKind declaration = (do
      let members ← pieces.mapM inputKind
      (Kind.tuple members).withSuffix (behind.takeWhile isSuffixChar)) := by
  rw [inputKind]
  simp only
  split
  · rename_i rest hrest
    rw [hafter, List.cons.injEq] at hrest
    obtain rfl := hrest.2
    split
    · rename_i hnone
      rw [closeParen?_of_balanced hinside] at hnone
      cases hnone
    · rename_i inside' behind' hclose
      rw [closeParen?_of_balanced hinside, Option.some.injEq, Prod.mk.injEq] at hclose
      obtain ⟨rfl, rfl⟩ := hclose
      rw [declarations?] at hpieces
      split
      · rename_i hempty
        rw [if_pos hempty, Option.some.injEq] at hpieces
        subst hpieces
        rfl
      · rename_i hsome
        rw [if_neg hsome] at hpieces
        split
        · rename_i pieces' hsplit
          rw [hpieces, Option.some.injEq] at hsplit
          subst hsplit
          rw [← mapM_attach inputKind pieces]
        · rename_i hnone
          rw [hpieces] at hnone
          cases hnone
  · rename_i hne
    exact absurd hafter (hne _)

/-! ### Types that lose suffixes -/

/-- The type that was read is the one that was spelled, unless there is a gap; then its text is shorter. -/
structure Keeps (gap : Prop) (read kind : Kind) : Prop where
  length_le : read.text.length ≤ kind.text.length
  length_lt : gap → read.text.length < kind.text.length
  eq : ¬ gap → read = kind

/-- A suffix lengthens the text of a type, and that of every type alike. -/
theorem exists_length_text_arrayOf (length : Option Nat) :
    ∃ n, 0 < n ∧ ∀ kind : Kind, (kind.arrayOf length).text.length = kind.text.length + n := by
  cases length with
  | none => exact ⟨2, by decide, fun kind => by rw [Kind.arrayOf, Kind.text, String.length_append]; rfl⟩
  | some n =>
    refine ⟨"[".length + (toString n).length + "]".length, Nat.succ_pos _, fun kind => ?_⟩
    rw [Kind.arrayOf, Kind.text, String.length_append, String.length_append, String.length_append]
    simp only [Nat.add_assoc]

section

variable {α : Type} {f g : α → Kind}

theorem length_texts_le : ∀ {rows : List α}, (∀ row ∈ rows, (f row).text.length ≤ (g row).text.length) →
    (",".intercalate (Kind.texts (rows.map f))).length ≤ (",".intercalate (Kind.texts (rows.map g))).length ∧
      ((∃ row ∈ rows, (f row).text.length < (g row).text.length) →
        (",".intercalate (Kind.texts (rows.map f))).length < (",".intercalate (Kind.texts (rows.map g))).length)
  | [], _ => by simp
  | [row], h => by simpa [Kind.texts] using h
  | row :: next :: rows, h => by
    obtain ⟨hrow, hrows⟩ := List.forall_mem_cons.mp h
    obtain ⟨hle, hlt⟩ := length_texts_le hrows
    simp only [List.map_cons, Kind.texts, String.intercalate_cons_cons, String.length_append] at hle hlt ⊢
    refine ⟨by omega, ?_⟩
    rintro ⟨row', hmem, hless⟩
    rcases List.mem_cons.mp hmem with rfl | hmem
    · omega
    · have := hlt ⟨row', hmem, hless⟩
      omega

/-- The text of a list is no shorter than with shorter members, and longer if one of them is. -/
theorem length_text_tuple_le {rows : List α} (h : ∀ row ∈ rows, (f row).text.length ≤ (g row).text.length) :
    (Kind.tuple (rows.map f)).text.length ≤ (Kind.tuple (rows.map g)).text.length ∧
      ((∃ row ∈ rows, (f row).text.length < (g row).text.length) →
        (Kind.tuple (rows.map f)).text.length < (Kind.tuple (rows.map g)).text.length) := by
  obtain ⟨hle, hlt⟩ := length_texts_le h
  simp only [Kind.text, Kind.parenthesized, String.length_append]
  refine ⟨by omega, fun hless => ?_⟩
  have := hlt hless
  omega

end

namespace Keeps

variable {gap other : Prop} {read kind inner : Kind}

theorem arrayOf (h : Keeps gap read kind) (length : Option Nat) :
    Keeps gap (read.arrayOf length) (kind.arrayOf length) := by
  obtain ⟨n, -, hn⟩ := exists_length_text_arrayOf length
  refine ⟨?_, fun hgap => ?_, fun hgap => by rw [h.eq hgap]⟩
  · have := h.length_le
    rw [hn, hn]
    omega
  · have := h.length_lt hgap
    rw [hn, hn]
    omega

theorem foldl_arrayOf (lengths : List (Option Nat)) (h : Keeps gap read kind) :
    Keeps gap (lengths.foldl Kind.arrayOf read) (lengths.foldl Kind.arrayOf kind) := by
  induction lengths generalizing read kind with
  | nil => exact h
  | cons length lengths ih => exact ih (h.arrayOf length)

theorem of_left (left : List (Option Nat)) (kind : Kind) :
    Keeps (left ≠ []) kind (left.foldl Kind.arrayOf kind) := by
  induction left generalizing kind with
  | nil => exact ⟨Nat.le_refl _, fun hne => absurd rfl hne, fun _ => rfl⟩
  | cons length left ih =>
    obtain ⟨n, hpos, hn⟩ := exists_length_text_arrayOf length
    have hle := (ih (kind.arrayOf length)).length_le
    rw [hn] at hle
    refine ⟨?_, fun _ => ?_, fun hnot => absurd (List.cons_ne_nil _ _) hnot⟩ <;> rw [List.foldl_cons] <;> omega

theorem trans (h : Keeps gap read inner) (h' : Keeps other inner kind) : Keeps (gap ∨ other) read kind where
  length_le := Nat.le_trans h.length_le h'.length_le
  length_lt
    | .inl hgap => Nat.lt_of_lt_of_le (h.length_lt hgap) h'.length_le
    | .inr hother => Nat.lt_of_le_of_lt h.length_le (h'.length_lt hother)
  eq hnot := by
    rw [not_or] at hnot
    rw [h.eq hnot.1, h'.eq hnot.2]

theorem eq_iff (h : Keeps gap read kind) : read = kind ↔ ¬ gap := by
  refine ⟨fun heq hgap => ?_, h.eq⟩
  have hlt := h.length_lt hgap
  rw [heq] at hlt
  exact Nat.lt_irrefl _ hlt

/-- The canonical text of a definition with the input says as much. -/
theorem canonical_eq_iff (h : Keeps gap read kind) (indexed : Bool) :
    Definition.canonical ⟨"f", [⟨read, indexed⟩], []⟩ = "f(" ++ kind.text ++ ")" ↔ ¬ gap := by
  have hcanonical : ∀ k : Kind, Definition.canonical ⟨"f", [⟨k, indexed⟩], []⟩ = "f(" ++ k.text ++ ")" := by
    intro k
    rw [Definition.canonical, Definition.inputKinds, List.map_singleton, List.map_singleton, Kind.parenthesized,
      String.intercalate_singleton, ← String.append_assoc, ← String.append_assoc]
    rfl
  rw [hcanonical]
  refine ⟨fun heq hgap => ?_, fun hnone => by rw [h.eq hnone]⟩
  have hlt := h.length_lt hgap
  have hlength := congrArg String.length heq
  simp only [String.length_append] at hlength
  omega

theorem tuple {α : Type} {f g : α → Kind} {gaps : α → Prop} {rows : List α}
    (h : ∀ row ∈ rows, Keeps (gaps row) (f row) (g row)) :
    Keeps (∃ row ∈ rows, gaps row) (.tuple (rows.map f)) (.tuple (rows.map g)) := by
  obtain ⟨hle, hlt⟩ := length_text_tuple_le fun row hrow => (h row hrow).length_le
  refine ⟨hle, ?_, fun hnone => ?_⟩
  · rintro ⟨row, hrow, hgap⟩
    exact hlt ⟨row, hrow, (h row hrow).length_lt hgap⟩
  · rw [List.map_congr_left fun row hrow => (h row hrow).eq fun hgap => hnone ⟨row, hrow, hgap⟩]

end Keeps

/-! ### What a declaration is read as -/

theorem Spells.getLast?_or_name {text : List Char} {kind : Kind} (h : Spells text kind)
    (hblank : ∀ c ∈ text, isBlank c = false) :
    text.getLast? = some ']' ∨ text.getLast? = some ')' ∨ Kind.ofName? text = some kind := by
  obtain ⟨front, core, tail, base, lengths, hfront, hcore, htail, rfl, rfl⟩ := h.exists_core
  by_cases htext : tail = []
  · subst htext
    cases htail
    cases hcore with
    | name named =>
      cases front with
      | nil => exact .inr (.inr (by simpa using named))
      | cons c front =>
        have hc := hblank c (by simp)
        rw [hfront c List.mem_cons_self] at hc
        cases hc
    | tuple _ _ _ => exact .inr (.inl (by simp [List.getLast?_append, List.getLast?_cons]))
  · have hlast := htail.getLast?_eq (fun c hc => hblank c (by simp [hc])) htext
    exact .inl (by simp [List.getLast?_append, hlast])

section

variable {front tail : List Char} {lengths : List (Option Nat)} {read : Kind}

theorem keeps_of_name {name : List Char} {base : Kind} (hfront : IsBlanks front)
    (named : Kind.ofName? name = some base) (htail : Suffixes tail lengths)
    (hread : inputKind (front ++ (name ++ tail)) = .ok read) :
    Keeps (HasGap (front ++ (name ++ tail))) read (lengths.foldl Kind.arrayOf base) := by
  have hchars : ∀ c ∈ name, isBlank c = false := fun c hc =>
    Kind.isBlank_of_isNameChar (Kind.isNameChar_of_ofName? named c hc)
  obtain ⟨c, rest, rfl⟩ : ∃ c rest, name = c :: rest := by
    cases name with
    | nil => cases named
    | cons c rest => exact ⟨c, rest, rfl⟩
  have hlast : ∀ x, (c :: rest).getLast? = some x → isBlank x = false := fun x hx =>
    hchars x (List.mem_of_getLast? hx)
  have htrim := trim_append_of_ends hfront ⟨c, rfl, hchars c List.mem_cons_self⟩ hlast tail
  have hnonblank : ∀ x, isBlank x = true → (!isBlank x) = false := fun x hx => by rw [hx]; rfl
  have hparen : (Kind.afterTuple (trim (front ++ (c :: rest ++ tail)))).head? ≠ some '(' := by
    refine head?_afterTuple_ne fun hmem => ?_
    rcases List.mem_append.mp hmem with hmem | hmem
    · cases hfront _ hmem
    · rcases List.mem_append.mp hmem with hmem | hmem
      · exact Kind.not_mem_of_ofName? rfl named hmem
      · exact htail.not_mem_paren hmem
  have hword : Kind.parse (c :: rest ++ tail.takeWhile (!isBlank ·)) = .ok read := by
    obtain ⟨others, hothers⟩ := @exists_words c (rest ++ trimEnd tail) (hchars c List.mem_cons_self)
    rw [← List.cons_append, List.takeWhile_append_of_pos (by simpa using hchars), takeWhile_trimEnd hnonblank,
      ← htrim] at hothers
    rwa [inputKind_of_words hparen hothers] at hread
  have hgap : HasGap (front ++ (c :: rest ++ tail)) ↔ HasGap tail := by
    rw [← List.append_assoc]
    refine hasGap_append_iff ?_ fun hmem => ?_
    · obtain ⟨x, hx⟩ : ∃ x, (c :: rest).getLast? = some x := ⟨_, List.getLast?_cons⟩
      exact ⟨x, by rw [List.getLast?_append, hx]; rfl, hlast x hx⟩
    · rcases List.mem_append.mp hmem with hmem | hmem
      · cases hfront _ hmem
      · exact Kind.not_mem_of_ofName? rfl named hmem
  rcases htail.takeWhile_cases rfl rfl hnonblank with
    ⟨hopen, x, hx, hbracket, hclose⟩ | ⟨taken, left, rfl, htaken, hleft⟩
  · -- The word ends inside of a bracket, so it is no type text.
    exfalso
    have hblank : ∀ y ∈ c :: rest ++ tail.takeWhile (!isBlank ·), isBlank y = false := by
      refine List.forall_mem_append.mpr ⟨hchars, fun y hy => ?_⟩
      simpa using List.all_eq_true.mp List.all_takeWhile y hy
    have hend : (c :: rest ++ tail.takeWhile (!isBlank ·)).getLast? = some x := by
      rw [List.getLast?_append, hx]
      rfl
    rcases (Kind.parse_eq_ok_iff.mp hword).getLast?_or_name hblank with hlast | hlast | hname
    · exact hbracket (Option.some.inj (hend.symm.trans hlast))
    · exact hclose (Option.some.inj (hend.symm.trans hlast))
    · exact Kind.not_mem_of_ofName? rfl hname (List.mem_append_right _ hopen)
  · have hspells := Spells.append_suffixes htaken (.name named)
    rw [hspells.parse_eq, Except.ok.injEq] at hword
    subst hword
    rw [List.foldl_append, hgap, hleft]
    exact .of_left left _

theorem hasGap_list_iff {keyword inside : List Char} {pieces : List (List Char)} (hfront : IsBlanks front)
    (keyword_eq : keyword = [] ∨ keyword = "tuple".toList) (list : Lists inside pieces) :
    HasGap (front ++ (keyword ++ '(' :: (inside ++ [')']) ++ tail)) ↔
      (∃ piece ∈ pieces, HasGap piece) ∨ HasGap tail := by
  have hsplit : front ++ (keyword ++ '(' :: (inside ++ [')']) ++ tail)
      = (front ++ keyword ++ ['(']) ++ (inside ++ ')' :: tail) := by
    simp only [List.append_assoc, List.cons_append, List.nil_append]
  have hinside : HasGap inside ↔ ∃ piece ∈ pieces, HasGap piece := by
    rcases list with ⟨rfl, hblanks⟩ | ⟨-, rfl⟩
    · refine iff_of_false (fun hgap => ?_) (by simp)
      cases hblanks _ (mem_of_hasGap hgap)
    · exact hasGap_intercalate_iff
  rw [hsplit, hasGap_append_iff, hasGap_append_cons_iff rfl (by decide), hinside]
  · exact ⟨'(', by simp [List.getLast?_append], rfl⟩
  · intro hmem
    rcases List.mem_append.mp hmem with hmem | hmem
    · rcases List.mem_append.mp hmem with hmem | hmem
      · cases hfront _ hmem
      · rcases keyword_eq with rfl | rfl <;> simp at hmem
    · simp at hmem

theorem isSuffixChar_of_isBlank {c : Char} (h : isBlank c = true) : isSuffixChar c = false := by
  by_contra hne
  rw [Bool.not_eq_false, isSuffixChar, Bool.or_eq_true, Bool.or_eq_true, beq_iff_eq, beq_iff_eq] at hne
  rcases hne with (rfl | rfl) | hdigit
  · cases h
  · cases h
  · have hname : Kind.isNameChar c = true := by
      rw [Kind.isNameChar, Numeral.digitValue?_of_isDigit hdigit]
      simp
    rw [Kind.isBlank_of_isNameChar hname] at h
    cases h

theorem length_le_of_declarations? {inside : List Char} {pieces : List (List Char)}
    (h : declarations? inside = some pieces) : ∀ piece ∈ pieces, piece.length ≤ inside.length := by
  rw [declarations?] at h
  split at h
  · obtain rfl := Option.some.inj h
    simp
  · exact length_of_mem_splitTopLevel h

/-- A list with suffixes is read member by member, and its suffixes up to the first blank. -/
theorem keeps_of_list {keyword inside : List Char} {members : List (List Char × Kind)} (hfront : IsBlanks front)
    (keyword_eq : keyword = [] ∨ keyword = "tuple".toList) (list : Lists inside (members.map (·.1)))
    (each : ∀ member ∈ members, Spells member.1 member.2)
    (hmembers : ∀ member ∈ members, ∀ read, inputKind member.1 = .ok read → Keeps (HasGap member.1) read member.2)
    (htail : Suffixes tail lengths)
    (hread : inputKind (front ++ (keyword ++ '(' :: (inside ++ [')']) ++ tail)) = .ok read) :
    Keeps (HasGap (front ++ (keyword ++ '(' :: (inside ++ [')']) ++ tail))) read
      (lengths.foldl Kind.arrayOf (.tuple (members.map (·.2)))) := by
  have hstop : ∀ x, isBlank x = true → isSuffixChar x = false := fun x hx => isSuffixChar_of_isBlank hx
  have hafter : Kind.afterTuple (trim (front ++ (keyword ++ '(' :: (inside ++ [')']) ++ tail)))
      = '(' :: (inside ++ ')' :: trimEnd tail) := by
    rw [trim_append_of_ends hfront ?_ ?_]
    · rcases keyword_eq with rfl | rfl <;> simp [Kind.afterTuple, afterFront?]
    · rcases keyword_eq with rfl | rfl
      · exact ⟨'(', rfl, rfl⟩
      · exact ⟨'t', rfl, rfl⟩
    · intro c hc
      obtain rfl : ')' = c := by simpa [List.getLast?_append, List.getLast?_cons] using hc
      rfl
  have hbalanced : Balanced true inside :=
    .of_lists list (List.forall_mem_map.mpr fun member hmember => (each member hmember).balanced)
  have hpieces := declarations?_of_lists list (List.forall_mem_map.mpr fun member hmember => ⟨_, each member hmember⟩)
  rw [inputKind_of_list hafter hbalanced hpieces, takeWhile_trimEnd hstop, List.mapM_map] at hread
  obtain ⟨reads, hreads, hsuffix⟩ := bind_eq_ok_iff.mp hread
  obtain ⟨rows, rfl, rfl, hrows⟩ := exists_rows_of_mapM hreads
  have htuple : Keeps (∃ row ∈ rows, HasGap row.1.1) (.tuple (rows.map (·.2))) (.tuple (rows.map (·.1.2))) :=
    .tuple fun row hrow => hmembers row.1 (List.mem_map_of_mem hrow) row.2 (hrows row hrow)
  have hblank : ∀ y ∈ tail.takeWhile isSuffixChar, isBlank y = false := fun y hy => by
    by_contra hne
    rw [Bool.not_eq_false] at hne
    have hy' := List.all_eq_true.mp List.all_takeWhile y hy
    rw [hstop y hne] at hy'
    cases hy'
  have htrim : trim (tail.takeWhile isSuffixChar) = tail.takeWhile isSuffixChar :=
    trim_of_not_isBlank hblank
  rw [Kind.withSuffix, suffixes?, htrim] at hsuffix
  split at hsuffix
  · rename_i found hfound
    obtain rfl := Except.ok.inj hsuffix
    rcases htail.takeWhile_cases rfl rfl hstop with ⟨hopen, x, hx, hbracket, -⟩ | ⟨taken, left, rfl, htaken, hleft⟩
    · -- The suffixes end inside of a bracket, so they are none.
      have hlast := (Suffixes.of_suffixesFrom? hfound).getLast?_eq hblank (List.ne_nil_of_mem hopen)
      exact absurd (Option.some.inj (hx.symm.trans hlast)) hbracket
    · rw [htaken.suffixesFrom?_eq hblank, Option.some.injEq] at hfound
      subst hfound
      have hgaps : (∃ piece ∈ (rows.map (·.1)).map (·.1), HasGap piece) ↔ ∃ row ∈ rows, HasGap row.1.1 := by simp
      have hkeeps := (htuple.foldl_arrayOf taken).trans (.of_left left _)
      rw [hasGap_list_iff hfront keyword_eq list, hgaps, hleft, List.foldl_append, List.map_map]
      exact hkeeps
  · cases hsuffix

/-- Of a type text the other reader reads the type, if anything, or the type without the suffixes that stand
behind a gap. -/
theorem keeps_of_inputKind {text : List Char} {kind : Kind} (h : Spells text kind)
    (hread : inputKind text = .ok read) : Keeps (HasGap text) read kind := by
  induction hlength : text.length using Nat.strongRecOn generalizing text kind read with
  | _ n ih =>
    subst hlength
    obtain ⟨front, core, tail, base, lengths, hfront, hcore, htail, rfl, rfl⟩ := h.exists_core
    cases hcore with
    | name named => exact keeps_of_name hfront named htail hread
    | @tuple keyword inside members keyword_eq list each =>
      refine keeps_of_list hfront keyword_eq list each (fun member hmember read hread => ?_) htail hread
      have hpieces := declarations?_of_lists list
        (List.forall_mem_map.mpr fun member hmember => ⟨_, each member hmember⟩)
      have hle := length_le_of_declarations? hpieces member.1 (List.mem_map_of_mem hmember)
      refine ih member.1.length ?_ (each member hmember) hread rfl
      simp only [List.length_append, List.length_cons]
      omega

end

/-! ### Definitions with one input -/

theorem parse_of_one_input {text : String} {kind : Kind} (h : Spells text.toList kind) :
    Definition.parse ("f(" ++ text ++ ")")
      = (readInput text.toList).map fun input => ⟨"f", [input], []⟩ := by
  have hline : ("f(" ++ text ++ ")").toList = 'f' :: '(' :: (text.toList ++ [')']) := by
    simp
  have htrim : trim ("f(" ++ text ++ ")").toList = 'f' :: '(' :: (text.toList ++ [')']) := by
    rw [hline]
    exact trim_enclosed rfl rfl ('(' :: text.toList)
  have hcut : cutAt? '(' (["function", "event", "error"].foldl afterKeyword (trim ("f(" ++ text ++ ")").toList))
      = some (['f'], text.toList ++ [')']) := by
    rw [htrim]
    rfl
  have hclose : closeParen? 0 (text.toList ++ [')']) = some (text.toList, []) := closeParen?_of_balanced h.balanced []
  have hdeclared : declarations? text.toList = some [text.toList] := by
    refine declarations?_of_lists (.inr ⟨List.cons_ne_nil _ _, ?_⟩) (by simpa using ⟨kind, h⟩)
    rw [List.intercalate_singleton]
  cases hinput : readInput text.toList with
  | ok input =>
    exact Definition.parse_eq_ok hcut rfl hclose hdeclared (mapM_cons_eq_ok_iff.mpr ⟨input, [], hinput, rfl, rfl⟩)
      rfl rfl
  | error cause =>
    unfold Definition.parse
    have hinputs : [text.toList].mapM readInput = .error cause := by
      rw [List.mapM_cons, hinput]
      rfl
    simp only [hcut, hclose, hdeclared, hinputs]
    rfl

/-- **A type text in a definition is read as its type, or not at all, unless there is a gap in it.** Behind a gap
suffixes get lost, and the canonical text says so. -/
theorem definition_keeps_type_text_iff {text : String} {kind : Kind} (h : Kind.parse text.toList = .ok kind) :
    (∃ cause, Definition.parse ("f(" ++ text ++ ")") = .error cause) ∨
      ∃ definition, Definition.parse ("f(" ++ text ++ ")") = .ok definition ∧
        (definition.inputKinds = [kind] ↔ ¬ HasGap text.toList) ∧
        (definition.canonical = "f(" ++ kind.text ++ ")" ↔ ¬ HasGap text.toList) := by
  have hspells := Kind.parse_eq_ok_iff.mp h
  rw [parse_of_one_input hspells, readInput]
  cases hread : inputKind text.toList with
  | error cause => exact .inl ⟨cause, rfl⟩
  | ok read =>
    have hkeeps := keeps_of_inputKind hspells hread
    refine .inr ⟨_, rfl, ?_, hkeeps.canonical_eq_iff _⟩
    rw [Definition.inputKinds, List.map_singleton, List.singleton_inj]
    exact hkeeps.eq_iff

/-- An array suffix is kept if a blank stands behind it only. -/
theorem suffix_in_front_of_a_blank_is_kept :
    Kind.parse "uint8[2] ".toList = .ok (.fixedArray (.uint 8) 2) ∧
      ∃ definition, Definition.parse "f(uint8[2] )" = .ok definition ∧
        definition.canonical = "f(uint8[2])" := by
  have harray : Spells "uint8[2]".toList (.fixedArray (.uint 8) 2) :=
    .array (.name (rfl : Kind.ofName? "uint8".toList = some (.uint 8))) (rfl : sizeOf? ['2'] = some (some 2))
  have hparsed : Kind.parse "uint8[2] ".toList = .ok (.fixedArray (.uint 8) 2) := by
    have htrim : trim "uint8[2] ".toList = trim "uint8[2]".toList := rfl
    rw [parse_eq_of_trim_eq htrim, harray.parse_eq]
  refine ⟨hparsed, ?_⟩
  have hread : readInput "uint8[2] ".toList = .ok ⟨.fixedArray (.uint 8) 2, false⟩ :=
    readInput_of_name (by decide) rfl harray.parse_eq
  rcases definition_keeps_type_text_iff hparsed with ⟨cause, hfails⟩ | ⟨definition, hdefinition, -, hcanonical⟩
  · rw [parse_of_one_input (Kind.parse_eq_ok_iff.mp hparsed), hread] at hfails
    cases hfails
  · exact ⟨definition, hdefinition, hcanonical.mpr (by decide)⟩

/-- The suffix behind a blank belongs to the type text, and the definition has lost it. -/
theorem suffix_behind_a_blank_is_lost :
    Kind.parse "uint8 [2]".toList = .ok (.fixedArray (.uint 8) 2) ∧
      ∃ definition, Definition.parse "f(uint8 [2])" = .ok definition ∧ definition.canonical = "f(uint8)" ∧
        definition.canonical ≠ "f(" ++ (Kind.fixedArray (.uint 8) 2).text ++ ")" := by
  have hname : Spells "uint8".toList (.uint 8) := .name rfl
  have hblanks : IsBlanks [] ∧ IsBlanks [' '] := by decide
  have hspells : Spells "uint8 [2]".toList (.fixedArray (.uint 8) 2) :=
    .array (.padded hblanks.1 hblanks.2 hname) (rfl : sizeOf? ['2'] = some (some 2))
  have hread : readInput "uint8 [2]".toList = .ok ⟨.uint 8, false⟩ :=
    readInput_of_name (by decide) rfl hname.parse_eq
  refine ⟨hspells.parse_eq, ⟨"f", [⟨.uint 8, false⟩], []⟩, ?_, by decide, by decide⟩
  have hparse := parse_of_one_input hspells
  rw [hread] at hparse
  exact hparse

end Abi
end EthWire
