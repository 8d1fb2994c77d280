/-
# The grammar of type texts

A type text is a name, a list of type texts in parentheses, or a type text with an array suffix behind it, and
blanks may stand around it (`Abi.Spells`). The grammar is read off from the left to the right, while the reader
takes the last suffix first and looks for the ends of a list by counting parentheses. Both are the same
(`Abi.Kind.parse_eq_ok_iff`): texts of the grammar are balanced, so that a list is cut where its pieces end, and
what the reader cuts off at the last bracket is one suffix.

Key definitions: `Abi.sizeOf?`, `Abi.Spells`.
Key theorems: `Abi.Spells.balanced`, `Abi.Kind.parse_eq_ok_iff`.
-/
import EthWire.Proofs.Abi.AtomicNames
import EthWire.Proofs.Abi.Definition
import EthWire.Proofs.Abi.Parentheses
import Mathlib.Data.List.TakeWhile
import Mathlib.Tactic.ByContra

namespace EthWire

/-! ### Blanks around a text -/

namespace Text

/-- There is nothing but blanks in the text. -/
def IsBlanks (text : List Char) : Prop :=
  ∀ c ∈ text, isBlank c = true

instance (text : List Char) : Decidable (IsBlanks text) :=
  decidable_of_iff (text.all isBlank = true) List.all_eq_true

theorem trimStart_eq_nil_iff {text : List Char} : trimStart text = [] ↔ IsBlanks text :=
  List.dropWhile_eq_nil_iff

theorem IsBlanks.reverse {text : List Char} (h : IsBlanks text) : IsBlanks text.reverse :=
  fun c hc => h c (List.mem_reverse.mp hc)

theorem trimEnd_append_of_isBlanks {behind : List Char} (h : IsBlanks behind) (text : List Char) :
    trimEnd (text ++ behind) = trimEnd text := by
  rw [trimEnd, List.reverse_append, List.dropWhile_append_of_pos h.reverse, trimEnd]

theorem trim_append_of_isBlanks {behind : List Char} (h : IsBlanks behind) (text : List Char) :
    trim (text ++ behind) = trim text := by
  rw [trim, trim, trimStart, trimStart, List.dropWhile_append]
  split
  · rename_i hempty
    rw [List.isEmpty_iff.mp hempty, List.dropWhile_eq_nil_iff.mpr h]
  · exact trimEnd_append_of_isBlanks h _

theorem trim_isBlanks_append {front : List Char} (h : IsBlanks front) (text : List Char) :
    trim (front ++ text) = trim text := by
  rw [trim, trim, trimStart, trimStart, List.dropWhile_append_of_pos h]

theorem trim_padded {front behind : List Char} (hfront : IsBlanks front) (hbehind : IsBlanks behind)
    (text : List Char) : trim (front ++ (text ++ behind)) = trim text := by
  rw [trim_isBlanks_append hfront, trim_append_of_isBlanks hbehind]

theorem trim_trimStart_append (text rest : List Char) : trim (trimStart text ++ rest) = trim (text ++ rest) := by
  have hsplit : text = text.takeWhile isBlank ++ trimStart text := List.takeWhile_append_dropWhile.symm
  have hblanks : IsBlanks (text.takeWhile isBlank) := List.all_eq_true.mp List.all_takeWhile
  conv => rhs; rw [hsplit, List.append_assoc, trim_isBlanks_append hblanks]

theorem trim_trimStart (text : List Char) : trim (trimStart text) = trim text := by
  have happend := trim_trimStart_append text []
  rwa [List.append_nil, List.append_nil] at happend

theorem isBlank_of_head?_trimStart {text : List Char} {c : Char} (h : (trimStart text).head? = some c) :
    isBlank c = false := by
  have hnot := List.head?_dropWhile_not isBlank text
  rw [trimStart] at h
  rw [h] at hnot
  simpa using hnot

theorem exists_padding (text : List Char) :
    ∃ front behind, IsBlanks front ∧ IsBlanks behind ∧ text = front ++ (trim text ++ behind) := by
  have hsplit := List.takeWhile_append_dropWhile (p := isBlank) (l := (trimStart text).reverse)
  refine ⟨text.takeWhile isBlank, ((trimStart text).reverse.takeWhile isBlank).reverse,
    List.all_eq_true.mp List.all_takeWhile, IsBlanks.reverse (List.all_eq_true.mp List.all_takeWhile), ?_⟩
  rw [trim, trimEnd, ← List.reverse_append, hsplit, List.reverse_reverse, trimStart,
    List.takeWhile_append_dropWhile]

theorem trim_enclosed {first last : Char} (hfirst : isBlank first = false) (hlast : isBlank last = false)
    (middle : List Char) : trim (first :: (middle ++ [last])) = first :: (middle ++ [last]) := by
  refine trim_of_ends (fun c hc => ?_) (fun c hc => ?_)
  · rwa [← Option.some.inj hc]
  · obtain rfl : last = c := by simpa [List.getLast?_cons, List.getLast?_append] using hc
    exact hlast

theorem mem_of_mem_trim {text : List Char} {c : Char} (h : c ∈ trim text) : c ∈ text := by
  obtain ⟨front, behind, -, -, htext⟩ := exists_padding text
  rw [htext]
  exact List.mem_append_right _ (List.mem_append_left _ h)

theorem isBlanks_of_trim_eq_nil {text : List Char} (h : trim text = []) : IsBlanks text := by
  intro c hc
  by_contra hne
  have hmem := mem_trim (Bool.eq_false_iff.mpr hne) hc
  rw [h] at hmem
  cases hmem

theorem trim_eq_nil_iff {text : List Char} : trim text = [] ↔ IsBlanks text := by
  refine ⟨isBlanks_of_trim_eq_nil, fun h => ?_⟩
  rw [trim, trimStart_eq_nil_iff.mpr h]
  rfl

end Text

namespace Abi

open Text

/-! ### The grammar -/

/-- The length of an array that stands between its brackets; blanks alone are any length. -/
def sizeOf? (size : List Char) : Option (Option Nat) :=
  if (trim size).isEmpty then some none else (Numeral.readCount? (trim size)).map some

/-- The text lists the pieces: there is none, or they stand between commas. -/
def Lists (inside : List Char) (pieces : List (List Char)) : Prop :=
  (pieces = [] ∧ IsBlanks inside) ∨ (pieces ≠ [] ∧ inside = [','].intercalate pieces)

theorem lists_intercalate (pieces : List (List Char)) : Lists ([','].intercalate pieces) pieces := by
  cases pieces with
  | nil => exact .inl ⟨rfl, by simp [IsBlanks]⟩
  | cons piece pieces => exact .inr ⟨List.cons_ne_nil _ _, rfl⟩

/-- The text spells the type. -/
inductive Spells : List Char → Kind → Prop where
  | name {text : List Char} {kind : Kind} (named : Kind.ofName? text = some kind) : Spells text kind
  | tuple {keyword inside : List Char} {members : List (List Char × Kind)}
      (keyword_eq : keyword = [] ∨ keyword = "tuple".toList) (list : Lists inside (members.map (·.1)))
      (each : ∀ member ∈ members, Spells member.1 member.2) :
      Spells (keyword ++ '(' :: (inside ++ [')'])) (.tuple (members.map (·.2)))
  | array {text size : List Char} {elem : Kind} {length : Option Nat} (elem_text : Spells text elem)
      (size_eq : sizeOf? size = some length) : Spells (text ++ '[' :: (size ++ [']'])) (elem.arrayOf length)
  | padded {front text behind : List Char} {kind : Kind} (front_blank : IsBlanks front)
      (behind_blank : IsBlanks behind) (inside : Spells text kind) : Spells (front ++ (text ++ behind)) kind

/-! ### Texts of the grammar are balanced -/

theorem ne_paren_of_isBlank {c : Char} (h : isBlank c = true) : c ≠ '(' ∧ c ≠ ')' ∧ c ≠ ',' := by
  refine ⟨?_, ?_, ?_⟩ <;> rintro rfl <;> cases h

theorem ne_paren_of_isNameChar {c : Char} (h : Kind.isNameChar c = true) : c ≠ '(' ∧ c ≠ ')' ∧ c ≠ ',' := by
  refine ⟨?_, ?_, ?_⟩ <;> rintro rfl <;> cases h

theorem blank_or_nameChar_of_sizeOf? {size : List Char} {length : Option Nat} (h : sizeOf? size = some length) :
    ∀ c ∈ size, isBlank c = true ∨ Kind.isNameChar c = true := by
  intro c hc
  by_cases hblank : isBlank c = true
  · exact .inl hblank
  · refine .inr ?_
    have hmem := mem_trim (Bool.eq_false_iff.mpr hblank) hc
    rw [sizeOf?] at h
    split at h
    · rename_i hempty
      rw [List.isEmpty_iff.mp hempty] at hmem
      cases hmem
    · obtain ⟨n, hn, -⟩ := Option.map_eq_some_iff.mp h
      exact Kind.isNameChar_of_readCount? hn c hmem

theorem not_mem_of_sizeOf? {size : List Char} {length : Option Nat} {c : Char} (hblank : isBlank c = false)
    (hname : Kind.isNameChar c = false) (h : sizeOf? size = some length) : c ∉ size := by
  intro hc
  rcases blank_or_nameChar_of_sizeOf? h c hc with hc | hc
  · rw [hc] at hblank
    cases hblank
  · rw [hc] at hname
    cases hname

theorem Balanced.of_isBlanks {commas : Bool} {text : List Char} (h : IsBlanks text) : Balanced commas text :=
  .of_plain fun c hc => ne_paren_of_isBlank (h c hc)

theorem Balanced.of_lists {inside : List Char} {pieces : List (List Char)} (h : Lists inside pieces)
    (heach : ∀ piece ∈ pieces, Balanced false piece) : Balanced true inside := by
  rcases h with ⟨-, hblanks⟩ | ⟨-, rfl⟩
  · exact .of_isBlanks hblanks
  · exact .intercalate fun piece hpiece => (heach piece hpiece).withCommas

/-- A type text is balanced, and it is no list of several. -/
theorem Spells.balanced {text : List Char} {kind : Kind} (h : Spells text kind) : Balanced false text := by
  induction h with
  | name named =>
    exact .of_plain fun c hc => ne_paren_of_isNameChar (Kind.isNameChar_of_ofName? named c hc)
  | @tuple keyword inside members keyword_eq list _ ih =>
    have hkeyword : Balanced false keyword := .of_plain fun c hc => by
      rcases keyword_eq with rfl | rfl
      · cases hc
      · exact ne_paren_of_isNameChar (List.all_eq_true.mp (by decide) c hc)
    exact hkeyword.append (.parens (.of_lists list (List.forall_mem_map.mpr ih)) .nil)
  | @array text size elem length _ size_eq ih =>
    have hsize : Balanced false size := .of_plain fun c hc => by
      rcases blank_or_nameChar_of_sizeOf? size_eq c hc with hblank | hname
      · exact ne_paren_of_isBlank hblank
      · exact ne_paren_of_isNameChar hname
    have hbracket : Balanced false [']'] := .of_plain (by simp)
    exact ih.append (.plain (by decide) (by decide) (by decide) (hsize.append hbracket))
  | padded front_blank behind_blank _ ih =>
    exact (Balanced.of_isBlanks front_blank).append (ih.append (.of_isBlanks behind_blank))

theorem Spells.not_isBlanks {text : List Char} {kind : Kind} (h : Spells text kind) : ¬ IsBlanks text := by
  intro hblanks
  induction h with
  | @name text kind named =>
    cases text with
    | nil => cases named
    | cons c rest =>
      have hc := Kind.isBlank_of_isNameChar (Kind.isNameChar_of_ofName? named c List.mem_cons_self)
      rw [hblanks c List.mem_cons_self] at hc
      cases hc
  | tuple => cases hblanks '(' (by simp)
  | array => cases hblanks '[' (by simp)
  | padded _ _ _ ih => exact ih fun c hc => hblanks c (by simp [hc])

/-! ### Suffixes -/

theorem suffixesFrom?_close (acc rest : List Char) :
    suffixesFrom? (some acc) (']' :: rest)
      = (sizeOf? acc.reverse).bind fun length => (suffixesFrom? none rest).map (length :: ·) := by
  rw [suffixesFrom?, if_pos rfl, sizeOf?]
  split
  · rename_i htrim
    rw [htrim]
    rfl
  · rename_i htrim
    rw [if_neg (by simpa using htrim)]
    cases Numeral.readCount? (trim acc.reverse) with
    | none => rfl
    | some n => cases suffixesFrom? none rest <;> rfl

theorem suffixesFrom?_append {size : List Char} (h : ']' ∉ size) (acc rest : List Char) :
    suffixesFrom? (some acc) (size ++ ']' :: rest)
      = (sizeOf? (acc.reverse ++ size)).bind fun length => (suffixesFrom? none rest).map (length :: ·) := by
  induction size generalizing acc with
  | nil => rw [List.nil_append, suffixesFrom?_close, List.append_nil]
  | cons c size ih =>
    obtain ⟨hne, hsize⟩ := List.ne_and_not_mem_of_not_mem_cons h
    rw [List.cons_append, suffixesFrom?, if_neg (Ne.symm hne), ih hsize]
    simp

theorem exists_of_suffixesFrom? {acc text : List Char} {lengths : List (Option Nat)}
    (h : suffixesFrom? (some acc) text = some lengths) : ∃ size rest, ']' ∉ size ∧ text = size ++ ']' :: rest := by
  induction text generalizing acc with
  | nil => cases h
  | cons c text ih =>
    by_cases hc : c = ']'
    · exact ⟨[], text, by simp, by rw [hc]; rfl⟩
    · rw [suffixesFrom?, if_neg hc] at h
      obtain ⟨size, rest, hsize, rfl⟩ := ih h
      exact ⟨c :: size, rest, by simp [hsize, Ne.symm hc], rfl⟩

theorem suffixesFrom?_of_sizeOf? {size : List Char} {length : Option Nat} (h : sizeOf? size = some length)
    (rest : List Char) : suffixesFrom? none ('[' :: (size ++ ']' :: rest))
      = (suffixesFrom? none rest).map (length :: ·) := by
  rw [suffixesFrom?, if_pos rfl, suffixesFrom?_append (not_mem_of_sizeOf? rfl rfl h), List.reverse_nil,
    List.nil_append, h, Option.bind_some]

/-- Behind an open bracket stands the size of the first suffix, and behind its end the other suffixes. -/
theorem exists_first_of_suffixesFrom? {text : List Char} {lengths : List (Option Nat)}
    (h : suffixesFrom? (some []) text = some lengths) :
    ∃ size rest length others, text = size ++ ']' :: rest ∧ sizeOf? size = some length ∧
      suffixesFrom? none rest = some others ∧ lengths = length :: others := by
  obtain ⟨size, rest, hclose, rfl⟩ := exists_of_suffixesFrom? h
  rw [suffixesFrom?_append hclose, Option.bind_eq_some_iff] at h
  obtain ⟨length, hlength, hrest⟩ := h
  obtain ⟨others, hothers, rfl⟩ := Option.map_eq_some_iff.mp hrest
  exact ⟨size, rest, length, others, rfl, hlength, hothers, rfl⟩

/-- A suffix that opens no further bracket is a single one. -/
theorem exists_of_suffixes? {text : List Char} {lengths : List (Option Nat)} (hopen : '[' ∉ text)
    (h : suffixesFrom? (some []) text = some lengths) :
    ∃ size length, text = size ++ [']'] ∧ sizeOf? size = some length ∧ lengths = [length] := by
  obtain ⟨size, rest, length, others, rfl, hlength, hothers, rfl⟩ := exists_first_of_suffixesFrom? h
  cases rest with
  | nil =>
    obtain rfl := Option.some.inj hothers
    exact ⟨size, length, rfl, hlength, rfl⟩
  | cons c rest =>
    have hc : c ≠ '[' := fun hc => hopen (by simp [hc])
    rw [suffixesFrom?, if_neg hc] at hothers
    cases hothers

theorem cutLastBracket?_eq_none_iff {text : List Char} : Kind.cutLastBracket? text = none ↔ '[' ∉ text := by
  induction text with
  | nil => simp [Kind.cutLastBracket?]
  | cons c rest ih =>
    rw [Kind.cutLastBracket?, List.mem_cons, not_or, ← ih]
    split
    · rename_i hcut
      simp [hcut]
    · rename_i hcut
      simp [hcut, eq_comm]

/-- The text is cut in front of its last opening bracket. -/
theorem cutLastBracket?_append {suffix : List Char} (h : '[' ∉ suffix) (front : List Char) :
    Kind.cutLastBracket? (front ++ '[' :: suffix) = some (front, '[' :: suffix) := by
  induction front with
  | nil =>
    rw [List.nil_append, Kind.cutLastBracket?, cutLastBracket?_eq_none_iff.mpr h]
    rfl
  | cons c front ih => rw [List.cons_append, Kind.cutLastBracket?, ih]

theorem exists_of_cutLastBracket? {text front suffix : List Char}
    (h : Kind.cutLastBracket? text = some (front, suffix)) :
    ∃ rest, '[' ∉ rest ∧ suffix = '[' :: rest ∧ text = front ++ suffix := by
  induction text generalizing front with
  | nil => cases h
  | cons c rest ih =>
    rw [Kind.cutLastBracket?] at h
    split at h
    · rename_i before behind hcut
      obtain ⟨rfl, rfl⟩ := Prod.mk.inj (Option.some.inj h)
      obtain ⟨inside, hopen, rfl, rfl⟩ := ih hcut
      exact ⟨inside, hopen, rfl, rfl⟩
    · rename_i hcut
      split at h
      · rename_i hc
        obtain ⟨rfl, rfl⟩ := Prod.mk.inj (Option.some.inj h)
        exact ⟨rest, cutLastBracket?_eq_none_iff.mp hcut, by rw [hc], rfl⟩
      · cases h

/-! ### The reader follows the grammar -/

theorem exists_keyword_of_afterTuple {text rest : List Char} (h : Kind.afterTuple text = rest) :
    ∃ keyword, (keyword = [] ∨ keyword = "tuple".toList) ∧ text = keyword ++ rest := by
  rw [Kind.afterTuple] at h
  cases hfront : afterFront? "tuple".toList text with
  | none =>
    rw [hfront] at h
    exact ⟨[], .inl rfl, h⟩
  | some behind =>
    rw [hfront] at h
    obtain rfl : behind = rest := h
    exact ⟨_, .inr rfl, Kind.eq_append_of_afterFront? hfront⟩

theorem head?_afterTuple_ne {text : List Char} (h : '(' ∉ text) :
    (Kind.afterTuple (trim text)).head? ≠ some '(' := by
  intro hfirst
  obtain ⟨keyword, -, hname⟩ := exists_keyword_of_afterTuple (rfl : Kind.afterTuple (trim text) = _)
  refine h (mem_of_mem_trim ?_)
  rw [hname]
  exact List.mem_append_right _ (List.mem_of_mem_head? hfirst)

/-- What is read as a type spells it. -/
theorem spells_of_parse {text : List Char} {kind : Kind} (h : Kind.parse text = .ok kind) : Spells text kind := by
  obtain ⟨front, behind, hfront, hbehind, htext⟩ := exists_padding text
  suffices hname : Spells (trim text) kind by
    have hpadded := Spells.padded hfront hbehind hname
    rwa [← htext] at hpadded
  have hlength := length_trim_le text
  rw [Kind.parse] at h
  simp only at h
  split at h
  · -- an array
    rename_i hlast
    split at h
    · cases h
    · rename_i before suffix hcut
      obtain ⟨elem, helem, hsuffix⟩ := bind_eq_ok_iff.mp h
      have hshorter : before.length < text.length :=
        Nat.lt_of_lt_of_le (Kind.length_of_cutLastBracket hcut) hlength
      have hspells := spells_of_parse helem
      obtain ⟨rest, hopen, rfl, hname⟩ := exists_of_cutLastBracket? hcut
      have htrim : trim ('[' :: rest) = '[' :: rest := by
        rw [hname, List.getLast?_append, Option.or_eq_some_iff] at hlast
        have hend : ('[' :: rest).getLast? = some ']' := by simpa using hlast
        refine trim_of_ends (by simp; rfl) fun c hc => ?_
        rw [hend] at hc
        obtain rfl := Option.some.inj hc
        rfl
      rw [Kind.withSuffix, suffixes?, htrim, suffixesFrom?, if_pos rfl] at hsuffix
      split at hsuffix
      · rename_i lengths hlengths
        obtain ⟨size, length, rfl, hsize, rfl⟩ := exists_of_suffixes? hopen hlengths
        obtain rfl := Except.ok.inj hsuffix
        rw [hname]
        exact .array hspells hsize
      · cases hsuffix
  · split at h
    · -- a list of types
      rename_i rest hrest
      obtain ⟨keyword, hkeyword, hname⟩ := exists_keyword_of_afterTuple hrest
      split at h
      · rename_i inside hclose
        obtain rfl := eq_append_of_closeParen? hclose
        rw [hname]
        split at h
        · rename_i hempty
          obtain rfl := Except.ok.inj h
          have hblanks : IsBlanks inside := trim_eq_nil_iff.mp (List.isEmpty_iff.mp hempty)
          exact @Spells.tuple keyword inside [] hkeyword (.inl ⟨rfl, hblanks⟩) (by simp)
        · split at h
          · rename_i pieces hpieces
            obtain ⟨members, hmembers, hkind⟩ := bind_eq_ok_iff.mp h
            obtain rfl := pure_eq_ok_iff.mp hkind
            obtain ⟨hne, rfl⟩ := intercalate_of_splitTopLevel? hpieces
            have hunattached : pieces.mapM Kind.parse = .ok members := by
              rw [← mapM_attach]
              exact hmembers
            obtain ⟨rows, rfl, rfl, hrows⟩ := exists_rows_of_mapM hunattached
            refine .tuple hkeyword (.inr ⟨hne, rfl⟩) fun row hrow => ?_
            have hpiece := length_of_mem_splitTopLevel hpieces row.1 (List.mem_map_of_mem hrow)
            have hwhole := congrArg List.length hname
            simp only [List.length_append, List.length_cons] at hwhole
            have hshorter : row.1.length < text.length := by omega
            exact spells_of_parse (hrows row hrow)
          · cases h
      · cases h
    · split at h
      · rename_i hname
        obtain rfl := Except.ok.inj h
        exact .name hname
      · cases h
termination_by text.length

theorem parse_eq_of_trim_eq {text other : List Char} (h : trim text = trim other) :
    Kind.parse text = Kind.parse other := by
  rw [Kind.parse, Kind.parse]
  simp only
  rw [h]

/-- A text that ends in a bracket is read in front of the last suffix first. -/
theorem parse_of_suffix {text front suffix : List Char} {elem kind : Kind}
    (hlast : (trim text).getLast? = some ']') (hcut : Kind.cutLastBracket? (trim text) = some (front, suffix))
    (helem : Kind.parse front = .ok elem) (hkind : elem.withSuffix suffix = .ok kind) :
    Kind.parse text = .ok kind := by
  rw [Kind.parse]
  simp only [if_pos hlast]
  split
  · rename_i hnone
    rw [hcut] at hnone
    cases hnone
  · rename_i front' suffix' hsome
    rw [hcut, Option.some.injEq, Prod.mk.injEq] at hsome
    obtain ⟨rfl, rfl⟩ := hsome
    exact bind_eq_ok_iff.mpr ⟨elem, helem, hkind⟩

theorem parse_of_list {text inside : List Char} {pieces : List (List Char)} {members : List Kind}
    (hlast : (trim text).getLast? ≠ some ']')
    (hafter : Kind.afterTuple (trim text) = '(' :: (inside ++ [')'])) (hinside : Balanced true inside)
    (hpieces : declarations? inside = some pieces) (hmembers : pieces.mapM Kind.parse = .ok members) :
    Kind.parse text = .ok (.tuple members) := by
  rw [Kind.parse]
  simp only [if_neg hlast]
  split
  · rename_i rest hrest
    rw [hafter, List.cons.injEq] at hrest
    obtain rfl := hrest.2
    rw [declarations?] at hpieces
    split
    · rename_i inside' hclose
      rw [closeParen?_of_balanced hinside, Option.some.injEq, Prod.mk.injEq] at hclose
      obtain rfl := hclose.1
      split
      · rename_i hempty
        rw [if_pos hempty, Option.some.injEq] at hpieces
        subst hpieces
        obtain rfl : [] = members := pure_eq_ok_iff.mp hmembers
        rfl
      · rename_i hsome
        rw [if_neg hsome] at hpieces
        split
        · rename_i pieces' hsplit
          rw [hpieces, Option.some.injEq] at hsplit
          subst hsplit
          refine bind_eq_ok_iff.mpr ⟨members, ?_, rfl⟩
          rw [← hmembers]
          exact mapM_attach Kind.parse pieces
        · rename_i hnone
          rw [hpieces] at hnone
          cases hnone
    · rename_i hclose
      exact absurd (closeParen?_of_balanced hinside []) (hclose inside)
  · rename_i hne
    exact absurd hafter (hne _)

/-- The pieces of a list are found if each is balanced and more than blanks. -/
theorem declarations?_of_balanced {inside : List Char} {pieces : List (List Char)} (h : Lists inside pieces)
    (hbalanced : ∀ piece ∈ pieces, Balanced false piece) (hsome : ∀ piece ∈ pieces, ¬ IsBlanks piece) :
    declarations? inside = some pieces := by
  have hempty : (trim inside).isEmpty = true ↔ IsBlanks inside := by rw [List.isEmpty_iff, trim_eq_nil_iff]
  rw [declarations?]
  rcases h with ⟨rfl, hblanks⟩ | ⟨hne, rfl⟩
  · rw [if_pos (hempty.mpr hblanks)]
  · obtain ⟨first, others, rfl⟩ := List.exists_cons_of_ne_nil hne
    have hfirst : ¬ IsBlanks ([','].intercalate (first :: others)) := by
      refine fun hblanks => hsome first List.mem_cons_self fun c hc => hblanks c ?_
      cases others with
      | nil => simpa using hc
      | cons next others => simp [List.intercalate_cons_cons, hc]
    rw [if_neg (hempty.not.mpr hfirst)]
    exact splitTopLevel?_intercalate hne hbalanced

theorem declarations?_of_lists {inside : List Char} {pieces : List (List Char)} (h : Lists inside pieces)
    (heach : ∀ piece ∈ pieces, ∃ kind, Spells piece kind) : declarations? inside = some pieces := by
  refine declarations?_of_balanced h (fun piece hpiece => ?_) (fun piece hpiece => ?_)
  · obtain ⟨kind, hspells⟩ := heach piece hpiece
    exact hspells.balanced
  · obtain ⟨kind, hspells⟩ := heach piece hpiece
    exact hspells.not_isBlanks

/-- What spells a type is read as it. -/
theorem Spells.parse_eq {text : List Char} {kind : Kind} (h : Spells text kind) : Kind.parse text = .ok kind := by
  induction h with
  | @name text kind named =>
    have hchars := Kind.isNameChar_of_ofName? named
    have htrim : trim text = text := trim_of_not_isBlank fun c hc => Kind.isBlank_of_isNameChar (hchars c hc)
    refine Kind.parse_of_name ?_ (head?_afterTuple_ne (Kind.not_mem_of_ofName? rfl named)) (by rwa [htrim])
    rw [htrim]
    exact fun hlast => Kind.not_mem_of_ofName? rfl named (List.mem_of_getLast? hlast)
  | @tuple keyword inside members keyword_eq list each ih =>
    have hends : trim (keyword ++ '(' :: (inside ++ [')'])) = keyword ++ '(' :: (inside ++ [')']) := by
      rcases keyword_eq with rfl | rfl
      · exact trim_enclosed rfl rfl inside
      · exact trim_enclosed rfl rfl ('u' :: 'p' :: 'l' :: 'e' :: '(' :: inside)
    have hlast : (keyword ++ '(' :: (inside ++ [')'])).getLast? ≠ some ']' := by
      simp [List.getLast?_append, List.getLast?_cons]
    have hafter : Kind.afterTuple (keyword ++ '(' :: (inside ++ [')'])) = '(' :: (inside ++ [')']) := by
      rcases keyword_eq with rfl | rfl <;> rfl
    have hpieces := declarations?_of_lists list (List.forall_mem_map.mpr fun member hmember => ⟨_, each member hmember⟩)
    have hbalanced : Balanced true inside :=
      .of_lists list (List.forall_mem_map.mpr fun member hmember => (each member hmember).balanced)
    exact parse_of_list (by rwa [hends]) (by rwa [hends]) hbalanced hpieces (mapM_map_eq_ok ih)
  | @array text size elem length front size_eq ih =>
    have hopen : '[' ∉ size := not_mem_of_sizeOf? rfl rfl size_eq
    have hsuffix : '[' ∉ size ++ [']'] := by simp [hopen]
    have hends : trim (text ++ '[' :: (size ++ [']'])) = trimStart text ++ '[' :: (size ++ [']']) := by
      obtain ⟨c, rest, hrest⟩ := List.exists_cons_of_ne_nil (trimStart_eq_nil_iff.not.mpr front.not_isBlanks)
      rw [← trim_trimStart_append, hrest]
      refine trim_of_ends (fun c' hc' => ?_) (fun c' hc' => ?_)
      · obtain rfl : c = c' := Option.some.inj hc'
        exact isBlank_of_head?_trimStart (congrArg List.head? hrest)
      · obtain rfl : ']' = c' := by simpa [List.getLast?_append, List.getLast?_cons] using hc'
        rfl
    have hlast : (trim (text ++ '[' :: (size ++ [']']))).getLast? = some ']' := by
      simp [hends, List.getLast?_append, List.getLast?_cons]
    have hcut : Kind.cutLastBracket? (trim (text ++ '[' :: (size ++ [']'])))
        = some (trimStart text, '[' :: (size ++ [']'])) := by
      rw [hends]
      exact cutLastBracket?_append hsuffix _
    have hfront : Kind.parse (trimStart text) = .ok elem := by
      rw [parse_eq_of_trim_eq (trim_trimStart text), ih]
    refine parse_of_suffix hlast hcut hfront ?_
    rw [Kind.withSuffix, suffixes?, trim_enclosed rfl rfl size, suffixesFrom?_of_sizeOf? size_eq, suffixesFrom?]
    rfl
  | padded front_blank behind_blank _ ih => rw [parse_eq_of_trim_eq (trim_padded front_blank behind_blank _), ih]

/-- The reader of types accepts the texts of the grammar, and gives the types that they spell. -/
theorem Kind.parse_eq_ok_iff {text : List Char} {kind : Kind} : parse text = .ok kind ↔ Spells text kind :=
  ⟨spells_of_parse, Spells.parse_eq⟩

end Abi
end EthWire
