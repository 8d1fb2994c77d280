/-
# Declared parameters

A parameter of a definition is declared by its type and words behind it: a name, the place of the data, or that
an event stores it as a topic. The members of a tuple are declared in the same way, with a type that may be a
tuple again (`Abi.Declares`).

The reader finds the parts of a declaration by searches: for the parenthesis that closes a list, for the commas
between its members, for the end of the suffixes behind it, for the first blank and for the word `indexed`. Each
finds the right place since types and names are balanced, suffixes end at a blank, and no type or name has a
blank in it. So a declaration is read as its type, however deep its tuples are nested
(`Abi.Declares.inputKind_eq`), and as indexed exactly if the word is among those behind the type
(`Abi.Member.IsDeclared.readInput_eq`).

Key definitions: `Text.spaced`, `Abi.Member`, `Abi.Declares`.
Key theorems: `Text.words_append_spaced`, `Abi.Declares.inputKind_eq`, `Abi.Member.IsDeclared.readInput_eq`,
`Abi.declares_text`.
-/
import EthWire.Proofs.Abi.CanonicalText

namespace EthWire

/-! ### Words behind a text -/

namespace Text

/-- The words with a space in front of each. -/
def spaced (words : List (List Char)) : List Char :=
  words.flatMap (' ' :: ·)

theorem spaced_cons (word : List Char) (words : List (List Char)) :
    spaced (word :: words) = ' ' :: (word ++ spaced words) := rfl

/-- A run of characters that are no blanks. -/
structure IsWord (word : List Char) : Prop where
  ne_nil : word ≠ []
  solid : ∀ c ∈ word, isBlank c = false

/-- Words with spaces in front are found again behind a text without blanks. -/
theorem splitWhere_append_spaced {front : List Char} {names : List (List Char)}
    (hfront : ∀ c ∈ front, isBlank c = false) (hnames : ∀ name ∈ names, IsWord name) :
    splitWhere isBlank (front ++ spaced names) = front :: names := by
  induction names generalizing front with
  | nil =>
    have hnil : front ++ spaced [] = front := List.append_nil front
    rw [hnil, splitWhere_eq_splitOnP, List.splitOnP_eq_singleton hfront]
  | cons name names ih =>
    obtain ⟨hname, hothers⟩ := List.forall_mem_cons.mp hnames
    rw [spaced_cons, splitWhere_eq_splitOnP, List.splitOnP_append_cons_of_forall_mem hfront ' ' rfl,
      ← splitWhere_eq_splitOnP, ih hname.solid hothers]

theorem words_append_spaced {front : List Char} {names : List (List Char)}
    (hfront : ∀ c ∈ front, isBlank c = false) (hnames : ∀ name ∈ names, IsWord name) :
    words (front ++ spaced names) = [front].filter (!·.isEmpty) ++ names := by
  have hkept : names.filter (!·.isEmpty) = names := by
    apply List.filter_eq_self.mpr
    intro name hname
    simpa using (hnames name hname).ne_nil
  rw [words, splitWhere_append_spaced hfront hnames, ← List.singleton_append, List.filter_append, hkept]

/-- The text starts and ends in characters that are no blanks. -/
structure HasSolidEnds (text : List Char) : Prop where
  head : ∃ c, text.head? = some c ∧ isBlank c = false
  last : ∃ c, text.getLast? = some c ∧ isBlank c = false

namespace HasSolidEnds

variable {text : List Char}

theorem of_word (h : IsWord text) : HasSolidEnds text := by
  obtain ⟨c, rest, rfl⟩ := List.exists_cons_of_ne_nil h.ne_nil
  have hlast : (c :: rest).getLast? = some ((c :: rest).getLast h.ne_nil) := List.getLast?_eq_some_getLast h.ne_nil
  exact ⟨⟨c, rfl, h.solid c List.mem_cons_self⟩, ⟨_, hlast, h.solid _ (List.getLast_mem h.ne_nil)⟩⟩

theorem append {other : List Char} (h : HasSolidEnds text) (middle : List Char) (h' : HasSolidEnds other) :
    HasSolidEnds (text ++ (middle ++ other)) := by
  obtain ⟨c, hhead, hc⟩ := h.head
  obtain ⟨d, hlast, hd⟩ := h'.last
  refine ⟨⟨c, ?_, hc⟩, ⟨d, ?_, hd⟩⟩
  · rw [List.head?_append, hhead, Option.some_or]
  · rw [List.getLast?_append, List.getLast?_append, hlast, Option.some_or, Option.some_or]

theorem append_spaced {names : List (List Char)} (h : HasSolidEnds text) (hnames : ∀ name ∈ names, IsWord name) :
    HasSolidEnds (text ++ spaced names) := by
  induction names generalizing text with
  | nil =>
    have hnil : text ++ spaced [] = text := List.append_nil text
    rwa [hnil]
  | cons name names ih =>
    obtain ⟨hname, hothers⟩ := List.forall_mem_cons.mp hnames
    have hall := ih (h.append [' '] (.of_word hname)) hothers
    rw [spaced_cons]
    simpa using hall

theorem trim_eq (h : HasSolidEnds text) : trim text = text := by
  obtain ⟨c, hhead, hc⟩ := h.head
  obtain ⟨d, hlast, hd⟩ := h.last
  apply trim_of_ends
  · intro x hx
    rwa [← Option.some.inj (hhead.symm.trans hx)]
  · intro x hx
    rwa [← Option.some.inj (hlast.symm.trans hx)]

theorem trim_append (h : HasSolidEnds text) {front : List Char} (hfront : IsBlanks front) :
    trim (front ++ text) = text := by
  rw [trim_isBlanks_append hfront, h.trim_eq]

theorem not_isBlanks (h : HasSolidEnds text) : ¬ IsBlanks text := by
  intro hblanks
  obtain ⟨c, hhead, hc⟩ := h.head
  rw [hblanks c (List.mem_of_mem_head? hhead)] at hc
  cases hc

end HasSolidEnds
end Text

namespace Abi

open Text

/-! ### Names -/

theorem isBlank_of_isAlphanum {c : Char} (h : c.isAlphanum = true) : isBlank c = false := by
  unfold Char.isAlphanum Char.isAlpha Char.isUpper Char.isLower Char.isDigit at h
  simp [UInt32.le_iff_toNat_le] at h
  simp [isBlank]
  omega

theorem plain_of_isIdentifier {name : List Char} (h : isIdentifier name = true) :
    ∀ c ∈ name, isBlank c = false ∧ c ≠ '(' ∧ c ≠ ')' ∧ c ≠ ',' := by
  intro c hc
  rw [isIdentifier, Bool.and_eq_true, List.all_eq_true] at h
  have hchar := h.2 c hc
  have hblank : isBlank c = false := by
    simp only [Bool.or_eq_true, beq_iff_eq] at hchar
    rcases hchar with (halphanum | rfl) | rfl
    · exact isBlank_of_isAlphanum halphanum
    · rfl
    · rfl
  refine ⟨hblank, ?_, ?_, ?_⟩ <;> rintro rfl <;> cases hchar

theorem isWord_of_isIdentifier {name : List Char} (h : isIdentifier name = true) : IsWord name := by
  refine ⟨?_, fun c hc => (plain_of_isIdentifier h c hc).1⟩
  rintro rfl
  cases h

theorem Balanced.spaced {commas : Bool} {names : List (List Char)}
    (h : ∀ name ∈ names, isIdentifier name = true) : Balanced commas (spaced names) := by
  apply Balanced.of_plain
  intro c hc
  obtain ⟨name, hname, hmem⟩ := List.mem_flatMap.mp hc
  rcases List.mem_cons.mp hmem with rfl | hmem
  · decide
  · exact (plain_of_isIdentifier (h name hname) c hmem).2

/-! ### Suffixes as they are declared -/

/-- The suffixes of arrays of the lengths, from left to right. -/
def suffixesText (lengths : List (Option Nat)) : List Char :=
  lengths.flatMap fun length => (suffixText length).toList

theorem suffixesText_cons (length : Option Nat) (lengths : List (Option Nat)) :
    suffixesText (length :: lengths) = (suffixText length).toList ++ suffixesText lengths := rfl

theorem suffixesText_append (lengths others : List (Option Nat)) :
    suffixesText (lengths ++ others) = suffixesText lengths ++ suffixesText others :=
  List.flatMap_append

/-- The lengths that are given are counts. -/
def AreCounts (lengths : List (Option Nat)) : Prop :=
  ∀ length ∈ lengths, ∀ n ∈ length, n ≤ maxCount

theorem suffixes_suffixesText {lengths : List (Option Nat)} (h : AreCounts lengths) :
    Suffixes (suffixesText lengths) lengths := by
  induction lengths with
  | nil => exact .nil
  | cons length lengths ih =>
    obtain ⟨hlength, hlengths⟩ := List.forall_mem_cons.mp h
    obtain ⟨size, htext, hsize⟩ := exists_size_of_suffixText hlength
    have hsuffix := Suffixes.suffix hsize (ih hlengths)
    rw [suffixesText_cons, htext]
    simpa using hsuffix

theorem isSuffixChar_of_mem_suffixesText {lengths : List (Option Nat)} :
    ∀ c ∈ suffixesText lengths, isSuffixChar c = true := by
  intro c hc
  obtain ⟨length, -, hmem⟩ := List.mem_flatMap.mp hc
  exact isSuffixChar_of_mem_suffixText c hmem

theorem isBlank_of_mem_suffixesText {lengths : List (Option Nat)} : ∀ c ∈ suffixesText lengths, isBlank c = false :=
  fun c hc => isBlank_of_isSuffixChar (isSuffixChar_of_mem_suffixesText c hc)

theorem plain_of_mem_suffixesText {lengths : List (Option Nat)} :
    ∀ c ∈ suffixesText lengths, c ≠ '(' ∧ c ≠ ')' ∧ c ≠ ',' := by
  intro c hc
  have hchar := isSuffixChar_of_mem_suffixesText c hc
  refine ⟨?_, ?_, ?_⟩ <;> rintro rfl <;> cases hchar

/-- The suffixes directly behind a list end at the first word. -/
theorem takeWhile_suffixesText (lengths : List (Option Nat)) (names : List (List Char)) :
    (suffixesText lengths ++ spaced names).takeWhile isSuffixChar = suffixesText lengths := by
  have hstop : (spaced names).takeWhile isSuffixChar = [] := by
    cases names with
    | nil => rfl
    | cons name names => rfl
  rw [List.takeWhile_append_of_pos isSuffixChar_of_mem_suffixesText, hstop, List.append_nil]

theorem withSuffix_suffixesText {lengths : List (Option Nat)} (h : AreCounts lengths) (kind : Kind) :
    kind.withSuffix (suffixesText lengths) = .ok (lengths.foldl Kind.arrayOf kind) := by
  rw [Kind.withSuffix, suffixes?, trim_of_not_isBlank isBlank_of_mem_suffixesText,
    (suffixes_suffixesText h).suffixesFrom?_eq isBlank_of_mem_suffixesText]

/-! ### Declarations -/

/-- A declaration as it is written: the text of a type and what it stands for, and the words behind it. A space
may stand in front. -/
structure Member where
  isSpaced : Bool
  type : List Char
  kind : Kind
  words : List (List Char)

namespace Member

/-- The blanks in front of the declaration. -/
def front (member : Member) : List Char :=
  if member.isSpaced then [' '] else []

/-- The text of the declaration. -/
def text (member : Member) : List Char :=
  member.front ++ (member.type ++ spaced member.words)

theorem isBlanks_front (member : Member) : IsBlanks member.front := by
  unfold front
  cases member.isSpaced <;> decide

end Member

/-- The text declares the type: by a name or by a list of declared members, with suffixes directly behind it. The
words behind the members are identifiers. -/
inductive Declares : List Char → Kind → Prop where
  | name {name : List Char} {kind : Kind} {lengths : List (Option Nat)} (named : Kind.ofName? name = some kind)
      (counts : AreCounts lengths) : Declares (name ++ suffixesText lengths) (lengths.foldl Kind.arrayOf kind)
  | tuple {keyword : List Char} {members : List Member} {lengths : List (Option Nat)}
      (keyword_eq : keyword = [] ∨ keyword = "tuple".toList) (counts : AreCounts lengths)
      (each : ∀ member ∈ members, Declares member.type member.kind)
      (identifiers : ∀ member ∈ members, ∀ word ∈ member.words, isIdentifier word = true) :
      Declares (keyword ++ '(' :: ([','].intercalate (members.map Member.text) ++ ')' :: suffixesText lengths))
        (lengths.foldl Kind.arrayOf (.tuple (members.map Member.kind)))

theorem isWord_of_ofName? {name : List Char} {kind : Kind} (named : Kind.ofName? name = some kind) : IsWord name := by
  refine ⟨?_, fun c hc => Kind.isBlank_of_isNameChar (Kind.isNameChar_of_ofName? named c hc)⟩
  rintro rfl
  cases named

namespace Declares

variable {type : List Char} {kind : Kind}

theorem hasSolidEnds (h : Declares type kind) : HasSolidEnds type := by
  cases h with
  | @name name kind lengths named counts =>
    have hword := isWord_of_ofName? named
    have hall : IsWord (name ++ suffixesText lengths) :=
      ⟨by simp [hword.ne_nil], List.forall_mem_append.mpr ⟨hword.solid, isBlank_of_mem_suffixesText⟩⟩
    exact .of_word hall
  | @tuple keyword members lengths keyword_eq counts each identifiers =>
    have hfront : HasSolidEnds (keyword ++ ['(']) := by
      rcases keyword_eq with rfl | rfl
      · exact ⟨⟨'(', rfl, rfl⟩, ⟨'(', rfl, rfl⟩⟩
      · exact ⟨⟨'t', rfl, rfl⟩, ⟨'(', rfl, rfl⟩⟩
    have hbehind : HasSolidEnds (')' :: suffixesText lengths) :=
      .of_word ⟨List.cons_ne_nil _ _, List.forall_mem_cons.mpr ⟨rfl, isBlank_of_mem_suffixesText⟩⟩
    have hall := hfront.append ([','].intercalate (members.map Member.text)) hbehind
    simpa using hall

theorem balanced (h : Declares type kind) : Balanced false type := by
  have hsuffixes : ∀ lengths : List (Option Nat), Balanced false (suffixesText lengths) :=
    fun lengths => .of_plain plain_of_mem_suffixesText
  induction h with
  | name named counts =>
    have hname : Balanced false _ :=
      .of_plain fun c hc => ne_paren_of_isNameChar (Kind.isNameChar_of_ofName? named c hc)
    exact hname.append (hsuffixes _)
  | @tuple keyword members lengths keyword_eq counts each identifiers ih =>
    have hmembers : ∀ piece ∈ members.map Member.text, Balanced true piece := by
      refine List.forall_mem_map.mpr fun member hmember => ?_
      have hfront : Balanced true member.front := .of_isBlanks member.isBlanks_front
      exact hfront.append ((ih member hmember).withCommas.append (.spaced (identifiers member hmember)))
    have hkeyword : Balanced false keyword := .of_plain fun c hc => by
      rcases keyword_eq with rfl | rfl
      · cases hc
      · exact ne_paren_of_isNameChar (List.all_eq_true.mp (by decide) c hc)
    exact hkeyword.append (.parens (.intercalate hmembers) (hsuffixes lengths))

end Declares

/-! ### Declarations are read -/

/-- A declaration that is written as it should be: its type is declared, and its words are identifiers. -/
structure Member.IsDeclared (member : Member) : Prop where
  declares : Declares member.type member.kind
  identifiers : ∀ word ∈ member.words, isIdentifier word = true

namespace Member.IsDeclared

variable {member : Member}

theorem isWord (h : member.IsDeclared) : ∀ word ∈ member.words, IsWord word :=
  fun word hword => isWord_of_isIdentifier (h.identifiers word hword)

theorem hasSolidEnds (h : member.IsDeclared) : HasSolidEnds (member.type ++ spaced member.words) :=
  h.declares.hasSolidEnds.append_spaced h.isWord

theorem trim_text (h : member.IsDeclared) : trim member.text = member.type ++ spaced member.words :=
  h.hasSolidEnds.trim_append member.isBlanks_front

theorem balanced (h : member.IsDeclared) : Balanced false member.text := by
  have hfront : Balanced false member.front := .of_isBlanks member.isBlanks_front
  exact hfront.append (h.declares.balanced.append (.spaced h.identifiers))

theorem not_isBlanks (h : member.IsDeclared) : ¬ IsBlanks member.text := by
  intro hblanks
  apply h.hasSolidEnds.not_isBlanks
  intro c hc
  exact hblanks c (List.mem_append_right _ hc)

end Member.IsDeclared

/-- Declared members between commas are found again. -/
theorem declarations?_members {members : List Member} (h : ∀ member ∈ members, member.IsDeclared) :
    declarations? ([','].intercalate (members.map Member.text)) = some (members.map Member.text) := by
  apply declarations?_of_balanced (lists_intercalate _)
  · exact List.forall_mem_map.mpr fun member hmember => (h member hmember).balanced
  · exact List.forall_mem_map.mpr fun member hmember => (h member hmember).not_isBlanks

theorem balanced_members {members : List Member} (h : ∀ member ∈ members, member.IsDeclared) :
    Balanced true ([','].intercalate (members.map Member.text)) :=
  .intercalate (List.forall_mem_map.mpr fun member hmember => (h member hmember).balanced.withCommas)

theorem inputKind_eq_of_trim_eq {declaration other : List Char} (h : trim declaration = trim other) :
    inputKind declaration = inputKind other := by
  rw [inputKind, inputKind]
  simp only
  rw [h]

theorem Member.IsDeclared.inputKind_text {member : Member} (h : member.IsDeclared) :
    inputKind member.text = inputKind (member.type ++ spaced member.words) :=
  inputKind_eq_of_trim_eq (by rw [h.trim_text, h.hasSolidEnds.trim_eq])

section

variable {words : List (List Char)}

theorem not_mem_paren_of_name {name : List Char} {base : Kind} (lengths : List (Option Nat))
    (named : Kind.ofName? name = some base) (hwords : ∀ word ∈ words, isIdentifier word = true) :
    '(' ∉ name ++ suffixesText lengths ++ spaced words := by
  intro hmem
  rcases List.mem_append.mp hmem with htype | hspaced
  · rcases List.mem_append.mp htype with hmem | hmem
    · exact Kind.not_mem_of_ofName? rfl named hmem
    · exact (plain_of_mem_suffixesText _ hmem).1 rfl
  · obtain ⟨word, hword, hmem⟩ := List.mem_flatMap.mp hspaced
    rcases List.mem_cons.mp hmem with hspace | hmem
    · cases hspace
    · exact (plain_of_isIdentifier (hwords word hword) _ hmem).2.1 rfl

theorem afterTuple_list {keyword : List Char} (keyword_eq : keyword = [] ∨ keyword = "tuple".toList)
    (rest : List Char) : Kind.afterTuple (keyword ++ '(' :: rest) = '(' :: rest := by
  rcases keyword_eq with rfl | rfl <;> simp [Kind.afterTuple, afterFront?]

/-- A declaration is read as its type, whatever words stand behind it. -/
theorem Declares.inputKind_eq {type : List Char} {kind : Kind} (h : Declares type kind)
    (hwords : ∀ word ∈ words, isIdentifier word = true) : inputKind (type ++ spaced words) = .ok kind := by
  induction h generalizing words with
  | @name name base lengths named counts =>
    have hends := (Declares.name named counts).hasSolidEnds
    have hsolid : ∀ c ∈ name ++ suffixesText lengths, isBlank c = false :=
      List.forall_mem_append.mpr ⟨(isWord_of_ofName? named).solid, isBlank_of_mem_suffixesText⟩
    have htrim : trim (name ++ suffixesText lengths ++ spaced words) = name ++ suffixesText lengths ++ spaced words :=
      (hends.append_spaced fun word hword => isWord_of_isIdentifier (hwords word hword)).trim_eq
    have hfirst : Text.words (trim (name ++ suffixesText lengths ++ spaced words))
        = (name ++ suffixesText lengths) :: words := by
      rw [htrim, words_append_spaced hsolid fun word hword => isWord_of_isIdentifier (hwords word hword),
        List.filter_cons_of_pos (by simp [(isWord_of_ofName? named).ne_nil]), List.filter_nil, List.singleton_append]
    rw [inputKind_of_words (head?_afterTuple_ne (not_mem_paren_of_name lengths named hwords)) hfirst]
    exact (Spells.append_suffixes (suffixes_suffixesText counts) (.name named)).parse_eq
  | @tuple keyword members lengths keyword_eq counts each identifiers ih =>
    have hdeclared : ∀ member ∈ members, member.IsDeclared :=
      fun member hmember => ⟨each member hmember, identifiers member hmember⟩
    have hends := (Declares.tuple keyword_eq counts each identifiers).hasSolidEnds
    have htrim := (hends.append_spaced fun word hword => isWord_of_isIdentifier (hwords word hword)).trim_eq
    have hafter : Kind.afterTuple (trim (keyword ++ '(' :: ([','].intercalate (members.map Member.text) ++
          ')' :: suffixesText lengths) ++ spaced words))
        = '(' :: ([','].intercalate (members.map Member.text) ++ ')' :: (suffixesText lengths ++ spaced words)) := by
      rw [htrim]
      simpa using afterTuple_list keyword_eq
        ([','].intercalate (members.map Member.text) ++ ')' :: (suffixesText lengths ++ spaced words))
    have hmembers : (members.map Member.text).mapM inputKind = .ok (members.map Member.kind) := by
      apply mapM_map_eq_ok
      intro member hmember
      rw [(hdeclared member hmember).inputKind_text, ih member hmember (identifiers member hmember)]
    rw [inputKind_of_list hafter (balanced_members hdeclared) (declarations?_members hdeclared), hmembers,
      takeWhile_suffixesText]
    exact withSuffix_suffixesText counts _

/-- What stands behind the type of a declaration has its words, and suffixes are none. -/
theorem Declares.contains_behindKind {type : List Char} {kind : Kind} (h : Declares type kind)
    (hwords : ∀ word ∈ words, isIdentifier word = true) :
    (Text.words (behindKind (type ++ spaced words))).contains "indexed".toList = words.contains "indexed".toList := by
  have hword : ∀ word ∈ words, IsWord word := fun word hmem => isWord_of_isIdentifier (hwords word hmem)
  cases h with
  | @name name base lengths named counts =>
    have hsolid : ∀ c ∈ name ++ suffixesText lengths, (!isBlank c) = true := by
      intro c hc
      rw [Bool.not_eq_true']
      exact List.forall_mem_append.mpr ⟨(isWord_of_ofName? named).solid, isBlank_of_mem_suffixesText⟩ c hc
    have hparen := head?_afterTuple_ne (not_mem_paren_of_name lengths named hwords)
    rw [((Declares.name named counts).hasSolidEnds.append_spaced hword).trim_eq] at hparen
    have hbehind : behindKind (name ++ suffixesText lengths ++ spaced words) = (spaced words).drop 1 := by
      unfold behindKind
      split
      · rename_i rest hrest
        rw [hrest] at hparen
        exact absurd rfl hparen
      · rw [List.dropWhile_append_of_pos hsolid]
        cases words <;> rfl
    rw [hbehind]
    cases words with
    | nil => rfl
    | cons word words =>
      obtain ⟨hfirst, hothers⟩ := List.forall_mem_cons.mp hword
      have hdrop : (spaced (word :: words)).drop 1 = word ++ spaced words := rfl
      rw [hdrop, words_append_spaced hfirst.solid hothers, List.filter_cons_of_pos (by simp [hfirst.ne_nil])]
      rfl
  | @tuple keyword members lengths keyword_eq counts each identifiers =>
    have hbalanced : Balanced true ([','].intercalate (members.map Member.text)) :=
      balanced_members fun member hmember => ⟨each member hmember, identifiers member hmember⟩
    have hafter := afterTuple_list keyword_eq
      ([','].intercalate (members.map Member.text) ++ ')' :: (suffixesText lengths ++ spaced words))
    have hbehind : behindKind (keyword ++ '(' :: ([','].intercalate (members.map Member.text) ++
        ')' :: suffixesText lengths) ++ spaced words) = suffixesText lengths ++ spaced words := by
      simp only [List.append_assoc, List.cons_append]
      rw [behindKind, hafter]
      simp only
      rw [closeParen?_of_balanced hbalanced, Option.elim_some]
    have hnone : "indexed".toList ∉ [suffixesText lengths].filter (!·.isEmpty) := by
      intro hmem
      have hsuffixes : "indexed".toList = suffixesText lengths := List.mem_singleton.mp (List.mem_filter.mp hmem).1
      have hletter : 'i' ∈ suffixesText lengths := by
        rw [← hsuffixes]
        decide
      cases isSuffixChar_of_mem_suffixesText _ hletter
    rw [hbehind, words_append_spaced isBlank_of_mem_suffixesText hword, Bool.eq_iff_iff, List.contains_iff_mem,
      List.contains_iff_mem, List.mem_append, or_iff_right hnone]

end

/-- A declared input is read: as its type, and as indexed exactly if that word is among those behind it. -/
theorem Member.IsDeclared.readInput_eq {member : Member} (h : member.IsDeclared) :
    readInput member.text = .ok ⟨member.kind, member.words.contains "indexed".toList⟩ := by
  have hindexed := h.declares.contains_behindKind h.identifiers
  rw [readInput, h.inputKind_text, h.declares.inputKind_eq h.identifiers, h.trim_text]
  simp only [bind, Except.bind, pure, Except.pure]
  rw [hindexed]

/-! ### Canonical texts are declarations -/

theorem Declares.arrayOf {type : List Char} {kind : Kind} (h : Declares type kind) {length : Option Nat}
    (hlength : ∀ n ∈ length, n ≤ maxCount) : Declares (type ++ (suffixText length).toList) (kind.arrayOf length) := by
  have hone : suffixesText [length] = (suffixText length).toList := List.append_nil _
  have hcounts : ∀ {lengths : List (Option Nat)}, AreCounts lengths → AreCounts (lengths ++ [length]) :=
    fun hlengths => List.forall_mem_append.mpr ⟨hlengths, by simpa using hlength⟩
  cases h with
  | @name name base lengths named counts =>
    have hdeclares := Declares.name named (hcounts counts)
    rw [List.foldl_append, suffixesText_append, hone, ← List.append_assoc] at hdeclares
    exact hdeclares
  | @tuple keyword members lengths keyword_eq counts each identifiers =>
    have hdeclares := Declares.tuple keyword_eq (hcounts counts) each identifiers
    rw [List.foldl_append, suffixesText_append, hone] at hdeclares
    simpa using hdeclares

/-- The canonical text of a type declares it. -/
theorem declares_text {kind : Kind} (h : kind.IsAdmitted) : Declares kind.text.toList kind := by
  have hname : ∀ {kind : Kind}, Kind.ofName? kind.text.toList = some kind → Declares kind.text.toList kind := by
    intro kind named
    have hdeclares := @Declares.name _ _ [] named (by simp [AreCounts])
    simpa [suffixesText] using hdeclares
  have hsuffixed : ∀ {elem : Kind} (length : Option Nat), (elem.arrayOf length).IsAdmitted →
      Declares elem.text.toList elem → Declares (elem.arrayOf length).text.toList (elem.arrayOf length) := by
    intro elem length hadmitted helem
    rw [Kind.text_arrayOf, String.toList_append]
    exact helem.arrayOf hadmitted.length_le
  induction h with
  | uint width => exact hname (Kind.ofName?_text_uint width)
  | int width => exact hname (Kind.ofName?_text_int width)
  | address => exact hname rfl
  | bool => exact hname rfl
  | fixedBytes least greatest => exact hname (Kind.ofName?_text_fixedBytes least greatest)
  | bytes => exact hname rfl
  | string => exact hname rfl
  | array elem_admitted ih => exact hsuffixed none (.array elem_admitted) ih
  | @fixedArray elem length elem_admitted count ih => exact hsuffixed (some length) (.fixedArray elem_admitted count) ih
  | @tuple members _ ih =>
    have hdeclares := @Declares.tuple [] (members.map fun kind => ⟨false, kind.text.toList, kind, []⟩) [] (.inl rfl)
      (by simp [AreCounts]) (List.forall_mem_map.mpr ih) (by simp)
    rw [Kind.text, Kind.toList_parenthesized, Kind.texts_eq_map, List.map_map]
    simpa [Function.comp_def, Member.text, Member.front, spaced, suffixesText] using hdeclares

end Abi
end EthWire
