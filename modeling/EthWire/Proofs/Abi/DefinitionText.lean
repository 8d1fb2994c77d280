/-
# Definitions that are written out

A definition is written with one of the keywords in front or none, its name, the declared inputs in parentheses,
any modifiers, and perhaps the word `returns` with the declared outputs (`Abi.DefinitionText`). Whatever is chosen
for the keyword, the modifiers and the names, the reader gives the name, the inputs and the outputs that are
written (`Abi.DefinitionText.parse_text`).

Two searches could go astray before the declarations are reached. A keyword is cut off only with the space behind
it, and a name is followed by a parenthesis, so a definition may even be named like a keyword. The outputs are
looked for behind the first `returns`, and that word has no blank, so it could be found early only inside of a
single modifier.

The canonical text of a definition is such a text as well, with nothing but the name and the types. So it is read
again as these, for every line that is accepted at all: such a line has an identifier for its name, and its inputs
have admitted types (`Abi.isAdmitted_of_inputKind`).

Key definitions: `Abi.Keyword`, `Abi.Declaration`, `Abi.ReturnsClause`, `Abi.DefinitionText`.
Key theorems: `Abi.afterFirst?_spaced`, `Abi.DefinitionText.parse_text`, `Abi.DefinitionText.parse_canonical`,
`Abi.written_definitions_are_read`.
-/
import EthWire.Proofs.Abi.Declarations

namespace EthWire

theorem Text.cutAt?_append {mark : Char} {front : List Char} (h : mark ∉ front) (rest : List Char) :
    cutAt? mark (front ++ mark :: rest) = some (front, rest) := by
  induction front with
  | nil => rw [List.nil_append, cutAt?, if_pos rfl]
  | cons c front ih =>
    obtain ⟨hc, hfront⟩ := List.ne_and_not_mem_of_not_mem_cons h
    rw [List.cons_append, cutAt?, if_neg (Ne.symm hc), ih hfront]
    rfl

namespace Abi

open Text

/-! ### The keyword in front -/

/-- The words that can stand in front of a definition. -/
inductive Keyword where
  | function
  | event
  | error
  deriving DecidableEq, Repr

namespace Keyword

/-- The word. -/
def text : Keyword → String
  | function => "function"
  | event => "event"
  | error => "error"

/-- The keyword and the space behind it, if there is one. -/
def front : Option Keyword → List Char
  | none => []
  | some keyword => keyword.text.toList ++ [' ']

theorem isWord_text (keyword : Keyword) : IsWord keyword.text.toList := by
  have hsolid : keyword.text.toList.all (!isBlank ·) = true := by
    cases keyword <;> decide
  refine ⟨?_, fun c hc => by simpa using List.all_eq_true.mp hsolid c hc⟩
  cases keyword <;> exact List.cons_ne_nil _ _

end Keyword

section

variable {name : List Char}

/-- What follows a name is a parenthesis and no space, so it is no keyword. -/
theorem afterKeyword_name (hname : isIdentifier name = true) {keyword : String} (hkeyword : '(' ∉ keyword.toList)
    (rest : List Char) : afterKeyword (name ++ '(' :: rest) keyword = name ++ '(' :: rest := by
  have hspace : ' ' ∉ name := by
    intro hmem
    cases (plain_of_isIdentifier hname _ hmem).1
  have hnone : afterFront? (keyword.toList ++ [' ']) (name ++ '(' :: rest) = none := by
    rw [afterFront?, if_neg]
    intro hstart
    obtain ⟨behind, hbehind⟩ := List.isPrefixOf_iff_prefix.mp hstart
    rcases List.append_eq_append_iff.mp hbehind with ⟨others, hothers, -⟩ | ⟨others, hothers, hparen⟩
    · exact hspace (by simp [hothers])
    · cases others with
      | nil => exact hspace (by rw [List.append_nil] at hothers; simp [← hothers])
      | cons c others =>
        obtain ⟨rfl, -⟩ := List.cons.inj hparen
        have hmem : '(' ∈ keyword.toList ++ [' '] := by simp [hothers]
        simp [hkeyword] at hmem
  rw [afterKeyword, hnone]

theorem afterKeyword_keyword (keyword : String) {text : List Char} (h : ∃ c, text.head? = some c ∧ isBlank c = false) :
    afterKeyword (keyword.toList ++ [' '] ++ text) keyword = text := by
  have hfound : afterFront? (keyword.toList ++ [' ']) (keyword.toList ++ [' '] ++ text) = some text := by
    rw [afterFront?, if_pos (List.isPrefixOf_iff_prefix.mpr (List.prefix_append _ _)), List.drop_left]
  obtain ⟨c, hc, hblank⟩ := h
  rw [afterKeyword, hfound]
  apply dropWhile_isBlank_of_head?
  intro d hd
  rwa [← Option.some.inj (hc.symm.trans hd)]

/-- The keyword is cut off, and nothing of the name. -/
theorem foldl_afterKeyword (keyword : Option Keyword) (hname : isIdentifier name = true) (rest : List Char) :
    ["function", "event", "error"].foldl afterKeyword (Keyword.front keyword ++ (name ++ '(' :: rest))
      = name ++ '(' :: rest := by
  have hhead : ∃ c, (name ++ '(' :: rest).head? = some c ∧ isBlank c = false := by
    obtain ⟨c, hc, hblank⟩ := (HasSolidEnds.of_word (isWord_of_isIdentifier hname)).head
    exact ⟨c, by rw [List.head?_append, hc, Option.some_or], hblank⟩
  have hfunction := afterKeyword_name hname (by decide : '(' ∉ "function".toList) rest
  have hevent := afterKeyword_name hname (by decide : '(' ∉ "event".toList) rest
  have herror := afterKeyword_name hname (by decide : '(' ∉ "error".toList) rest
  simp only [List.foldl_cons, List.foldl_nil]
  cases keyword with
  | none =>
    rw [Keyword.front, List.nil_append, hfunction, hevent, herror]
  | some keyword =>
    cases keyword with
    | function =>
      have hcut := afterKeyword_keyword "function" hhead
      rw [Keyword.front, Keyword.text, hcut, hevent, herror]
    | event =>
      have hother : afterKeyword ("event".toList ++ [' '] ++ (name ++ '(' :: rest)) "function"
          = "event".toList ++ [' '] ++ (name ++ '(' :: rest) := rfl
      have hcut := afterKeyword_keyword "event" hhead
      rw [Keyword.front, Keyword.text, hother, hcut, herror]
    | error =>
      have hfirst : afterKeyword ("error".toList ++ [' '] ++ (name ++ '(' :: rest)) "function"
          = "error".toList ++ [' '] ++ (name ++ '(' :: rest) := rfl
      have hsecond : afterKeyword ("error".toList ++ [' '] ++ (name ++ '(' :: rest)) "event"
          = "error".toList ++ [' '] ++ (name ++ '(' :: rest) := rfl
      have hcut := afterKeyword_keyword "error" hhead
      rw [Keyword.front, Keyword.text, hfirst, hsecond, hcut]

end

/-! ### The modifiers -/

section

variable {mark : List Char}

/-- A mark is looked for behind a character that it does not have. -/
theorem afterFirst?_append {word : List Char} {c : Char} (hc : c ∉ mark) (hword : ¬ mark <:+: word)
    (rest : List Char) : afterFirst? mark (word ++ c :: rest) = afterFirst? mark rest := by
  have hfails : ∀ front : List Char, ¬ mark <:+: front → ¬ mark <+: front ++ c :: rest := by
    intro front hfront hstart
    obtain ⟨behind, hbehind⟩ := hstart
    rcases List.append_eq_append_iff.mp hbehind with ⟨others, hothers, -⟩ | ⟨others, hothers, hrest⟩
    · exact hfront (hothers ▸ (List.prefix_append mark others).isInfix)
    · cases others with
      | nil =>
        rw [List.append_nil] at hothers
        exact hfront (hothers ▸ List.infix_rfl)
      | cons d others =>
        obtain ⟨rfl, -⟩ := List.cons.inj hrest
        exact hc (by simp [hothers])
  induction word with
  | nil =>
    have hnone : ¬ mark.isPrefixOf (c :: rest) = true :=
      fun hstart => hfails [] hword (List.isPrefixOf_iff_prefix.mp hstart)
    rw [List.nil_append, afterFirst?, afterFront?, if_neg hnone]
  | cons x word ih =>
    have hnone : ¬ mark.isPrefixOf (x :: word ++ c :: rest) = true :=
      fun hstart => hfails (x :: word) hword (List.isPrefixOf_iff_prefix.mp hstart)
    have hshorter : ¬ mark <:+: word := fun hfound => hword (hfound.trans (List.infix_cons List.infix_rfl))
    rw [List.cons_append] at hnone ⊢
    rw [afterFirst?, afterFront?, if_neg hnone]
    exact ih hshorter

theorem afterFirst?_eq_none {word : List Char} (hword : ¬ mark <:+: word) : afterFirst? mark word = none := by
  induction word with
  | nil =>
    have hsome : ¬ mark.isEmpty = true := by
      intro hempty
      rw [List.isEmpty_iff.mp hempty] at hword
      exact hword List.infix_rfl
    rw [afterFirst?, if_neg hsome]
  | cons x word ih =>
    have hnone : ¬ mark.isPrefixOf (x :: word) = true :=
      fun hstart => hword (List.isPrefixOf_iff_prefix.mp hstart).isInfix
    have hshorter : ¬ mark <:+: word := fun hfound => hword (hfound.trans (List.infix_cons List.infix_rfl))
    rw [afterFirst?, afterFront?, if_neg hnone]
    exact ih hshorter

/-- A mark is looked for behind words that it does not occur in. -/
theorem afterFirst?_spaced {words : List (List Char)} (hspace : ' ' ∉ mark)
    (hwords : ∀ word ∈ words, ¬ mark <:+: word) {first : List Char} (hfirst : ¬ mark <:+: first) :
    afterFirst? mark (first ++ spaced words) = none ∧
      ∀ rest, afterFirst? mark (first ++ (spaced words ++ ' ' :: rest)) = afterFirst? mark rest := by
  induction words generalizing first with
  | nil =>
    have hnil : first ++ spaced [] = first := List.append_nil first
    exact ⟨by rw [hnil, afterFirst?_eq_none hfirst], fun rest => afterFirst?_append hspace hfirst rest⟩
  | cons word words ih =>
    obtain ⟨hword, hothers⟩ := List.forall_mem_cons.mp hwords
    obtain ⟨hnone, hsome⟩ := ih hothers hword
    rw [spaced_cons, afterFirst?_append hspace hfirst]
    refine ⟨hnone, fun rest => ?_⟩
    rw [List.cons_append, List.append_assoc, afterFirst?_append hspace hfirst, hsome]

end

/-! ### Definitions as they are written -/

/-- An input or an output as it is written: the text of its type, whether the word `indexed` follows, and names, of
the place of the data or its own. A space may stand in front. -/
structure Declaration where
  isSpaced : Bool
  type : List Char
  kind : Kind
  declares : Declares type kind
  indexed : Bool
  names : List (List Char)
  identifiers : ∀ name ∈ names, isIdentifier name = true ∧ name ≠ "indexed".toList

namespace Declaration

/-- The declaration with all words behind its type. -/
def member (declaration : Declaration) : Member :=
  ⟨declaration.isSpaced, declaration.type, declaration.kind,
    (if declaration.indexed then ["indexed".toList] else []) ++ declaration.names⟩

/-- The text of the declaration. -/
def text (declaration : Declaration) : List Char :=
  declaration.member.text

/-- The input that is declared. -/
def input (declaration : Declaration) : Input :=
  ⟨declaration.kind, declaration.indexed⟩

theorem isDeclared_member (declaration : Declaration) : declaration.member.IsDeclared := by
  refine ⟨declaration.declares, List.forall_mem_append.mpr ⟨?_, fun name hname => ?_⟩⟩
  · cases declaration.indexed
    · simp
    · simpa using (by decide : isIdentifier "indexed".toList = true)
  · exact (declaration.identifiers name hname).1

theorem readInput_text (declaration : Declaration) : readInput declaration.text = .ok declaration.input := by
  have hnone : declaration.names.contains "indexed".toList = false := by
    rw [← Bool.not_eq_true, List.contains_iff_mem]
    intro hmem
    exact (declaration.identifiers _ hmem).2 rfl
  have hindexed : declaration.member.words.contains "indexed".toList = declaration.indexed := by
    rw [member, List.contains_append, hnone, Bool.or_false]
    cases declaration.indexed <;> rfl
  rw [text, declaration.isDeclared_member.readInput_eq, hindexed]
  rfl

theorem inputKind_text (declaration : Declaration) : inputKind declaration.text = .ok declaration.kind := by
  have hdeclared := declaration.isDeclared_member
  rw [text, hdeclared.inputKind_text, hdeclared.declares.inputKind_eq hdeclared.identifiers]
  rfl

/-- The texts of declarations with commas between them. -/
def listText (declarations : List Declaration) : List Char :=
  [','].intercalate (declarations.map text)

theorem declarations?_listText (declarations : List Declaration) :
    declarations? (listText declarations) = some (declarations.map text) := by
  have hmembers := @declarations?_members (declarations.map member)
    (List.forall_mem_map.mpr fun declaration _ => declaration.isDeclared_member)
  rwa [List.map_map] at hmembers

theorem balanced_listText (declarations : List Declaration) : Balanced true (listText declarations) := by
  have hmembers := @balanced_members (declarations.map member)
    (List.forall_mem_map.mpr fun declaration _ => declaration.isDeclared_member)
  rwa [List.map_map] at hmembers

end Declaration

/-- The outputs behind the word `returns`. A space may stand between them. -/
structure ReturnsClause where
  isSpaced : Bool
  outputs : List Declaration

namespace ReturnsClause

/-- What stands behind the word `returns`. -/
def behind (clause : ReturnsClause) : List Char :=
  (if clause.isSpaced then [' '] else []) ++ '(' :: (Declaration.listText clause.outputs ++ [')'])

/-- The text of the clause, if there is one, with a space in front. -/
def text : Option ReturnsClause → List Char
  | none => []
  | some clause => ' ' :: ("returns".toList ++ clause.behind)

/-- The outputs, none without a clause. -/
def kinds (clause : Option ReturnsClause) : List Kind :=
  (clause.elim [] outputs).map Declaration.kind

end ReturnsClause

/-- A word that is a modifier: the word `returns` does not occur in it. -/
structure IsModifier (word : List Char) : Prop where
  isWord : IsWord word
  no_returns : ¬ "returns".toList <:+: word

/-- A definition as it is written. -/
structure DefinitionText where
  keyword : Option Keyword
  name : List Char
  isIdentifier_name : isIdentifier name = true
  inputs : List Declaration
  modifiers : List (List Char)
  isModifier : ∀ word ∈ modifiers, IsModifier word
  returns : Option ReturnsClause

namespace DefinitionText

variable (d : DefinitionText)

/-- What stands behind the inputs. -/
def behind : List Char :=
  spaced d.modifiers ++ ReturnsClause.text d.returns

/-- The line without the keyword. -/
def line : List Char :=
  d.name ++ '(' :: (Declaration.listText d.inputs ++ ')' :: d.behind)

/-- The text of the definition. -/
def text : String :=
  String.ofList (Keyword.front d.keyword ++ d.line)

/-- The definition that is written. -/
def definition : Definition :=
  ⟨String.ofList d.name, d.inputs.map Declaration.input, ReturnsClause.kinds d.returns⟩

theorem hasSolidEnds : HasSolidEnds (Keyword.front d.keyword ++ d.line) := by
  have hword : ∀ word ∈ d.modifiers, IsWord word := fun word hmem => (d.isModifier word hmem).isWord
  have hname : HasSolidEnds (Keyword.front d.keyword ++ d.name) := by
    have hends := HasSolidEnds.of_word (isWord_of_isIdentifier d.isIdentifier_name)
    cases d.keyword with
    | none => exact hends
    | some keyword =>
      have hkeyword := (HasSolidEnds.of_word keyword.isWord_text).append [' '] hends
      rw [Keyword.front, List.append_assoc]
      exact hkeyword
  have hparen : HasSolidEnds [')'] := .of_word ⟨List.cons_ne_nil _ _, by simp [isBlank]⟩
  have hbehind : HasSolidEnds ([')'] ++ d.behind) := by
    have hmodifiers := hparen.append_spaced hword
    unfold behind
    cases d.returns with
    | none => simpa [ReturnsClause.text] using hmodifiers
    | some clause =>
      have hclause := hmodifiers.append (' ' :: ("returns".toList ++ ((if clause.isSpaced then [' '] else []) ++
        '(' :: Declaration.listText clause.outputs))) hparen
      simpa [ReturnsClause.text, ReturnsClause.behind] using hclause
  have hall := hname.append ('(' :: Declaration.listText d.inputs) hbehind
  simpa [line] using hall

theorem outputDeclarations?_behind :
    Definition.outputDeclarations? d.behind
      = some ((d.returns.elim [] ReturnsClause.outputs).map Declaration.text) := by
  have hspace : ' ' ∉ "returns".toList := by decide
  have hnil : ¬ "returns".toList <:+: [] := by decide
  have hmodifiers : ∀ word ∈ d.modifiers, ¬ "returns".toList <:+: word :=
    fun word hmem => (d.isModifier word hmem).no_returns
  obtain ⟨hnone, hsome⟩ := afterFirst?_spaced hspace hmodifiers hnil
  rw [List.nil_append] at hnone
  unfold Definition.outputDeclarations? behind
  cases d.returns with
  | none =>
    rw [ReturnsClause.text, List.append_nil, hnone]
    rfl
  | some clause =>
    have hfound : afterFirst? "returns".toList (spaced d.modifiers ++ ReturnsClause.text (some clause))
        = some clause.behind := by
      have hskipped := hsome ("returns".toList ++ clause.behind)
      rw [List.nil_append] at hskipped
      rw [ReturnsClause.text, hskipped]
      rfl
    have hopen : trimStart clause.behind = '(' :: (Declaration.listText clause.outputs ++ [')']) := by
      unfold ReturnsClause.behind
      cases clause.isSpaced <;> rfl
    rw [hfound]
    simp only
    rw [hopen]
    simp only
    rw [closeParen?_of_balanced (Declaration.balanced_listText clause.outputs)]
    exact Declaration.declarations?_listText clause.outputs

/-- A definition is read as it is written. -/
theorem parse_text : Definition.parse d.text = .ok d.definition := by
  have hname := isWord_of_isIdentifier d.isIdentifier_name
  have hparen : '(' ∉ d.name := fun hmem => (plain_of_isIdentifier d.isIdentifier_name _ hmem).2.1 rfl
  have htrim : trim d.name = d.name := (HasSolidEnds.of_word hname).trim_eq
  have hcut : cutAt? '(' (["function", "event", "error"].foldl afterKeyword (trim d.text.toList))
      = some (d.name, Declaration.listText d.inputs ++ ')' :: d.behind) := by
    rw [text, String.toList_ofList, d.hasSolidEnds.trim_eq, line, foldl_afterKeyword d.keyword d.isIdentifier_name,
      cutAt?_append hparen]
  have hclose := closeParen?_of_balanced (Declaration.balanced_listText d.inputs) d.behind
  have hinputs : (d.inputs.map Declaration.text).mapM readInput = .ok (d.inputs.map Declaration.input) :=
    mapM_map_eq_ok fun declaration _ => declaration.readInput_text
  have houtputs : ((d.returns.elim [] ReturnsClause.outputs).map Declaration.text).mapM inputKind
      = .ok (ReturnsClause.kinds d.returns) :=
    mapM_map_eq_ok fun declaration _ => declaration.inputKind_text
  have hparse := Definition.parse_eq_ok hcut (by rw [htrim]; exact d.isIdentifier_name) hclose
    (Declaration.declarations?_listText d.inputs) hinputs d.outputDeclarations?_behind houtputs
  rw [htrim] at hparse
  exact hparse

end DefinitionText

/-! ### What an accepted line holds -/

theorem Suffixes.isAdmitted {text : List Char} {lengths : List (Option Nat)} (h : Suffixes text lengths) {kind : Kind}
    (hkind : kind.IsAdmitted) : (lengths.foldl Kind.arrayOf kind).IsAdmitted := by
  induction h generalizing kind with
  | nil => exact hkind
  | blank _ _ ih => exact ih hkind
  | suffix size_eq _ ih => exact ih (hkind.arrayOf size_eq)

theorem isAdmitted_of_withSuffix {elem kind : Kind} {suffix : List Char} (helem : elem.IsAdmitted)
    (h : elem.withSuffix suffix = .ok kind) : kind.IsAdmitted := by
  rw [Kind.withSuffix, suffixes?] at h
  split at h
  · rename_i lengths hlengths
    obtain rfl := Except.ok.inj h
    exact (Suffixes.of_suffixesFrom? hlengths).isAdmitted helem
  · cases h

/-- A declaration that is read is a list of declared members with suffixes behind it, or a word names its type. -/
theorem inputKind_cases {declaration : List Char} {kind : Kind} (h : inputKind declaration = .ok kind) :
    (∃ rest inside behind pieces members, Kind.afterTuple (trim declaration) = '(' :: rest ∧
        closeParen? 0 rest = some (inside, behind) ∧ declarations? inside = some pieces ∧
        pieces.mapM inputKind = .ok members ∧
        (Kind.tuple members).withSuffix (behind.takeWhile isSuffixChar) = .ok kind) ∨
      ∃ word, Kind.parse word = .ok kind := by
  rw [inputKind] at h
  simp only at h
  split at h
  · rename_i rest hrest
    split at h
    · cases h
    · rename_i inside behind hclose
      refine .inl ⟨rest, inside, behind, ?_⟩
      by_cases hempty : (trim inside).isEmpty = true
      · have hnone : declarations? inside = some [] := by rw [declarations?, if_pos hempty]
        rw [if_pos hempty] at h
        obtain ⟨members, hmembers, hsuffix⟩ := bind_eq_ok_iff.mp h
        exact ⟨[], members, hrest, hclose, hnone, hmembers, hsuffix⟩
      · rw [if_neg hempty] at h
        split at h
        · rename_i pieces hsplit
          have hsome : declarations? inside = some pieces := by rw [declarations?, if_neg hempty, hsplit]
          obtain ⟨members, hmembers, hsuffix⟩ := bind_eq_ok_iff.mp h
          rw [mapM_attach inputKind pieces] at hmembers
          exact ⟨pieces, members, hrest, hclose, hsome, hmembers, hsuffix⟩
        · cases h
  · split at h
    · cases h
    · exact .inr ⟨_, h⟩

/-- What a declaration is read as is an admitted type. -/
theorem isAdmitted_of_inputKind {declaration : List Char} {kind : Kind} (h : inputKind declaration = .ok kind) :
    kind.IsAdmitted := by
  rcases inputKind_cases h with ⟨rest, inside, behind, pieces, members, hlist, hclose, hpieces, hmembers, hsuffix⟩ |
    ⟨word, hword⟩
  · refine isAdmitted_of_withSuffix (.tuple ?_) hsuffix
    obtain ⟨rows, rfl, rfl, hrows⟩ := exists_rows_of_mapM hmembers
    refine List.forall_mem_map.mpr fun row hrow => ?_
    have hshorter : row.1.length < declaration.length := by
      have hpiece := length_le_of_declarations? hpieces row.1 (List.mem_map_of_mem hrow)
      have hinside := length_of_closeParen hclose
      have hafter := Kind.length_afterTuple (trim declaration)
      have htrim := length_trim_le declaration
      rw [hlist, List.length_cons] at hafter
      omega
    exact isAdmitted_of_inputKind (hrows row hrow)
  · exact (spells_of_parse hword).isAdmitted
termination_by declaration.length

theorem Definition.isAdmitted_of_parse {text : String} {definition : Definition} (h : parse text = .ok definition) :
    isIdentifier definition.name.toList = true ∧ ∀ kind ∈ definition.inputKinds, kind.IsAdmitted := by
  obtain ⟨front, declared, hname, hidentifier, hinputs⟩ := exists_pieces_of_parse h
  constructor
  · rw [hname, String.toList_ofList]
    exact hidentifier
  · obtain ⟨rows, -, hrows_inputs, hrows⟩ := exists_rows_of_mapM hinputs
    rw [inputKinds, ← hrows_inputs, List.map_map]
    refine List.forall_mem_map.mpr fun row hrow => ?_
    obtain ⟨kind, hkind, hinput⟩ := bind_eq_ok_iff.mp (hrows row hrow)
    have hrow_kind : row.2.kind = kind := by rw [← pure_eq_ok_iff.mp hinput]
    rw [Function.comp_apply, hrow_kind]
    exact isAdmitted_of_inputKind hkind

/-! ### Canonical texts -/

/-- An input with nothing but its type, which is written in the canonical way. -/
def Declaration.canonical (kind : Kind) (admitted : kind.IsAdmitted) : Declaration :=
  ⟨false, kind.text.toList, kind, declares_text admitted, false, [], by simp⟩

theorem Declaration.text_canonical {kind : Kind} (admitted : kind.IsAdmitted) :
    (canonical kind admitted).text = kind.text.toList :=
  List.append_nil _

/-- What is told of a canonical declaration by its type alone is told of a list by the types. -/
theorem Declaration.map_canonical {β : Type} {value : Declaration → β} {valueOf : Kind → β}
    (h : ∀ kind admitted, value (canonical kind admitted) = valueOf kind) {kinds : List Kind}
    (admitted : ∀ kind ∈ kinds, kind.IsAdmitted) : (kinds.pmap canonical admitted).map value = kinds.map valueOf := by
  rw [List.map_pmap]
  simp only [h]
  exact List.pmap_eq_map admitted

/-- The canonical text of a definition as a written one. -/
def Definition.canonicalText (definition : Definition) (name : isIdentifier definition.name.toList = true)
    (admitted : ∀ kind ∈ definition.inputKinds, kind.IsAdmitted) : DefinitionText :=
  ⟨none, definition.name.toList, name, definition.inputKinds.pmap Declaration.canonical admitted, [], by simp, none⟩

theorem Definition.text_canonicalText (definition : Definition) (name : isIdentifier definition.name.toList = true)
    (admitted : ∀ kind ∈ definition.inputKinds, kind.IsAdmitted) :
    (definition.canonicalText name admitted).text = definition.canonical := by
  have htexts : (definition.inputKinds.pmap Declaration.canonical admitted).map Declaration.text
      = definition.inputKinds.map fun kind => kind.text.toList :=
    Declaration.map_canonical (fun _ => Declaration.text_canonical) admitted
  rw [← String.toList_inj, canonical, String.toList_append, Kind.toList_parenthesized, List.map_map]
  simp only [canonicalText, DefinitionText.text, DefinitionText.line, DefinitionText.behind, Declaration.listText,
    htexts, String.toList_ofList]
  simp [Keyword.front, spaced, ReturnsClause.text, Function.comp_def]

/-- The canonical text of a definition is read as the name and the types that it has. -/
theorem Definition.parse_canonical_eq (definition : Definition) (name : isIdentifier definition.name.toList = true)
    (admitted : ∀ kind ∈ definition.inputKinds, kind.IsAdmitted) :
    parse definition.canonical = .ok ⟨definition.name, definition.inputKinds.map (⟨·, false⟩), []⟩ := by
  have hinputs : (definition.inputKinds.pmap Declaration.canonical admitted).map Declaration.input
      = definition.inputKinds.map (⟨·, false⟩) :=
    Declaration.map_canonical (fun _ _ => rfl) admitted
  have hparse := (definition.canonicalText name admitted).parse_text
  rw [definition.text_canonicalText, DefinitionText.definition] at hparse
  simp only [Definition.canonicalText, hinputs, String.ofList_toList] at hparse
  exact hparse

theorem DefinitionText.parse_canonical {text : String} {definition : Definition}
    (h : Definition.parse text = .ok definition) :
    Definition.parse definition.canonical
      = .ok ⟨definition.name, definition.inputKinds.map (⟨·, false⟩), []⟩ := by
  obtain ⟨hname, hadmitted⟩ := Definition.isAdmitted_of_parse h
  exact definition.parse_canonical_eq hname hadmitted

/-- **A definition that is written out is read as it is written**, whatever keyword, names, modifiers and outputs it
has, and its canonical text has only its name and the types of its inputs. A canonical text is its own. -/
theorem written_definitions_are_read :
    (∀ d : DefinitionText,
      Definition.parse d.text
          = .ok ⟨String.ofList d.name, d.inputs.map fun input => ⟨input.kind, input.indexed⟩,
            (d.returns.elim [] (·.outputs)).map (·.kind)⟩ ∧
        (Definition.parse d.text).map Definition.canonical
          = .ok (String.ofList d.name ++ Kind.parenthesized (d.inputs.map (·.kind.text)))) ∧
      ∀ text canonical : String, (Definition.parse text).map Definition.canonical = .ok canonical →
        (Definition.parse canonical).map Definition.canonical = .ok canonical := by
  constructor
  · intro d
    have hparse := d.parse_text
    refine ⟨hparse, ?_⟩
    rw [hparse, Except.map, DefinitionText.definition, Definition.canonical, Definition.inputKinds, List.map_map,
      List.map_map]
    rfl
  · intro text canonical h
    obtain ⟨definition, hdefinition, rfl⟩ := map_eq_ok_iff.mp h
    have hkinds : (⟨definition.name, definition.inputKinds.map (⟨·, false⟩), []⟩ : Definition).inputKinds
        = definition.inputKinds := by
      rw [Definition.inputKinds, List.map_map]
      exact List.map_id definition.inputKinds
    rw [DefinitionText.parse_canonical hdefinition, Except.map, Definition.canonical, hkinds]
    rfl

/-- A function with an indexed input, a tuple with a named member and an output. -/
theorem function_with_a_tuple_is_read :
    Definition.parse "function pay(address indexed to, tuple(uint8 amount,bool)[2] parts) view returns (bool)"
      = .ok ⟨"pay", [⟨.address, true⟩, ⟨.fixedArray (.tuple [.uint 8, .bool]) 2, false⟩], [.bool]⟩ := by
  have huint : Declares (Kind.uint 8).text.toList (.uint 8) := declares_text (.uint ⟨rfl, by decide, by decide⟩)
  have hbool : Declares "bool".toList .bool := declares_text .bool
  have hparts : Declares "tuple(uint8 amount,bool)[2]".toList (.fixedArray (.tuple [.uint 8, .bool]) 2) :=
    @Declares.tuple "tuple".toList
      [⟨false, "uint8".toList, .uint 8, ["amount".toList]⟩, ⟨false, "bool".toList, .bool, []⟩] [some 2] (.inr rfl)
      (by simp [AreCounts, maxCount]) (by simpa using ⟨huint, hbool⟩) (by simp; decide)
  have hview : IsWord "view".toList := isWord_of_isIdentifier (by decide)
  exact (written_definitions_are_read.1 ⟨some .function, "pay".toList, by decide,
    [⟨false, _, _, declares_text .address, true, ["to".toList], by decide⟩,
      ⟨true, _, _, hparts, false, ["parts".toList], by decide⟩],
    ["view".toList], by simpa using ⟨hview, by decide⟩,
    some ⟨true, [⟨false, _, _, hbool, false, [], by simp⟩]⟩⟩).1

end Abi
end EthWire
