/-
# Canonical texts are read back

The canonical text of a type is written from the inside out: the elements first, then the suffix. So it is a text
of the grammar for every type whose widths and lengths can be read (`Abi.Kind.IsAdmitted`), and the reader gives
the type again. These types are also the only ones that any text names.

The interface description of a contract writes a type as a record instead (`Abi.Parameter.ofKind`). Below all
array suffixes stands either a tuple, and then the record has the word `tuple` with the suffixes behind it and a
record for each member, or it has the canonical text. The reader of records goes the other way around, with all
suffixes at once. What carries the induction is that a record which stands for a type, with one more suffix
behind its text, stands for the array (`Abi.Parameter.Describes.suffixed`).

Key definitions: `Abi.Kind.IsAdmitted`, `Abi.Parameter.ofKind`, `Abi.Parameter.unnamed`.
Key theorems: `Abi.spells_text`, `Abi.Kind.isAdmitted_iff`, `Abi.canonical_forms_are_read_back`.
-/
import EthWire.Abi.Parameter
import EthWire.Proofs.Abi.DeclaredTypes
import EthWire.Proofs.Abi.IntegerTypes

namespace EthWire
namespace Abi

open Text

/-! ### Widths and lengths that are read -/

namespace Kind

/-- The type has widths and lengths that type texts can give: integers of whole octets up to 256 bits, octet
strings of 1 to 32, and arrays of lengths that are counts. -/
inductive IsAdmitted : Kind → Prop where
  | uint {bits : Nat} (width : IsBitWidth bits) : IsAdmitted (.uint bits)
  | int {bits : Nat} (width : IsBitWidth bits) : IsAdmitted (.int bits)
  | address : IsAdmitted .address
  | bool : IsAdmitted .bool
  | fixedBytes {size : Nat} (least : 1 ≤ size) (greatest : size ≤ 32) : IsAdmitted (.fixedBytes size)
  | bytes : IsAdmitted .bytes
  | string : IsAdmitted .string
  | array {elem : Kind} (elem_admitted : IsAdmitted elem) : IsAdmitted (.array elem)
  | fixedArray {elem : Kind} {length : Nat} (elem_admitted : IsAdmitted elem) (count : length ≤ maxCount) :
      IsAdmitted (.fixedArray elem length)
  | tuple {members : List Kind} (each : ∀ member ∈ members, IsAdmitted member) : IsAdmitted (.tuple members)

theorem texts_eq_map : ∀ kinds : List Kind, texts kinds = kinds.map text
  | [] => rfl
  | kind :: kinds => by rw [texts, texts_eq_map kinds, List.map_cons]

theorem toList_parenthesized (texts : List String) :
    (parenthesized texts).toList = '(' :: ([','].intercalate (texts.map String.toList) ++ [')']) := by
  simp [parenthesized, String.toList_intercalate]

theorem byteWidth?_toDigits_eq_some_iff {n size : Nat} :
    byteWidth? (Nat.toDigits 10 n) = some size ↔ n = size ∧ 1 ≤ size ∧ size ≤ 32 := by
  have hbound : ∀ n, (decide (1 ≤ n) && decide (n ≤ 32)) = true → n < 2 ^ 64 := by
    intro n hvalid
    simp only [Bool.and_eq_true, decide_eq_true_eq] at hvalid
    omega
  rw [byteWidth?, width?_toDigits_eq_some_iff rfl hbound]
  simp only [Bool.and_eq_true, decide_eq_true_eq]
  constructor
  · rintro ⟨rfl, hsize⟩
    exact ⟨rfl, hsize⟩
  · rintro ⟨rfl, hsize⟩
    exact ⟨rfl, hsize⟩

theorem ofName?_text_uint {bits : Nat} (width : IsBitWidth bits) :
    ofName? (uint bits).text.toList = some (.uint bits) := by
  rw [text, String.toList_append, Nat.toString_eq_repr, Nat.toList_repr, ofName?_uint,
    bitWidth?_toDigits_eq_some_iff.mpr ⟨rfl, width⟩, Option.map_some]

theorem ofName?_text_int {bits : Nat} (width : IsBitWidth bits) :
    ofName? (int bits).text.toList = some (.int bits) := by
  rw [text, String.toList_append, Nat.toString_eq_repr, Nat.toList_repr, ofName?_int,
    bitWidth?_toDigits_eq_some_iff.mpr ⟨rfl, width⟩, Option.map_some]

theorem ofName?_text_fixedBytes {size : Nat} (least : 1 ≤ size) (greatest : size ≤ 32) :
    ofName? (fixedBytes size).text.toList = some (.fixedBytes size) := by
  rw [text, String.toList_append, Nat.toString_eq_repr, Nat.toList_repr, ofName?_bytes Nat.toDigits_ne_nil,
    byteWidth?_toDigits_eq_some_iff.mpr ⟨rfl, least, greatest⟩, Option.map_some]

end Kind

/-! ### Suffixes -/

/-- The suffix of arrays of the length. -/
def suffixText : Option Nat → String
  | none => "[]"
  | some n => "[" ++ toString n ++ "]"

theorem Kind.text_arrayOf (kind : Kind) (length : Option Nat) :
    (kind.arrayOf length).text = kind.text ++ suffixText length := by
  cases length with
  | none => rfl
  | some n =>
    rw [Kind.arrayOf, Kind.text, suffixText]
    simp only [String.append_assoc]

theorem Kind.IsAdmitted.length_le {elem : Kind} {length : Option Nat} (h : (elem.arrayOf length).IsAdmitted) :
    ∀ n ∈ length, n ≤ maxCount := by
  cases length with
  | none => simp
  | some n =>
    cases h with
    | fixedArray _ count => simpa using count

theorem toList_suffixText_some (n : Nat) : (suffixText (some n)).toList = '[' :: (Nat.toDigits 10 n ++ [']']) := by
  simp [suffixText]

theorem isSuffixChar_of_mem_suffixText {length : Option Nat} :
    ∀ c ∈ (suffixText length).toList, isSuffixChar c = true := by
  cases length with
  | none => exact List.all_eq_true.mp (by decide)
  | some n =>
    have hdigits : ∀ c ∈ Nat.toDigits 10 n, isSuffixChar c = true := by
      intro c hc
      have hdigit : c.isDigit = true := Nat.isDigit_of_mem_toDigits (by decide) (by decide) hc
      rw [isSuffixChar, hdigit, Bool.or_true]
    rw [toList_suffixText_some]
    simp only [List.forall_mem_cons, List.forall_mem_append]
    exact ⟨rfl, hdigits, rfl, by simp⟩

theorem isBlank_of_isSuffixChar {c : Char} (h : isSuffixChar c = true) : isBlank c = false := by
  by_contra hne
  rw [Bool.not_eq_false] at hne
  rw [isSuffixChar_of_isBlank hne] at h
  cases h

theorem exists_size_of_suffixText {length : Option Nat} (h : ∀ n ∈ length, n ≤ maxCount) :
    ∃ size : List Char, (suffixText length).toList = '[' :: (size ++ [']']) ∧ sizeOf? size = some length := by
  cases length with
  | none => exact ⟨[], rfl, rfl⟩
  | some n =>
    have hblank : ∀ c ∈ Nat.toDigits 10 n, isBlank c = false := fun c hc =>
      isBlank_of_isSuffixChar (@isSuffixChar_of_mem_suffixText (some n) c (by simp [toList_suffixText_some, hc]))
    have hn : n < 2 ^ 64 := by
      have hle := h n rfl
      rw [maxCount] at hle
      omega
    refine ⟨Nat.toDigits 10 n, toList_suffixText_some n, ?_⟩
    rw [sizeOf?, trim_of_not_isBlank hblank, if_neg (by simp), Numeral.readCount?, Numeral.readBelow?,
      Numeral.read?_toDigits, Option.filter_some, if_pos (decide_eq_true hn)]
    rfl

/-! ### Type texts -/

/-- The canonical text of a type spells it. -/
theorem spells_text {kind : Kind} (h : kind.IsAdmitted) : Spells kind.text.toList kind := by
  have hsuffixed : ∀ {elem : Kind} (length : Option Nat), (elem.arrayOf length).IsAdmitted →
      Spells elem.text.toList elem → Spells (elem.arrayOf length).text.toList (elem.arrayOf length) := by
    intro elem length hadmitted helem
    obtain ⟨size, hsuffix, hsize⟩ := exists_size_of_suffixText hadmitted.length_le
    rw [Kind.text_arrayOf, String.toList_append, hsuffix]
    exact .array helem hsize
  induction h with
  | uint width => exact .name (Kind.ofName?_text_uint width)
  | int width => exact .name (Kind.ofName?_text_int width)
  | address => exact .name rfl
  | bool => exact .name rfl
  | fixedBytes least greatest => exact .name (Kind.ofName?_text_fixedBytes least greatest)
  | bytes => exact .name rfl
  | string => exact .name rfl
  | array elem_admitted ih => exact hsuffixed none (.array elem_admitted) ih
  | @fixedArray elem length elem_admitted count ih => exact hsuffixed (some length) (.fixedArray elem_admitted count) ih
  | @tuple members _ ih =>
    have hlists := lists_intercalate (members.map fun member => member.text.toList)
    have hrows := @Spells.tuple [] _ (members.map fun member => (member.text.toList, member)) (.inl rfl)
      (by simpa [Function.comp_def] using hlists) (List.forall_mem_map.mpr ih)
    rw [Kind.text, Kind.toList_parenthesized, Kind.texts_eq_map, List.map_map]
    simpa [Function.comp_def] using hrows

theorem Kind.isAdmitted_of_ofName? {name : List Char} {kind : Kind} (h : ofName? name = some kind) :
    kind.IsAdmitted := by
  cases isName_of_ofName? h with
  | address => exact .address
  | bool => exact .bool
  | string => exact .string
  | bytes => exact .bytes
  | function => exact .fixedBytes (by decide) (by decide)
  | uint width => exact .uint (isBitWidth_of_bitWidth? width)
  | int width => exact .int (isBitWidth_of_bitWidth? width)
  | fixedBytes width =>
    have hvalid := valid_of_width? width
    simp only [Bool.and_eq_true, decide_eq_true_eq] at hvalid
    exact .fixedBytes hvalid.1 hvalid.2

theorem Kind.IsAdmitted.arrayOf {elem : Kind} (h : elem.IsAdmitted) {size : List Char} {length : Option Nat}
    (hsize : sizeOf? size = some length) : (elem.arrayOf length).IsAdmitted := by
  cases length with
  | none => exact .array h
  | some n =>
    apply Kind.IsAdmitted.fixedArray h
    rw [sizeOf?] at hsize
    split at hsize
    · cases hsize
    · obtain ⟨count, hcount, hn⟩ := Option.map_eq_some_iff.mp hsize
      obtain rfl := Option.some.inj hn
      have hlt : count < 2 ^ 64 := of_decide_eq_true (Option.filter_eq_some_iff.mp hcount).2
      rw [maxCount]
      omega

theorem Spells.isAdmitted {text : List Char} {kind : Kind} (h : Spells text kind) : kind.IsAdmitted := by
  induction h with
  | name named => exact Kind.isAdmitted_of_ofName? named
  | tuple _ _ _ ih => exact .tuple (List.forall_mem_map.mpr ih)
  | array _ size_eq ih => exact ih.arrayOf size_eq
  | padded _ _ _ ih => exact ih

/-- The admitted types are those that some text names. -/
theorem Kind.isAdmitted_iff {kind : Kind} : kind.IsAdmitted ↔ ∃ text, parse text = .ok kind := by
  constructor
  · intro h
    exact ⟨_, (spells_text h).parse_eq⟩
  · rintro ⟨text, htext⟩
    exact (spells_of_parse htext).isAdmitted

/-! ### Records -/

namespace Parameter

/-- The record with a suffix behind its text. -/
def suffixed : Parameter → String → Parameter
  | .mk name type components, suffix => .mk name (type ++ suffix) components

mutual

/-- The record of a type: for a tuple the word `tuple` and a record for each member, for an array the record of
the elements with the suffix behind its text, and otherwise the canonical text. -/
def ofKind : Kind → Parameter
  | .tuple members => .mk none "tuple" (some (ofKinds members))
  | .array elem => (ofKind elem).suffixed (suffixText none)
  | .fixedArray elem length => (ofKind elem).suffixed (suffixText (some length))
  | kind => .mk none kind.text none

/-- The records of types. -/
def ofKinds : List Kind → List Parameter
  | [] => []
  | kind :: kinds => ofKind kind :: ofKinds kinds

end

mutual

/-- The record without the names in it. -/
def unnamed : Parameter → Parameter
  | .mk _ type components =>
    .mk none type (match components with
      | none => none
      | some members => some (unnamedMembers members))

/-- The records without the names in them. -/
def unnamedMembers : List Parameter → List Parameter
  | [] => []
  | p :: ps => unnamed p :: unnamedMembers ps

end

theorem ofKinds_eq_map : ∀ kinds : List Kind, ofKinds kinds = kinds.map ofKind
  | [] => rfl
  | kind :: kinds => by rw [ofKinds, ofKinds_eq_map kinds, List.map_cons]

theorem kinds_eq_mapM : ∀ ps : List Parameter, kinds ps = ps.mapM kind
  | [] => rfl
  | p :: ps => by rw [kinds, kinds_eq_mapM ps, List.mapM_cons]

mutual

theorem kind_unnamed : ∀ p : Parameter, p.unnamed.kind = p.kind
  | .mk name type none => by rw [unnamed, kind, kind]
  | .mk name type (some members) => by
    rw [unnamed, kind, kind]
    simp only [kinds_unnamedMembers members]

theorem kinds_unnamedMembers : ∀ ps : List Parameter, kinds (unnamedMembers ps) = kinds ps
  | [] => rfl
  | p :: ps => by rw [unnamedMembers, kinds, kinds, kind_unnamed p, kinds_unnamedMembers ps]

end

/-- The record stands for the type: by its canonical text, or by the word `tuple` with the suffixes of the arrays
behind it and records that give the members. -/
inductive Describes : Parameter → Kind → Prop where
  | text {kind : Kind} (admitted : kind.IsAdmitted) : Describes (.mk none kind.text none) kind
  | tuple {suffix : String} {lengths : List (Option Nat)} {records : List Parameter} {members : List Kind}
      (suffixes : Suffixes suffix.toList lengths) (solid : ∀ c ∈ suffix.toList, isBlank c = false)
      (members_eq : kinds records = .ok members) :
      Describes (.mk none ("tuple" ++ suffix) (some records)) (lengths.foldl Kind.arrayOf (.tuple members))

/-- The canonical text of a type starts with another letter than the word `tuple`. -/
theorem exists_text_eq_cons : ∀ kind : Kind, ∃ c rest, kind.text.toList = c :: rest ∧ c ≠ 't'
  | .uint bits => ⟨'u', 'i' :: 'n' :: 't' :: (toString bits).toList, by simp [Kind.text], by decide⟩
  | .int bits => ⟨'i', 'n' :: 't' :: (toString bits).toList, by simp [Kind.text], by decide⟩
  | .address => ⟨'a', "ddress".toList, rfl, by decide⟩
  | .bool => ⟨'b', "ool".toList, rfl, by decide⟩
  | .fixedBytes size => ⟨'b', 'y' :: 't' :: 'e' :: 's' :: (toString size).toList, by simp [Kind.text], by decide⟩
  | .bytes => ⟨'b', "ytes".toList, rfl, by decide⟩
  | .string => ⟨'s', "tring".toList, rfl, by decide⟩
  | .array elem => by
    obtain ⟨c, rest, htext, hc⟩ := exists_text_eq_cons elem
    exact ⟨c, rest ++ "[]".toList, by rw [Kind.text, String.toList_append, htext, List.cons_append], hc⟩
  | .fixedArray elem length => by
    obtain ⟨c, rest, htext, hc⟩ := exists_text_eq_cons elem
    refine ⟨c, rest ++ (suffixText (some length)).toList, ?_, hc⟩
    rw [← List.cons_append, ← htext, ← String.toList_append, ← Kind.text_arrayOf, Kind.arrayOf]
  | .tuple members => ⟨'(', _, by rw [Kind.text, Kind.toList_parenthesized], by decide⟩

theorem tupleSuffix?_text (kind : Kind) : tupleSuffix? kind.text.toList = none := by
  obtain ⟨c, rest, htext, hc⟩ := exists_text_eq_cons kind
  simp [tupleSuffix?, afterFront?, htext, hc.symm]

/-- A record gives the type that it stands for. -/
theorem Describes.kind_eq {p : Parameter} {kind : Kind} (h : Describes p kind) : p.kind = .ok kind := by
  cases h with
  | text admitted =>
    rw [Parameter.kind, tupleSuffix?_text]
    exact (spells_text admitted).parse_eq
  | @tuple suffix lengths records members suffixes solid members_eq =>
    have hparen : suffix.toList.head? ≠ some '(' := fun hhead =>
      suffixes.not_mem_paren (List.mem_of_mem_head? hhead)
    have hsuffix : tupleSuffix? ("tuple" ++ suffix).toList = some suffix.toList := by
      simp [tupleSuffix?, afterFront?, hparen]
    have hlengths : suffixes? suffix.toList = some lengths := by
      rw [suffixes?, trim_of_not_isBlank solid, suffixes.suffixesFrom?_eq solid]
    rw [Parameter.kind, hsuffix]
    simp only
    rw [members_eq]
    simp only [bind, Except.bind]
    rw [Kind.withSuffix, hlengths]

/-- One more suffix behind the text of a record stands for the array. -/
theorem Describes.suffixed {p : Parameter} {elem : Kind} (h : Describes p elem) (length : Option Nat)
    (hadmitted : (elem.arrayOf length).IsAdmitted) :
    Describes (p.suffixed (suffixText length)) (elem.arrayOf length) := by
  cases h with
  | text _ =>
    rw [Parameter.suffixed, ← Kind.text_arrayOf]
    exact .text hadmitted
  | @tuple suffix lengths records members suffixes solid members_eq =>
    obtain ⟨size, htext, hsize⟩ := exists_size_of_suffixText hadmitted.length_le
    have hsuffixes : Suffixes (suffix ++ suffixText length).toList (lengths ++ [length]) := by
      rw [String.toList_append, htext]
      exact suffixes.append (.suffix hsize .nil)
    have hsolid : ∀ c ∈ (suffix ++ suffixText length).toList, isBlank c = false := by
      rw [String.toList_append, List.forall_mem_append]
      exact ⟨solid, fun c hc => isBlank_of_isSuffixChar (isSuffixChar_of_mem_suffixText c hc)⟩
    have hdescribes := Describes.tuple hsuffixes hsolid members_eq
    rw [List.foldl_append] at hdescribes
    rw [Parameter.suffixed, String.append_assoc]
    exact hdescribes

/-- The record of an admitted type stands for it. -/
theorem describes_ofKind {kind : Kind} (h : kind.IsAdmitted) : Describes (ofKind kind) kind := by
  induction h with
  | uint width => exact .text (.uint width)
  | int width => exact .text (.int width)
  | address => exact .text .address
  | bool => exact .text .bool
  | fixedBytes least greatest => exact .text (.fixedBytes least greatest)
  | bytes => exact .text .bytes
  | string => exact .text .string
  | @array elem elem_admitted ih => exact ih.suffixed none (.array elem_admitted)
  | @fixedArray elem length elem_admitted count ih =>
    exact ih.suffixed (some length) (.fixedArray elem_admitted count)
  | @tuple members each ih =>
    have hmembers : kinds (ofKinds members) = .ok members := by
      have hrecords : (members.map ofKind).mapM Parameter.kind = .ok (members.map id) :=
        mapM_map_eq_ok fun member hmember => (ih member hmember).kind_eq
      rw [kinds_eq_mapM, ofKinds_eq_map, hrecords, List.map_id]
    exact @Describes.tuple "" [] _ members .nil (by simp) hmembers

end Parameter

/-- **A type is read back from its canonical text and from its record**, whatever names the record has. -/
theorem canonical_forms_are_read_back {kind : Kind} (h : kind.IsAdmitted) :
    Kind.parse kind.text.toList = .ok kind ∧ (Parameter.ofKind kind).kind = .ok kind ∧
      ∀ p : Parameter, p.unnamed = Parameter.ofKind kind → p.kind = .ok kind := by
  have hrecord : (Parameter.ofKind kind).kind = .ok kind := (Parameter.describes_ofKind h).kind_eq
  refine ⟨(spells_text h).parse_eq, hrecord, fun p hp => ?_⟩
  rw [← Parameter.kind_unnamed, hp, hrecord]

/-- An empty tuple and an array of no texts inside of arrays of tuples, with a name for one of the members. -/
theorem nested_tuples_are_read_back :
    Kind.parse "(uint8,(),string[0])[][2]".toList
        = .ok (.fixedArray (.array (.tuple [.uint 8, .tuple [], .fixedArray .string 0])) 2) ∧
      (Parameter.mk none "tuple[][2]" (some [.mk (some "amount") "uint8" none, .mk none "tuple" (some []),
        .mk none "string[0]" none])).kind
        = .ok (.fixedArray (.array (.tuple [.uint 8, .tuple [], .fixedArray .string 0])) 2) := by
  have hempty : (Kind.tuple []).IsAdmitted := .tuple (by simp)
  have htexts : (Kind.fixedArray .string 0).IsAdmitted := .fixedArray .string (by decide)
  have hmembers : (Kind.tuple [.uint 8, .tuple [], .fixedArray .string 0]).IsAdmitted :=
    .tuple (by simpa using ⟨.uint ⟨rfl, by decide, by decide⟩, hempty, htexts⟩)
  obtain ⟨htext, -, hrecord⟩ := canonical_forms_are_read_back (.fixedArray (.array hmembers) (by decide) :
    (Kind.fixedArray (.array (.tuple [.uint 8, .tuple [], .fixedArray .string 0])) 2).IsAdmitted)
  exact ⟨htext, hrecord _ rfl⟩

end Abi
end EthWire
