/-
# Which types are known where a digest is found

A value is hashed along its own shape, and a type is looked up when a value of the type is met. So a type of
a member is known (`TypedData.Resolves`) wherever its value is hashed, but nothing is met inside an array
without elements and behind an absent struct: the array `Foo[]` has a digest for its empty list, whatever
`Foo` is, and of an absent struct no member is looked at. The text of a type, which is hashed too, leaves out
what is not declared.

Where no part of a message is hidden so (`TypedData.IsFilled`), and no name of a struct looks like an array,
each struct that the type of the message leads to is met in the message: a path of references is followed by
a path of parts, through the first elements of the arrays on it (`TypedData.exists_part_of_baseName`). So all
types of their members are known.

Key definitions: `TypedData.Resolves`, `TypedData.Hollow`, `TypedData.IsFilled`.
Key theorems: `TypedData.resolves_of_fieldWord`, `TypedData.exists_fieldWord_of_part`,
`TypedData.exists_part_of_reaches`, `TypedData.types_of_a_hashed_message_resolve`.
-/
import EthWire.Proofs.Abi.AtomicNames
import EthWire.Proofs.TypedData.Binding
import EthWire.Proofs.TypedData.TypeText

namespace EthWire
namespace TypedData

open Schema (baseName baseName_of_not_mem)

/-- A type is known: a declared struct, an array of a known type, a string, an octet string or an atomic type. -/
inductive Resolves (schema : Schema) : String → Prop where
  | struct {type : String} (hdeclared : schema.contains type = true) : Resolves schema type
  | array {type elem : String} {length : List Char} (harray : arrayType? type = .ok (some (elem, length)))
      (helem : Resolves schema elem) : Resolves schema type
  | string : Resolves schema "string"
  | bytes : Resolves schema "bytes"
  | atom {type : String} {kind : Abi.Kind} (hkind : Abi.Kind.parse type.toList = .ok kind)
      (hatomic : kind.isAtomic = true) : Resolves schema type

/-- An array without elements, or with elements that are hollow arrays all of them. -/
inductive Hollow (schema : Schema) : String → Json.Value → Prop where
  | array {type elem : String} {length : List Char} {items : List Json.Value}
      (hplain : schema.contains type = false) (harray : arrayType? type = .ok (some (elem, length)))
      (h : ∀ item ∈ items, Hollow schema elem item) : Hollow schema type (.list items)

/-- No part of a value is absent, or an array without elements. -/
def IsFilled (schema : Schema) (type : String) (value : Json.Value) : Prop :=
  ∀ part field, Part schema type value part field → field ≠ .null ∧ field ≠ .list []

variable {schema : Schema} {type : String} {value : Json.Value} {word : Word}

/-! ### The type of a value with a word -/

theorem exists_kind_of_atomWord (h : atomWord type value = .ok word) :
    ∃ kind, Abi.Kind.parse type.toList = .ok kind ∧ kind.isAtomic = true := by
  rw [atomWord.eq_def] at h
  obtain ⟨kind, hkind, hword⟩ := bind_eq_ok_iff.mp h
  refine ⟨kind, hkind, ?_⟩
  cases kind with
  | uint | int | address | bool | fixedBytes => rfl
  | bytes | string | array | fixedArray | tuple => exact absurd hword throw_ne_ok

theorem kind_of_plainWord (h : plainWord type value = .ok word) :
    type = "string" ∨ type = "bytes" ∨ ∃ kind, Abi.Kind.parse type.toList = .ok kind ∧ kind.isAtomic = true := by
  by_cases hstring : type = "string"
  · exact .inl hstring
  · by_cases hbytes : type = "bytes"
    · exact .inr (.inl hbytes)
    · rw [plainWord_atom hstring hbytes] at h
      exact .inr (.inr (exists_kind_of_atomWord h))

theorem not_mem_of_plainWord (h : plainWord type value = .ok word) : '[' ∉ type.toList := by
  rcases kind_of_plainWord h with rfl | rfl | ⟨kind, hkind, hatomic⟩
  · decide
  · decide
  · exact Abi.Kind.not_mem_of_parse hatomic hkind

section

variable (hplain : schema.contains type = false)

include hplain

theorem resolves_array_iff {elem : String} {length : List Char}
    (harray : arrayType? type = .ok (some (elem, length))) : Resolves schema type ↔ Resolves schema elem := by
  refine ⟨fun h => ?_, .array harray⟩
  cases h with
  | struct hdeclared =>
    rw [hplain] at hdeclared
    cases hdeclared
  | array hsuffix helem =>
    obtain ⟨rfl, -⟩ := Prod.mk.inj (Option.some.inj (Except.ok.inj (harray.symm.trans hsuffix)))
    exact helem
  | string => cases harray
  | bytes => cases harray
  | atom hkind hatomic =>
    refine absurd ?_ (Abi.Kind.not_mem_of_parse hatomic hkind)
    rw [toList_of_arrayType? harray]
    exact List.mem_append_right _ List.mem_cons_self

theorem resolves_plain_iff (harray : arrayType? type = .ok none) :
    Resolves schema type ↔ type = "string" ∨ type = "bytes" ∨
      ∃ kind, Abi.Kind.parse type.toList = .ok kind ∧ kind.isAtomic = true := by
  constructor
  · intro h
    cases h with
    | struct hdeclared =>
      rw [hplain] at hdeclared
      cases hdeclared
    | array hsuffix =>
      rw [harray] at hsuffix
      cases hsuffix
    | string => exact .inl rfl
    | bytes => exact .inr (.inl rfl)
    | atom hkind hatomic => exact .inr (.inr ⟨_, hkind, hatomic⟩)
  · rintro (rfl | rfl | ⟨kind, hkind, hatomic⟩)
    · exact .string
    · exact .bytes
    · exact .atom hkind hatomic

end

/-- The type of a value with a word is known, unless the value is hollow. -/
theorem resolves_of_fieldWord (h : fieldWord schema type value = .ok word) (hsolid : ¬ Hollow schema type value) :
    Resolves schema type := by
  induction value using inside_induction generalizing type word with
  | step value ihItem =>
    cases hdeclared : schema.contains type with
    | true => exact .struct hdeclared
    | false =>
      obtain ⟨array, harray⟩ := exists_arrayType_of_fieldWord hdeclared h
      cases array with
      | none =>
        rw [fieldWord_plain hdeclared harray] at h
        exact (resolves_plain_iff hdeclared harray).mpr (kind_of_plainWord h)
      | some array =>
        obtain ⟨items, words, rfl, -, hwords, -⟩ := (fieldWord_array_eq_ok_iff hdeclared harray).mp h
        obtain ⟨item, hitem, hsolidItem⟩ : ∃ item ∈ items, ¬ Hollow schema array.1 item := by
          by_contra hnone
          push Not at hnone
          exact hsolid (.array hdeclared harray hnone)
        obtain ⟨word, hword⟩ := exists_of_mem_of_mapM hwords hitem
        exact .array harray (ihItem items rfl item hitem hword hsolidItem)

/-! ### Parts -/

theorem Part.trans {part inner : String} {field value' : Json.Value} (h : Part schema type value part field)
    (hinner : Part schema part field inner value') : Part schema type value inner value' := by
  induction h with
  | whole => exact hinner
  | element hplain harray hitem _ ih => exact .element hplain harray hitem (ih hinner)
  | member hmembers hmember hfield _ ih => exact .member hmembers hmember hfield (ih hinner)

theorem IsFilled.of_part {part : String} {field : Json.Value} (h : IsFilled schema type value)
    (hpart : Part schema type value part field) : IsFilled schema part field :=
  fun _ _ hinner => h _ _ (hpart.trans hinner)

/-- Each part of a value with a word has a word. -/
theorem exists_fieldWord_of_part {part : String} {field : Json.Value} (h : Part schema type value part field)
    (hword : fieldWord schema type value = .ok word) : ∃ word, fieldWord schema part field = .ok word := by
  induction h generalizing word with
  | whole => exact ⟨word, hword⟩
  | element hplain harray hitem _ ih =>
    obtain ⟨word, hitemWord⟩ := ((exists_fieldWord_array_iff hplain harray).mp ⟨word, hword⟩).2 _ hitem
    exact ih hitemWord
  | member hmembers hmember hfield _ ih =>
    rw [fieldWord_object (contains_of_get? hmembers)] at hword
    obtain ⟨field, word, hlookup, hmemberWord⟩ := (exists_hashStruct_iff hmembers).mp ⟨_, hword⟩ _ hmember
    obtain rfl := Option.some.inj (hfield.symm.trans hlookup)
    exact ih hmemberWord

theorem exists_fieldWord_of_member {name : String} {fields : List (String × Json.Value)} {members : List Member}
    {member : Member} (h : Part schema type value name (.object fields))
    (hword : fieldWord schema type value = .ok word) (hmembers : schema.get? name = some members)
    (hmember : member ∈ members) :
    ∃ field word, fields.lookup member.name = some field ∧ fieldWord schema member.type field = .ok word := by
  obtain ⟨word, hobject⟩ := exists_fieldWord_of_part h hword
  rw [fieldWord_object (contains_of_get? hmembers)] at hobject
  exact (exists_hashStruct_iff hmembers).mp ⟨word, hobject⟩ member hmember

/-- A filled value is not hollow: its innermost arrays have elements. -/
theorem IsFilled.not_hollow (hfilled : IsFilled schema type value) : ¬ Hollow schema type value := by
  intro hhollow
  induction hhollow with
  | @array type elem length items hplain harray _ ih =>
    obtain ⟨item, hitem⟩ := List.exists_mem_of_ne_nil items fun hnil => (hfilled _ _ .whole).2 (by rw [hnil])
    exact ih item hitem (hfilled.of_part (.element hplain harray hitem .whole))

/-! ### References are followed by parts -/

theorem baseName_of_arrayType? {elem : String} {length : List Char}
    (h : arrayType? type = .ok (some (elem, length))) : baseName elem = baseName type := by
  rw [baseName, baseName, toList_of_arrayType? h, List.takeWhile_append]
  split
  · rename_i hall
    rw [List.takeWhile_cons_of_neg (by simp), List.append_nil, (List.takeWhile_prefix _).eq_of_length hall]
  · rfl

/-- The struct that a type refers to is met in a filled value: behind the first elements of the arrays. -/
theorem exists_part_of_baseName (hnames : ∀ name, schema.contains name = true → '[' ∉ name.toList)
    (hfilled : IsFilled schema type value) (h : fieldWord schema type value = .ok word)
    (hdeclared : schema.contains (baseName type) = true) :
    ∃ fields, Part schema type value (baseName type) (.object fields) := by
  induction value using inside_induction generalizing type word with
  | step value ihItem =>
    cases hstruct : schema.contains type with
    | true =>
      rw [baseName_of_not_mem (hnames type hstruct)]
      rcases fieldWord_declared_cases hstruct h with ⟨hnull, -⟩ | ⟨octets, hoctets, -⟩
      · exact absurd hnull (hfilled _ _ .whole).1
      · obtain ⟨_, fields, _, _, _, rfl, -⟩ := encodeData_eq_ok_iff.mp hoctets
        exact ⟨fields, .whole⟩
    | false =>
      obtain ⟨array, harray⟩ := exists_arrayType_of_fieldWord hstruct h
      cases array with
      | none =>
        -- a name without a bracket refers to itself
        rw [fieldWord_plain hstruct harray] at h
        rw [baseName_of_not_mem (not_mem_of_plainWord h), hstruct] at hdeclared
        cases hdeclared
      | some array =>
        obtain ⟨items, words, rfl, -, hwords, -⟩ := (fieldWord_array_eq_ok_iff hstruct harray).mp h
        obtain ⟨item, hitem⟩ := List.exists_mem_of_ne_nil items fun hnil => (hfilled _ _ .whole).2 (by rw [hnil])
        obtain ⟨word, hword⟩ := exists_of_mem_of_mapM hwords hitem
        have hfilledItem := hfilled.of_part (.element hstruct harray hitem .whole)
        have hbase := baseName_of_arrayType? harray
        obtain ⟨fields, hobject⟩ := ihItem items rfl item hitem hfilledItem hword (hbase ▸ hdeclared)
        exact ⟨fields, .element hstruct harray hitem (hbase ▸ hobject)⟩

/-- Each struct that a type leads to is met in a filled value of the type. -/
theorem exists_part_of_reaches (hnames : ∀ name, schema.contains name = true → '[' ∉ name.toList)
    (hfilled : IsFilled schema type value) (h : fieldWord schema type value = .ok word) {name : String}
    (htype : schema.contains type = true) (hreaches : schema.Reaches type name)
    (hdeclared : schema.contains name = true) : ∃ fields, Part schema type value name (.object fields) := by
  -- along the path: each type on it refers to the next one, so it is declared
  induction hreaches with
  | refl =>
    have hbase := baseName_of_not_mem (hnames type htype)
    have hmet := exists_part_of_baseName hnames hfilled h (hbase.symm ▸ htype)
    rwa [hbase] at hmet
  | @tail name other _ hrefers ih =>
    obtain ⟨members, hget, member, hmember, rfl⟩ := hrefers
    obtain ⟨fields, hobject⟩ := ih (contains_of_get? hget)
    obtain ⟨field, word, hfield, hfieldWord⟩ := exists_fieldWord_of_member hobject h hget hmember
    have hpart := hobject.trans (.member hget hmember hfield .whole)
    obtain ⟨inner, hinner⟩ := exists_part_of_baseName hnames (hfilled.of_part hpart) hfieldWord hdeclared
    exact ⟨inner, hpart.trans hinner⟩

/-- **The types of a hashed message are known where the message goes.** In each struct that is met, all members
are there, and the type of a member is known unless its value is a hollow array. If no part of the message is
absent or an array without elements, and names of structs hold no bracket, then the member types of all structs
that the type of the message leads to are known. -/
theorem types_of_a_hashed_message_resolve {digest : Word} (h : hashStruct schema type value = .ok digest) :
    (∀ name fields members member, Part schema type value name (.object fields) →
      schema.get? name = some members → member ∈ members →
        ∃ field, fields.lookup member.name = some field ∧
          (¬ Hollow schema member.type field → Resolves schema member.type)) ∧
    (IsFilled schema type value → (∀ name, schema.contains name = true → '[' ∉ name.toList) →
      ∀ name members member, schema.Reaches type name → schema.get? name = some members → member ∈ members →
        Resolves schema member.type) := by
  have hword := fieldWord_of_hashStruct h
  refine ⟨fun name fields members member hpart hmembers hmember => ?_,
    fun hfilled hnames name members member hreaches hmembers hmember => ?_⟩
  · obtain ⟨field, word, hfield, hfieldWord⟩ := exists_fieldWord_of_member hpart hword hmembers hmember
    exact ⟨field, hfield, resolves_of_fieldWord hfieldWord⟩
  · obtain ⟨members', _, _, _, htype, -⟩ := encodeData_eq_ok_iff.mp (map_eq_ok_iff.mp h).choose_spec.1
    obtain ⟨fields, hpart⟩ := exists_part_of_reaches hnames hfilled hword (contains_of_get? htype) hreaches
      (contains_of_get? hmembers)
    obtain ⟨field, word, hfield, hfieldWord⟩ := exists_fieldWord_of_member hpart hword hmembers hmember
    have hinner := hfilled.of_part (hpart.trans (.member hmembers hmember hfield .whole))
    exact resolves_of_fieldWord hfieldWord hinner.not_hollow

/-- Mail to several persons. -/
def mailSchema : Schema :=
  [("Mail", [⟨"to", "Person[]"⟩]), ("Person", [⟨"name", "string"⟩])]

/-- Mail to one person. -/
def mailToBob : Json.Value :=
  .object [("to", .list [.object [("name", .string "Bob")]])]

theorem exists_hashStruct_mailToBob : ∃ digest, hashStruct mailSchema "Mail" mailToBob = .ok digest := by
  have hbob : ∃ word, fieldWord mailSchema "Person" (.object [("name", .string "Bob")]) = .ok word := by
    rw [fieldWord_object rfl, exists_hashStruct_iff rfl, List.forall_mem_singleton]
    refine ⟨_, keccak256 (Text.octets "Bob"), rfl, ?_⟩
    rw [fieldWord_plain rfl rfl]
    exact plainWord_string_eq_ok_iff.mpr ⟨_, rfl, rfl⟩
  have harray : arrayType? "Person[]" = .ok (some ("Person", [])) := rfl
  obtain ⟨word, hto⟩ := (exists_fieldWord_array_iff rfl harray).mpr ⟨rfl, List.forall_mem_singleton.mpr hbob⟩
  rw [mailToBob, exists_hashStruct_iff rfl, List.forall_mem_singleton]
  exact ⟨_, word, rfl, hto⟩

theorem isFilled_mailToBob : IsFilled mailSchema "Mail" mailToBob := by
  have hbob : IsFilled mailSchema "Person" (.object [("name", .string "Bob")]) := by
    intro part field hpart
    cases hpart with
    | whole => simp
    | member hmembers hmember hfield hinner =>
      obtain rfl := Option.some.inj hmembers
      obtain rfl := List.mem_singleton.mp hmember
      obtain rfl := Option.some.inj hfield
      cases hinner
      simp
  intro part field hpart
  cases hpart with
  | whole => simp [mailToBob]
  | member hmembers hmember hfield hinner =>
    obtain rfl := Option.some.inj hmembers
    obtain rfl := List.mem_singleton.mp hmember
    obtain rfl := Option.some.inj hfield
    cases hinner with
    | whole => simp
    | element hplain harray hitem hperson =>
      obtain ⟨rfl, -⟩ := Prod.mk.inj (Option.some.inj (Except.ok.inj harray))
      obtain rfl := List.mem_singleton.mp hitem
      exact hbob _ _ hperson

/-- Mail to Bob is hashed, so all types that mail leads to are known. -/
theorem types_of_mail_to_bob_resolve :
    ∃ digest, hashStruct mailSchema "Mail" mailToBob = .ok digest ∧ IsFilled mailSchema "Mail" mailToBob ∧
      ∀ name members member, mailSchema.Reaches "Mail" name → mailSchema.get? name = some members →
        member ∈ members → Resolves mailSchema member.type := by
  obtain ⟨digest, hdigest⟩ := exists_hashStruct_mailToBob
  have hnames : ∀ name, mailSchema.contains name = true → '[' ∉ name.toList := by
    intro name hname
    have hkeys : name = "Mail" ∨ name = "Person" := by
      simpa [mailSchema] using Dictionary.contains_iff_mem_keys.mp hname
    rcases hkeys with rfl | rfl <;> decide
  exact ⟨digest, hdigest, isFilled_mailToBob,
    (types_of_a_hashed_message_resolve hdigest).2 isFilled_mailToBob hnames⟩

/-- An array without elements is hashed whatever its type says, and an absent struct whatever its members are. A
struct named like an array is hashed in its place, though its type leads to the struct in front of the bracket. -/
theorem unknown_types_are_hashed :
    (∃ digest, hashStruct [("Mail", [⟨"n", "Foo[]"⟩])] "Mail" (.object [("n", .list [])]) = .ok digest) ∧
      ¬ Resolves [("Mail", [⟨"n", "Foo[]"⟩])] "Foo[]" ∧
      (∃ digest, hashStruct [("Mail", [⟨"n", "Foo"⟩]), ("Foo", [⟨"a", "Bar"⟩])] "Mail" (.object [("n", .null)]) =
        .ok digest) ∧
      ¬ Resolves [("Mail", [⟨"n", "Foo"⟩]), ("Foo", [⟨"a", "Bar"⟩])] "Bar" ∧
      (∃ digest, hashStruct [("Mail", [⟨"n", "Foo[]"⟩]), ("Foo[]", []), ("Foo", [⟨"a", "Bar"⟩])] "Mail"
        (.object [("n", .object [])]) = .ok digest) ∧
      Schema.Reaches [("Mail", [⟨"n", "Foo[]"⟩]), ("Foo[]", []), ("Foo", [⟨"a", "Bar"⟩])] "Mail" "Foo" ∧
      ¬ Resolves [("Mail", [⟨"n", "Foo[]"⟩]), ("Foo[]", []), ("Foo", [⟨"a", "Bar"⟩])] "Bar" := by
  have hplain : Dictionary.contains ([("Mail", [⟨"n", "Foo[]"⟩])] : Schema) "Foo[]" = false := rfl
  have harray : arrayType? "Foo[]" = .ok (some ("Foo", [])) := rfl
  have hunknown : ∀ name, name = "Foo" ∨ name = "Bar" → ¬ (name = "string" ∨ name = "bytes" ∨
      ∃ kind, Abi.Kind.parse name.toList = .ok kind ∧ kind.isAtomic = true) := by
    intro name hname
    have hfails : Abi.Kind.parse name.toList = .error (.abiType name) := by
      rcases hname with rfl | rfl <;> rw [Abi.Kind.parse] <;> rfl
    rintro (rfl | rfl | ⟨kind, hkind, -⟩)
    · simp at hname
    · simp at hname
    · rw [hfails] at hkind
      cases hkind
  refine ⟨?_, ?_, ?_, ?_, ?_, ?_, ?_⟩
  · obtain ⟨word, hword⟩ := (exists_fieldWord_array_iff hplain harray).mpr ⟨rfl, List.forall_mem_nil _⟩
    rw [exists_hashStruct_iff rfl, List.forall_mem_singleton]
    exact ⟨_, word, rfl, hword⟩
  · rw [resolves_array_iff hplain harray, resolves_plain_iff rfl rfl]
    exact hunknown "Foo" (.inl rfl)
  · rw [exists_hashStruct_iff rfl, List.forall_mem_singleton]
    exact ⟨_, _, rfl, fieldWord_declared rfl⟩
  · rw [resolves_plain_iff rfl rfl]
    exact hunknown "Bar" (.inr rfl)
  · have hempty : ∃ word, fieldWord [("Mail", [⟨"n", "Foo[]"⟩]), ("Foo[]", []), ("Foo", [⟨"a", "Bar"⟩])] "Foo[]"
        (.object []) = .ok word := by
      rw [fieldWord_object rfl, exists_hashStruct_iff rfl]
      exact List.forall_mem_nil _
    obtain ⟨word, hword⟩ := hempty
    rw [exists_hashStruct_iff rfl, List.forall_mem_singleton]
    exact ⟨_, word, rfl, hword⟩
  · exact .single ⟨_, rfl, ⟨"n", "Foo[]"⟩, by decide, by decide⟩
  · rw [resolves_plain_iff rfl rfl]
    exact hunknown "Bar" (.inr rfl)

end TypedData
end EthWire
