/-
# A digest of typed data binds the message

The digest of a struct value is made of digests of its parts, so it says which value was hashed as far as
the hash does. Take two values of one type with one digest. Either they agree in every part that the type
declares (`TypedData.Agree`), or somewhere on the way two different octet strings have one hash, or a hash
is the zero word, which stands for the absent struct. No part is read in two ways: words have one
width, so the octets of a struct or an array tell its words, and those are compared part by part.

A value is hashed at each of its strings, octet strings, arrays and structs (`TypedData.Hashes`). Two values
break the hash if one of these octet strings of the one and one of the other collide, or one has the hash
zero (`TypedData.Breaks`). What breaks the hash inside a part breaks it as a whole, so where nothing
breaks the values agree by recursion on the value (`TypedData.agree_of_fieldWord`). Conversely values that
agree have one word, whatever the hash.

Key definitions: `TypedData.Agree`, `TypedData.Hashes`, `TypedData.Part`, `TypedData.Breaks`.
Key theorems: `TypedData.agree_of_fieldWord`, `TypedData.fieldWord_eq_of_agree`,
`TypedData.exists_fieldWord_of_hashes`, `TypedData.equal_digests_bind_the_message`.
-/
import EthWire.Proofs.Abi.Words
import EthWire.Proofs.TypedData.Encoding
import Mathlib.Tactic.ByContra

namespace EthWire

namespace TypedData

/-- Two values of a type agree in all that the type declares: structs are both absent, or there in every
member; arrays are equally long and agree element by element; strings are the same, octet strings have
the same octets, and atomic values the same word. -/
inductive Agree (schema : Schema) : String → Json.Value → Json.Value → Prop where
  | absent {type : String} (hdeclared : schema.contains type = true) : Agree schema type .null .null
  | struct {type : String} {members : List Member} {fields fields' : List (String × Json.Value)}
      (hmembers : schema.get? type = some members)
      (hpresent : ∀ member ∈ members,
        (fields.lookup member.name).isSome ∧ (fields'.lookup member.name).isSome)
      (hagree : ∀ member ∈ members, ∀ field field', fields.lookup member.name = some field →
        fields'.lookup member.name = some field' → Agree schema member.type field field') :
      Agree schema type (.object fields) (.object fields')
  | array {type elem : String} {length : List Char} {items items' : List Json.Value}
      (hplain : schema.contains type = false) (harray : arrayType? type = .ok (some (elem, length)))
      (hlength : items.length = items'.length)
      (hagree : ∀ (i : Nat) item item', items[i]? = some item → items'[i]? = some item' →
        Agree schema elem item item') :
      Agree schema type (.list items) (.list items')
  | string (hplain : schema.contains "string" = false) (text : String) :
      Agree schema "string" (.string text) (.string text)
  | octets {value value' : Json.Value} {content : Bytes} (hplain : schema.contains "bytes" = false)
      (h : readOctets value = .ok content) (h' : readOctets value' = .ok content) :
      Agree schema "bytes" value value'
  | atom {type : String} {value value' : Json.Value} {word : Word} (hplain : schema.contains type = false)
      (harray : arrayType? type = .ok none) (hstring : type ≠ "string") (hbytes : type ≠ "bytes")
      (h : atomWord type value = .ok word) (h' : atomWord type value' = .ok word) :
      Agree schema type value value'

/-- The octet strings that are hashed for the word of a value: those of its strings and octet strings, the
words of its arrays, and the digests and words of its structs. The text of a type is hashed as well, but it
is the same for all values. -/
inductive Hashes (schema : Schema) : String → Json.Value → Bytes → Prop where
  | string (hplain : schema.contains "string" = false) (text : String) :
      Hashes schema "string" (.string text) (Text.octets text)
  | octets {value : Json.Value} {content : Bytes} (hplain : schema.contains "bytes" = false)
      (h : readOctets value = .ok content) : Hashes schema "bytes" value content
  | array {type elem : String} {length : List Char} {items : List Json.Value} {words : List Word}
      (hplain : schema.contains type = false) (harray : arrayType? type = .ok (some (elem, length)))
      (h : items.mapM (fieldWord schema elem) = .ok words) :
      Hashes schema type (.list items) (words.flatMap Word.toBytes)
  | element {type elem : String} {length : List Char} {items : List Json.Value} {item : Json.Value}
      {content : Bytes} (hplain : schema.contains type = false)
      (harray : arrayType? type = .ok (some (elem, length))) (hitem : item ∈ items)
      (h : Hashes schema elem item content) : Hashes schema type (.list items) content
  | struct {type : String} {value : Json.Value} {content : Bytes}
      (h : encodeData schema type value = .ok content) : Hashes schema type value content
  | member {type : String} {members : List Member} {fields : List (String × Json.Value)} {member : Member}
      {field : Json.Value} {content : Bytes} (hmembers : schema.get? type = some members)
      (hmember : member ∈ members) (hfield : fields.lookup member.name = some field)
      (h : Hashes schema member.type field content) : Hashes schema type (.object fields) content

/-- The values inside a value whose words go into its word, each with its type: the value itself, the parts
of its elements and those of its declared members. -/
inductive Part (schema : Schema) : String → Json.Value → String → Json.Value → Prop where
  | whole {type : String} {value : Json.Value} : Part schema type value type value
  | element {type elem part : String} {length : List Char} {items : List Json.Value}
      {item field : Json.Value} (hplain : schema.contains type = false)
      (harray : arrayType? type = .ok (some (elem, length))) (hitem : item ∈ items)
      (h : Part schema elem item part field) : Part schema type (.list items) part field
  | member {type part : String} {members : List Member} {fields : List (String × Json.Value)}
      {member : Member} {inner field : Json.Value} (hmembers : schema.get? type = some members)
      (hmember : member ∈ members) (hfield : fields.lookup member.name = some inner)
      (h : Part schema member.type inner part field) : Part schema type (.object fields) part field

/-- Two values of a type break the hash: an octet string that is hashed for one and a different one that is
hashed for the other have the same hash, or one that is hashed for either has the hash zero. -/
def Breaks (schema : Schema) (type : String) (value value' : Json.Value) : Prop :=
  (∃ content content', Hashes schema type value content ∧ Hashes schema type value' content' ∧
    content ≠ content' ∧ keccak256 content = keccak256 content') ∨
  ∃ content, (Hashes schema type value content ∨ Hashes schema type value' content) ∧ keccak256 content = 0

variable {schema : Schema} {type : String} {value value' : Json.Value}

namespace Breaks

theorem mono {part : String} {field field' : Json.Value} (h : Breaks schema part field field')
    (hone : ∀ content, Hashes schema part field content → Hashes schema type value content)
    (hother : ∀ content, Hashes schema part field' content → Hashes schema type value' content) :
    Breaks schema type value value' := by
  rcases h with ⟨content, content', hleft, hright, hne, hhash⟩ | ⟨content, hleft | hright, hzero⟩
  · exact .inl ⟨content, content', hone _ hleft, hother _ hright, hne, hhash⟩
  · exact .inr ⟨content, .inl (hone _ hleft), hzero⟩
  · exact .inr ⟨content, .inr (hother _ hright), hzero⟩

end Breaks

theorem eq_of_keccak256_eq (hsafe : ¬ Breaks schema type value value') {content content' : Bytes}
    (h : Hashes schema type value content) (h' : Hashes schema type value' content')
    (hhash : keccak256 content = keccak256 content') : content = content' := by
  by_contra hne
  exact hsafe (.inl ⟨content, content', h, h', hne, hhash⟩)

/-! ### Values with one word agree -/

/-- Types that are neither structs nor arrays: the word is the hash of a string or of octets, or the
atomic word itself. -/
theorem agree_of_plainWord (hsafe : ¬ Breaks schema type value value') {word : Word}
    (hplain : schema.contains type = false) (harray : arrayType? type = .ok none)
    (h : plainWord type value = .ok word) (h' : plainWord type value' = .ok word) :
    Agree schema type value value' := by
  by_cases hstring : type = "string"
  · subst hstring
    obtain ⟨text, rfl, hhash⟩ := plainWord_string_eq_ok_iff.mp h
    obtain ⟨text', rfl, hhash'⟩ := plainWord_string_eq_ok_iff.mp h'
    have hsame := eq_of_keccak256_eq hsafe (.string hplain text) (.string hplain text')
      (hhash.trans hhash'.symm)
    rw [Text.octets_injective hsame]
    exact .string hplain text'
  · by_cases hbytes : type = "bytes"
    · subst hbytes
      rw [plainWord_bytes, map_eq_ok_iff] at h h'
      obtain ⟨content, hread, hhash⟩ := h
      obtain ⟨content', hread', hhash'⟩ := h'
      have hsame := eq_of_keccak256_eq hsafe (.octets hplain hread) (.octets hplain hread')
        (hhash.trans hhash'.symm)
      exact .octets hplain (hsame ▸ hread) hread'
    · rw [plainWord_atom hstring hbytes] at h h'
      exact .atom hplain harray hstring hbytes h h'

theorem memberWords_of_encodeData {octets : Bytes} (h : encodeData schema type value = .ok octets)
    (h' : encodeData schema type value' = .ok octets) :
    ∃ members fields fields', schema.get? type = some members ∧ value = .object fields ∧
      value' = .object fields' ∧ ∀ member ∈ members, ∃ field field' word,
        fields.lookup member.name = some field ∧ fields'.lookup member.name = some field' ∧
        fieldWord schema member.type field = .ok word ∧ fieldWord schema member.type field' = .ok word := by
  obtain ⟨members, fields, digest, words, hmembers, rfl, hdigest, hwords, hoctets⟩ :=
    encodeData_eq_ok_iff.mp h
  obtain ⟨members', fields', digest', words', hmembers', rfl, hdigest', hwords', hoctets'⟩ :=
    encodeData_eq_ok_iff.mp h'
  obtain rfl : members = members' := Option.some.inj (hmembers.symm.trans hmembers')
  obtain rfl : digest = digest' := Except.ok.inj (hdigest.symm.trans hdigest')
  -- both digests of the type are the same, so the words behind them are
  obtain rfl : words = words' :=
    Word.flatMap_toBytes_inj (List.append_cancel_left (hoctets.trans hoctets'.symm))
  refine ⟨members, fields, fields', hmembers, rfl, rfl, fun member hmember => ?_⟩
  obtain ⟨i, hi⟩ := List.getElem?_of_mem hmember
  obtain ⟨word, hword, hleft⟩ := getElem?_of_mapM hwords hi
  obtain ⟨word', hword', hright⟩ := getElem?_of_mapM hwords' hi
  obtain rfl : word = word' := Option.some.inj (hword.symm.trans hword')
  obtain ⟨field, hfield, hleft⟩ := memberWord_eq_ok_iff.mp hleft
  obtain ⟨field', hfield', hright⟩ := memberWord_eq_ok_iff.mp hright
  exact ⟨field, field', word, hfield, hfield', hleft, hright⟩

/-- Declared structs with one word are both absent, or written in the same octets. A digest is not zero,
which is the word of an absent struct. -/
theorem octets_of_declared (hsafe : ¬ Breaks schema type value value') {word : Word}
    (hdeclared : schema.contains type = true) (h : fieldWord schema type value = .ok word)
    (h' : fieldWord schema type value' = .ok word) :
    (value = .null ∧ value' = .null) ∨
      ∃ octets, encodeData schema type value = .ok octets ∧ encodeData schema type value' = .ok octets := by
  rcases fieldWord_declared_cases hdeclared h with ⟨rfl, rfl⟩ | ⟨octets, hoctets, hhash⟩
  · rcases fieldWord_declared_cases hdeclared h' with ⟨rfl, -⟩ | ⟨octets', hoctets', hhash'⟩
    · exact .inl ⟨rfl, rfl⟩
    · exact absurd (.inr ⟨octets', .inr (.struct hoctets'), hhash'⟩) hsafe
  · rcases fieldWord_declared_cases hdeclared h' with ⟨rfl, rfl⟩ | ⟨octets', hoctets', hhash'⟩
    · exact absurd (.inr ⟨octets, .inl (.struct hoctets), hhash⟩) hsafe
    · have hsame := eq_of_keccak256_eq hsafe (.struct hoctets) (.struct hoctets') (hhash.trans hhash'.symm)
      exact .inr ⟨octets', hsame ▸ hoctets, hoctets'⟩

/-- Values below a size with one word agree, unless they break the hash. -/
def AgreeBelow (schema : Schema) (size : Nat) : Prop :=
  ∀ (type : String) (value value' : Json.Value) (word : Word), sizeOf value < size →
    ¬ Breaks schema type value value' → fieldWord schema type value = .ok word →
    fieldWord schema type value' = .ok word → Agree schema type value value'

theorem agree_of_encodeData (hbelow : AgreeBelow schema (sizeOf value))
    (hsafe : ¬ Breaks schema type value value') {octets : Bytes}
    (h : encodeData schema type value = .ok octets) (h' : encodeData schema type value' = .ok octets) :
    Agree schema type value value' := by
  obtain ⟨members, fields, fields', hmembers, rfl, rfl, hwords⟩ := memberWords_of_encodeData h h'
  refine .struct hmembers (fun member hmember => ?_) fun member hmember field field' hfield hfield' => ?_
  · obtain ⟨field, field', _, hfield, hfield', -⟩ := hwords member hmember
    rw [hfield, hfield']
    exact ⟨rfl, rfl⟩
  · obtain ⟨_, _, word, hone, hother, hword, hword'⟩ := hwords member hmember
    obtain rfl := Option.some.inj (hfield.symm.trans hone)
    obtain rfl := Option.some.inj (hfield'.symm.trans hother)
    have hsmaller := sizeOf_lookup_lt hfield
    have hmemberSafe : ¬ Breaks schema member.type field field' := fun hbreaks =>
      hsafe (hbreaks.mono (fun _ hcontent => .member hmembers hmember hfield hcontent)
        fun _ hcontent => .member hmembers hmember hfield' hcontent)
    refine hbelow _ _ _ _ ?_ hmemberSafe hword hword'
    rw [Json.Value.object.sizeOf_spec]
    omega

theorem agree_of_elements {items items' : List Json.Value} {elem : String} {length : List Char}
    {words words' : List Word} (hbelow : AgreeBelow schema (sizeOf (Json.Value.list items)))
    (hsafe : ¬ Breaks schema type (.list items) (.list items')) (hplain : schema.contains type = false)
    (harray : arrayType? type = .ok (some (elem, length)))
    (hwords : items.mapM (fieldWord schema elem) = .ok words)
    (hwords' : items'.mapM (fieldWord schema elem) = .ok words')
    (hhash : keccak256 (words.flatMap Word.toBytes) = keccak256 (words'.flatMap Word.toBytes)) :
    Agree schema type (.list items) (.list items') := by
  obtain rfl : words = words' := Word.flatMap_toBytes_inj
    (eq_of_keccak256_eq hsafe (.array hplain harray hwords) (.array hplain harray hwords') hhash)
  refine .array hplain harray ((length_of_mapM hwords).trans (length_of_mapM hwords').symm) ?_
  intro i item item' hitem hitem'
  obtain ⟨word, hword, hleft⟩ := getElem?_of_mapM hwords hitem
  obtain ⟨word', hword', hright⟩ := getElem?_of_mapM hwords' hitem'
  obtain rfl : word = word' := Option.some.inj (hword.symm.trans hword')
  have hmem := List.mem_of_getElem? hitem
  have hsmaller := List.sizeOf_lt_of_mem hmem
  have hitemSafe : ¬ Breaks schema elem item item' := fun hbreaks =>
    hsafe (hbreaks.mono (fun _ hcontent => .element hplain harray hmem hcontent)
      fun _ hcontent => .element hplain harray (List.mem_of_getElem? hitem') hcontent)
  refine hbelow _ _ _ _ ?_ hitemSafe hleft hright
  rw [Json.Value.list.sizeOf_spec]
  omega

theorem agreeBelow (schema : Schema) : ∀ size, AgreeBelow schema size
  | 0 => fun _ _ _ _ hsize => absurd hsize (Nat.not_lt_zero _)
  | size + 1 => by
    intro type value value' word hsize hsafe h h'
    have hbelow : AgreeBelow schema (sizeOf value) := fun type field field' word hsmaller =>
      agreeBelow schema size type field field' word (by omega)
    cases hdeclared : schema.contains type with
    | true =>
      rcases octets_of_declared hsafe hdeclared h h' with ⟨rfl, rfl⟩ | ⟨octets, hoctets, hoctets'⟩
      · exact .absent hdeclared
      · exact agree_of_encodeData hbelow hsafe hoctets hoctets'
    | false =>
      obtain ⟨array, harray⟩ := exists_arrayType_of_fieldWord hdeclared h
      cases array with
      | none =>
        rw [fieldWord_plain hdeclared harray] at h h'
        exact agree_of_plainWord hsafe hdeclared harray h h'
      | some array =>
        rw [fieldWord_array_eq_ok_iff hdeclared harray] at h h'
        obtain ⟨items, words, rfl, -, hwords, hhash⟩ := h
        obtain ⟨items', words', rfl, -, hwords', hhash'⟩ := h'
        exact agree_of_elements hbelow hsafe hdeclared harray hwords hwords' (hhash.trans hhash'.symm)

/-- Values with one word agree, unless they break the hash. -/
theorem agree_of_fieldWord (hsafe : ¬ Breaks schema type value value') {word : Word}
    (h : fieldWord schema type value = .ok word) (h' : fieldWord schema type value' = .ok word) :
    Agree schema type value value' :=
  agreeBelow schema (sizeOf value + 1) _ _ _ _ (Nat.lt_succ_self _) hsafe h h'

/-! ### Values that agree have one word -/

/-- Values that agree have one word, or are refused for one reason. -/
theorem fieldWord_eq_of_agree (h : Agree schema type value value') :
    fieldWord schema type value = fieldWord schema type value' := by
  induction h with
  | absent hdeclared => rfl
  | @struct type members fields fields' hmembers hpresent hagree ih =>
    have hdeclared := contains_of_get? hmembers
    have hsame : members.map (memberWord schema type fields) = members.map (memberWord schema type fields') := by
      refine List.map_congr_left fun member hmember => ?_
      obtain ⟨hsome, hsome'⟩ := hpresent member hmember
      obtain ⟨field, hfield⟩ := Option.isSome_iff_exists.mp hsome
      obtain ⟨field', hfield'⟩ := Option.isSome_iff_exists.mp hsome'
      rw [memberWord, memberWord, hfield, hfield']
      exact ih member hmember field field' hfield hfield'
    have hencoding : encodeData schema type (.object fields) = encodeData schema type (.object fields') := by
      rw [encodeData_object hmembers, encodeData_object hmembers, mapM_eq_of_map_eq hsame]
    rw [fieldWord_declared hdeclared, fieldWord_declared hdeclared, hencoding]
    rfl
  | @array type elem length items items' hplain harray hlength hagree ih =>
    have hsame : items.map (fieldWord schema elem) = items'.map (fieldWord schema elem) := by
      apply List.ext_getElem?
      intro i
      rw [List.getElem?_map, List.getElem?_map]
      by_cases hi : i < items.length
      · have hi' : i < items'.length := hlength ▸ hi
        rw [List.getElem?_eq_getElem hi, List.getElem?_eq_getElem hi', Option.map_some, Option.map_some]
        exact congrArg some
          (ih i _ _ (List.getElem?_eq_getElem hi) (List.getElem?_eq_getElem hi'))
      · rw [List.getElem?_eq_none (by omega), List.getElem?_eq_none (by omega)]
    rw [fieldWord_array hplain harray, fieldWord_array hplain harray, hlength, mapM_eq_of_map_eq hsame]
  | string hplain text => rfl
  | octets hplain h h' =>
    rw [fieldWord_plain hplain rfl, fieldWord_plain hplain rfl, plainWord_bytes, plainWord_bytes, h, h']
  | atom hplain harray hstring hbytes h h' =>
    rw [fieldWord_plain hplain harray, fieldWord_plain hplain harray, plainWord_atom hstring hbytes,
      plainWord_atom hstring hbytes, h, h']

/-! ### Digests of messages -/

theorem fieldWord_of_hashStruct {digest : Word} (h : hashStruct schema type value = .ok digest) :
    fieldWord schema type value = .ok digest := by
  obtain ⟨octets, hoctets, -⟩ := map_eq_ok_iff.mp h
  obtain ⟨members, fields, -, -, hmembers, rfl, -⟩ := encodeData_eq_ok_iff.mp hoctets
  rw [fieldWord_object (contains_of_get? hmembers), h]

/-- What is hashed for a value is really hashed: its hash is the word of a part of the value. -/
theorem exists_fieldWord_of_hashes {content : Bytes} {word : Word} (h : Hashes schema type value content)
    (hword : fieldWord schema type value = .ok word) :
    ∃ part field, Part schema type value part field ∧
      fieldWord schema part field = .ok (keccak256 content) := by
  induction h generalizing word with
  | string hplain text =>
    refine ⟨"string", .string text, .whole, ?_⟩
    rw [fieldWord_plain hplain rfl]
    exact plainWord_string_eq_ok_iff.mpr ⟨text, rfl, rfl⟩
  | @octets value content hplain h =>
    refine ⟨"bytes", value, .whole, ?_⟩
    rw [fieldWord_plain hplain rfl, plainWord_bytes, h]
    rfl
  | @array type elem length items words hplain harray h =>
    obtain ⟨items', words', hitems, -, hwords, hhash⟩ := (fieldWord_array_eq_ok_iff hplain harray).mp hword
    obtain rfl := Json.Value.list.inj hitems
    obtain rfl := Except.ok.inj (h.symm.trans hwords)
    exact ⟨type, .list items, .whole, hword.trans (congrArg Except.ok hhash.symm)⟩
  | element hplain harray hitem h ih =>
    obtain ⟨word, hitemWord⟩ := ((exists_fieldWord_array_iff hplain harray).mp ⟨word, hword⟩).2 _ hitem
    obtain ⟨part, field, hpart, hhash⟩ := ih hitemWord
    exact ⟨part, field, .element hplain harray hitem hpart, hhash⟩
  | @struct type value content h =>
    obtain ⟨members, fields, -, -, hmembers, rfl, -⟩ := encodeData_eq_ok_iff.mp h
    refine ⟨type, .object fields, .whole, ?_⟩
    exact fieldWord_of_hashStruct (map_eq_ok_iff.mpr ⟨content, h, rfl⟩)
  | @member type members fields member field content hmembers hmember hfield h ih =>
    rw [fieldWord_object (contains_of_get? hmembers)] at hword
    obtain ⟨field', word, hfield', hfieldWord⟩ := (exists_hashStruct_iff hmembers).mp ⟨_, hword⟩ member hmember
    obtain rfl := Option.some.inj (hfield.symm.trans hfield')
    obtain ⟨part, inner, hpart, hhash⟩ := ih hfieldWord
    exact ⟨part, inner, .member hmembers hmember hfield hpart, hhash⟩

/-- **Equal digests bind the message.** Two messages of one type with one digest agree in all that the type
declares, or there are two different octet strings with one hash, the one hashed for the one message and
the other for the other, or one that was hashed for either has the hash zero. The hash of each of these
octet strings is the word of a part of its message. Messages that agree have one digest in any case. -/
theorem equal_digests_bind_the_message {digest digest' : Word}
    (h : hashStruct schema type value = .ok digest) (h' : hashStruct schema type value' = .ok digest') :
    (digest = digest' →
      Agree schema type value value' ∨
      (∃ content content', Hashes schema type value content ∧ Hashes schema type value' content' ∧
        content ≠ content' ∧ keccak256 content = keccak256 content') ∨
      ∃ content, (Hashes schema type value content ∨ Hashes schema type value' content) ∧
        keccak256 content = 0) ∧
    (∀ message ∈ [value, value'], ∀ content, Hashes schema type message content →
      ∃ part field, Part schema type message part field ∧
        fieldWord schema part field = .ok (keccak256 content)) ∧
    (Agree schema type value value' → digest = digest') := by
  have hword := fieldWord_of_hashStruct h
  have hword' := fieldWord_of_hashStruct h'
  refine ⟨?_, ?_, ?_⟩
  · rintro rfl
    by_cases hbreaks : Breaks schema type value value'
    · exact .inr hbreaks
    · exact .inl (agree_of_fieldWord hbreaks hword hword')
  · intro message hmessage content hhashes
    obtain rfl | rfl : message = value ∨ message = value' := by simpa using hmessage
    · exact exists_fieldWord_of_hashes hhashes hword
    · exact exists_fieldWord_of_hashes hhashes hword'
  · intro hagree
    rw [fieldWord_eq_of_agree hagree, hword', Except.ok.injEq] at hword
    exact hword.symm

/-- Orders with amounts, a note and a payer who may be absent. -/
def sampleSchema : Schema :=
  [("Order", [⟨"amounts", "uint8[]"⟩, ⟨"note", "string"⟩, ⟨"payer", "Payer"⟩]),
    ("Payer", [⟨"name", "string"⟩])]

/-- An order of two amounts that nobody pays. -/
def sampleOrder (amounts : List Json.Value) : Json.Value :=
  .object [("amounts", .list amounts), ("note", .string "two lots"), ("payer", .null)]

theorem atomWord_spellings :
    atomWord "uint8" (.number (.natural 1)) = .ok 1 ∧ atomWord "uint8" (.string "1") = .ok 1 ∧
      atomWord "uint8" (.number (.natural 2)) = .ok 2 ∧ atomWord "uint8" (.string "2") = .ok 2 := by
  have hkind : Abi.Kind.parse "uint8".toList = .ok (.uint 8) := by
    rw [Abi.Kind.parse]
    rfl
  simp only [atomWord.eq_def, hkind]
  exact ⟨rfl, rfl, rfl, rfl⟩

theorem hashStruct_sampleOrder : ∃ digest, ∀ one two : Json.Value, atomWord "uint8" one = .ok 1 →
    atomWord "uint8" two = .ok 2 → hashStruct sampleSchema "Order" (sampleOrder [one, two]) = .ok digest := by
  obtain ⟨typeDigest, htype⟩ : ∃ digest, sampleSchema.typeDigest "Order" = .ok digest := ⟨_, rfl⟩
  let words : List Word := [keccak256 ([1, 2].flatMap Word.toBytes), keccak256 (Text.octets "two lots"), 0]
  refine ⟨keccak256 (typeDigest.toBytes ++ words.flatMap Word.toBytes), fun one two hone htwo => ?_⟩
  have hamount : ∀ {value : Json.Value} {word : Word}, atomWord "uint8" value = .ok word →
      fieldWord sampleSchema "uint8" value = .ok word := by
    intro value word hword
    rw [fieldWord_plain rfl rfl, plainWord_atom (by decide) (by decide), hword]
  have hamounts : fieldWord sampleSchema "uint8[]" (.list [one, two])
      = .ok (keccak256 ([1, 2].flatMap Word.toBytes)) := by
    have harray : arrayType? "uint8[]" = .ok (some ("uint8", [])) := rfl
    refine (fieldWord_array_eq_ok_iff rfl harray).mpr ⟨[one, two], [1, 2], rfl, rfl, ?_, rfl⟩
    simp only [List.mapM_cons, List.mapM_nil, hamount hone, hamount htwo]
    rfl
  have hnote : fieldWord sampleSchema "string" (.string "two lots")
      = .ok (keccak256 (Text.octets "two lots")) := by
    rw [fieldWord_plain rfl rfl]
    exact plainWord_string_eq_ok_iff.mpr ⟨_, rfl, rfl⟩
  have hpayer : fieldWord sampleSchema "Payer" .null = .ok 0 := fieldWord_declared rfl
  refine map_eq_ok_iff.mpr ⟨_, encodeData_eq_ok_iff.mpr ⟨_, _, typeDigest, words, rfl, rfl, htype, ?_, rfl⟩, rfl⟩
  simp only [List.mapM_cons, List.mapM_nil, bind_eq_ok_iff, pure_eq_ok_iff]
  exact ⟨_, memberWord_eq_ok_iff.mpr ⟨_, rfl, hamounts⟩, _, ⟨_, memberWord_eq_ok_iff.mpr ⟨_, rfl, hnote⟩, _,
    ⟨_, memberWord_eq_ok_iff.mpr ⟨_, rfl, hpayer⟩, _, rfl, rfl⟩, rfl⟩, rfl⟩

/-- Two spellings of one order have one digest, so they agree or break the hash. -/
theorem respelled_order_is_bound :
    let order := sampleOrder [.number (.natural 1), .string "2"]
    let respelled := sampleOrder [.string "1", .number (.natural 2)]
    ∃ digest, hashStruct sampleSchema "Order" order = .ok digest ∧
      hashStruct sampleSchema "Order" respelled = .ok digest ∧
      (Agree sampleSchema "Order" order respelled ∨ Breaks sampleSchema "Order" order respelled) := by
  intro order respelled
  obtain ⟨digest, hdigest⟩ := hashStruct_sampleOrder
  obtain ⟨honeNumber, honeText, htwoNumber, htwoText⟩ := atomWord_spellings
  have horder := hdigest _ _ honeNumber htwoText
  have hrespelled := hdigest _ _ honeText htwoNumber
  exact ⟨digest, horder, hrespelled, (equal_digests_bind_the_message horder hrespelled).1 rfl⟩

end TypedData
end EthWire
