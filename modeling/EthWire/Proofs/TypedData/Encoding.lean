/-
# The words of typed data, one kind of type at a time

The word of a value is found by what its type is: a declared struct, an array, or anything else. Each kind
has an equation of its own here, in which the elements of an array and the members of a struct are written
one by one in order (`memberWord`), so that laws about the words go by the value without opening their
recursion again (`inside_induction`). Words take 32 octets each, so a run of them is read back from its octets
(`Word.flatMap_toBytes_inj`).

Key definitions: `memberWord`.
Key theorems: `inside_induction`, `fieldWord_declared`, `fieldWord_array_eq_ok_iff`, `fieldWord_plain`,
`encodeData_eq_ok_iff`, `exists_hashStruct_iff`, `Word.flatMap_toBytes_inj`.
-/
import EthWire.Proofs.Outcome
import EthWire.TypedData.Encoding

namespace EthWire

/-! ### Runs of words -/

theorem Word.length_flatMap_toBytes : ∀ words : List Word,
    (words.flatMap Word.toBytes).length = 32 * words.length
  | [] => rfl
  | word :: words => by
    rw [List.flatMap_cons, List.length_append, Word.length_toBytes, Word.length_flatMap_toBytes words,
      List.length_cons]
    omega

/-- The octets of a run of words determine the words, how many there are included. -/
theorem Word.flatMap_toBytes_inj : ∀ {words words' : List Word},
    words.flatMap Word.toBytes = words'.flatMap Word.toBytes → words = words'
  | [], [], _ => rfl
  | [], _ :: _, h => by
    have hlength := congrArg List.length h
    rw [Word.length_flatMap_toBytes, Word.length_flatMap_toBytes] at hlength
    simp at hlength
  | _ :: _, [], h => by
    have hlength := congrArg List.length h
    rw [Word.length_flatMap_toBytes, Word.length_flatMap_toBytes] at hlength
    simp at hlength
  | word :: words, word' :: words', h => by
    rw [List.flatMap_cons, List.flatMap_cons] at h
    have hwidth : word.toBytes.length = word'.toBytes.length := by
      rw [Word.length_toBytes, Word.length_toBytes]
    obtain ⟨hword, hwords⟩ := List.append_inj h hwidth
    rw [Word.toBytes_injective hword, Word.flatMap_toBytes_inj hwords]

/-- What stands before the first occurrence of a character and behind it. -/
theorem Text.eq_append_of_cutAt? {mark : Char} : ∀ {text front back : List Char},
    cutAt? mark text = some (front, back) → text = front ++ mark :: back
  | [], _, _, h => by cases h
  | c :: rest, front, back, h => by
    rw [cutAt?] at h
    split at h
    · rename_i hmark
      obtain ⟨rfl, rfl⟩ := Prod.mk.inj (Option.some.inj h)
      rw [hmark, List.nil_append]
    · obtain ⟨⟨before, behind⟩, hcut, heq⟩ := Option.map_eq_some_iff.mp h
      obtain ⟨rfl, rfl⟩ := Prod.mk.inj heq
      rw [Text.eq_append_of_cutAt? hcut, List.cons_append]

namespace TypedData

/-- Values are hashed from the inside: what holds of a value because it holds of its elements, or of its fields,
holds of all values. -/
theorem inside_induction {motive : Json.Value → Prop}
    (step : ∀ value, (∀ items, value = .list items → ∀ item ∈ items, motive item) →
      (∀ fields, value = .object fields → ∀ name field, fields.lookup name = some field → motive field) →
        motive value) (value : Json.Value) : motive value := by
  refine step value (fun items hitems item hitem => ?_) fun fields hfields name field hfield => ?_
  · exact inside_induction step item
  · exact inside_induction step field
termination_by sizeOf value
decreasing_by
  · have hsmaller := List.sizeOf_lt_of_mem hitem
    rw [hitems, Json.Value.list.sizeOf_spec]
    omega
  · have hsmaller := sizeOf_lookup_lt hfield
    rw [hfields, Json.Value.object.sizeOf_spec]
    omega

variable {schema : Schema} {type : String} {value : Json.Value}

/-! ### Structs -/

/-- The word of a member of a struct value of some type. -/
def memberWord (schema : Schema) (type : String) (fields : List (String × Json.Value)) (member : Member) :
    Except Error Word :=
  match fields.lookup member.name with
  | some field => fieldWord schema member.type field
  | none => .error (.typedDataMember type member.name)

theorem memberWord_eq_ok_iff {fields : List (String × Json.Value)} {member : Member} {word : Word} :
    memberWord schema type fields member = .ok word ↔
      ∃ field, fields.lookup member.name = some field ∧ fieldWord schema member.type field = .ok word := by
  unfold memberWord
  cases fields.lookup member.name with
  | none => simp
  | some field => simp

theorem encodeData_object {members : List Member} (hmembers : schema.get? type = some members)
    (fields : List (String × Json.Value)) :
    encodeData schema type (.object fields) = (do
      let digest ← schema.typeDigest type
      let words ← members.mapM (memberWord schema type fields)
      return digest.toBytes ++ words.flatMap Word.toBytes) := by
  rw [encodeData, hmembers]
  refine bind_congr fun digest => ?_
  congr 2
  funext member
  unfold memberWord
  split <;> rename_i hfield <;> simp only [hfield]

/-- A struct value is written as the digest of its type and the words of its members. -/
theorem encodeData_eq_ok_iff {octets : Bytes} :
    encodeData schema type value = .ok octets ↔
      ∃ members fields digest words, schema.get? type = some members ∧ value = .object fields ∧
        schema.typeDigest type = .ok digest ∧ members.mapM (memberWord schema type fields) = .ok words ∧
        digest.toBytes ++ words.flatMap Word.toBytes = octets := by
  constructor
  · intro h
    cases hmembers : schema.get? type with
    | none =>
      rw [encodeData, hmembers] at h
      simp at h
    | some members =>
      cases value with
      | object fields =>
        rw [encodeData_object hmembers] at h
        simp only [bind_eq_ok_iff, pure_eq_ok_iff] at h
        obtain ⟨digest, hdigest, words, hwords, hoctets⟩ := h
        exact ⟨members, fields, digest, words, rfl, rfl, hdigest, hwords, hoctets⟩
      | _ =>
        rw [encodeData, hmembers] at h
        simp [invalid] at h
  · rintro ⟨members, fields, digest, words, hmembers, rfl, hdigest, hwords, rfl⟩
    rw [encodeData_object hmembers]
    simp only [bind_eq_ok_iff, pure_eq_ok_iff]
    exact ⟨digest, hdigest, words, hwords, rfl⟩

theorem fieldWord_declared (hdeclared : schema.contains type = true) :
    fieldWord schema type value =
      if value.isNull then .ok 0 else (encodeData schema type value).map keccak256 := by
  rw [fieldWord, if_pos hdeclared]

/-- The absent struct has the word zero, and every other one a digest. -/
theorem fieldWord_declared_cases {word : Word} (hdeclared : schema.contains type = true)
    (h : fieldWord schema type value = .ok word) :
    (value = .null ∧ word = 0) ∨
      ∃ octets, encodeData schema type value = .ok octets ∧ keccak256 octets = word := by
  rw [fieldWord_declared hdeclared] at h
  cases value with
  | null => exact .inl ⟨rfl, (Except.ok.inj h).symm⟩
  | _ => exact .inr (map_eq_ok_iff.mp h)

theorem contains_of_get? {members : List Member} (h : schema.get? type = some members) :
    schema.contains type = true := by
  rw [Dictionary.contains, h]
  rfl

theorem exists_typeDigest (hdeclared : schema.contains type = true) :
    ∃ digest, schema.typeDigest type = .ok digest := by
  rw [Schema.typeDigest, Schema.typeText, if_pos hdeclared]
  exact ⟨_, rfl⟩

/-- A struct has a digest exactly if each member is there and has a word. -/
theorem exists_hashStruct_iff {members : List Member} (hmembers : schema.get? type = some members)
    {fields : List (String × Json.Value)} :
    (∃ digest, hashStruct schema type (.object fields) = .ok digest) ↔
      ∀ member ∈ members, ∃ field word, fields.lookup member.name = some field ∧
        fieldWord schema member.type field = .ok word := by
  constructor
  · rintro ⟨digest, h⟩ member hmember
    obtain ⟨octets, hoctets, -⟩ := map_eq_ok_iff.mp h
    obtain ⟨members', fields', -, words, hmembers', hfields, -, hwords, -⟩ := encodeData_eq_ok_iff.mp hoctets
    obtain rfl := Json.Value.object.inj hfields
    obtain rfl := Option.some.inj (hmembers.symm.trans hmembers')
    obtain ⟨word, hword⟩ := exists_of_mem_of_mapM hwords hmember
    obtain ⟨field, hfield, hfieldWord⟩ := memberWord_eq_ok_iff.mp hword
    exact ⟨field, word, hfield, hfieldWord⟩
  · intro h
    obtain ⟨digest, hdigest⟩ := exists_typeDigest (contains_of_get? hmembers)
    obtain ⟨words, hwords⟩ : ∃ words, members.mapM (memberWord schema type fields) = .ok words := by
      refine exists_mapM_of_forall fun member hmember => ?_
      obtain ⟨field, word, hfield, hword⟩ := h member hmember
      exact ⟨word, memberWord_eq_ok_iff.mpr ⟨field, hfield, hword⟩⟩
    exact ⟨_, map_eq_ok_iff.mpr
      ⟨_, encodeData_eq_ok_iff.mpr ⟨members, fields, digest, words, hmembers, rfl, hdigest, hwords, rfl⟩, rfl⟩⟩

theorem fieldWord_object (hdeclared : schema.contains type = true) (fields : List (String × Json.Value)) :
    fieldWord schema type (.object fields) = hashStruct schema type (.object fields) :=
  fieldWord_declared hdeclared

/-! ### Arrays and the rest -/

theorem toList_of_arrayType? {elem : String} {length : List Char}
    (h : arrayType? type = .ok (some (elem, length))) : type.toList = elem.toList ++ '[' :: (length ++ [']']) := by
  rw [arrayType?] at h
  split at h
  · rename_i rest hreverse
    split at h
    · rename_i back front hcut
      obtain ⟨rfl, rfl⟩ := Prod.mk.inj (Option.some.inj (Except.ok.inj h))
      have htext := congrArg List.reverse hreverse
      rw [List.reverse_reverse, List.reverse_cons, Text.eq_append_of_cutAt? hcut] at htext
      simpa using htext
    · cases h
  · cases h

theorem plainWord_string_eq_ok_iff {word : Word} :
    plainWord "string" value = .ok word ↔
      ∃ text, value = .string text ∧ keccak256 (Text.octets text) = word := by
  rw [plainWord.eq_def, if_pos rfl]
  cases value <;> simp [invalid]

theorem plainWord_bytes (value : Json.Value) :
    plainWord "bytes" value = (readOctets value).map keccak256 := by
  rw [plainWord.eq_def, if_neg (by decide), if_pos rfl]

theorem plainWord_atom (hstring : type ≠ "string") (hbytes : type ≠ "bytes") (value : Json.Value) :
    plainWord type value = atomWord type value := by
  rw [plainWord.eq_def, if_neg hstring, if_neg hbytes]

section

variable (hplain : schema.contains type = false)

include hplain

/-- The word of an array is the digest of the words of its elements. -/
theorem fieldWord_array {elem : String} {length : List Char}
    (harray : arrayType? type = .ok (some (elem, length))) (items : List Json.Value) :
    fieldWord schema type (.list items) = (do
      checkLength type length items.length
      let words ← items.mapM (fieldWord schema elem)
      return keccak256 (words.flatMap Word.toBytes)) := by
  rw [fieldWord, if_neg (by simp [hplain]), harray, ← mapM_attach (fieldWord schema elem) items]
  rfl

theorem fieldWord_array_eq_ok_iff {elem : String} {length : List Char} {word : Word}
    (harray : arrayType? type = .ok (some (elem, length))) :
    fieldWord schema type value = .ok word ↔
      ∃ items words, value = .list items ∧ checkLength type length items.length = .ok () ∧
        items.mapM (fieldWord schema elem) = .ok words ∧
        keccak256 (words.flatMap Word.toBytes) = word := by
  constructor
  · intro h
    cases value with
    | list items =>
      simp only [fieldWord_array hplain harray, bind_eq_ok_iff, pure_eq_ok_iff] at h
      obtain ⟨⟨⟩, hlength, words, hwords, hword⟩ := h
      exact ⟨items, words, rfl, hlength, hwords, hword⟩
    | _ =>
      rw [fieldWord, if_neg (by simp [hplain]), harray] at h
      simp [bind_eq_ok_iff, invalid] at h
  · rintro ⟨items, words, rfl, hlength, hwords, rfl⟩
    simp only [fieldWord_array hplain harray, bind_eq_ok_iff, pure_eq_ok_iff]
    exact ⟨(), hlength, words, hwords, rfl⟩

/-- An array has a word exactly if it has the size that its type gives, and each element has a word. -/
theorem exists_fieldWord_array_iff {elem : String} {length : List Char}
    (harray : arrayType? type = .ok (some (elem, length))) {items : List Json.Value} :
    (∃ word, fieldWord schema type (.list items) = .ok word) ↔
      checkLength type length items.length = .ok () ∧
        ∀ item ∈ items, ∃ word, fieldWord schema elem item = .ok word := by
  constructor
  · rintro ⟨word, h⟩
    obtain ⟨items', words, hitems, hlength, hwords, -⟩ := (fieldWord_array_eq_ok_iff hplain harray).mp h
    obtain rfl := Json.Value.list.inj hitems
    exact ⟨hlength, fun item hitem => exists_of_mem_of_mapM hwords hitem⟩
  · rintro ⟨hlength, h⟩
    obtain ⟨words, hwords⟩ := exists_mapM_of_forall h
    exact ⟨_, (fieldWord_array_eq_ok_iff hplain harray).mpr ⟨items, words, rfl, hlength, hwords, rfl⟩⟩

theorem fieldWord_plain (hnone : arrayType? type = .ok none) :
    fieldWord schema type value = plainWord type value := by
  rw [fieldWord, if_neg (by simp [hplain]), hnone]
  rfl

theorem exists_arrayType_of_fieldWord {word : Word} (h : fieldWord schema type value = .ok word) :
    ∃ array, arrayType? type = .ok array := by
  rw [fieldWord, if_neg (by simp [hplain])] at h
  obtain ⟨array, harray, -⟩ := bind_eq_ok_iff.mp h
  exact ⟨array, harray⟩

end

end TypedData
end EthWire
