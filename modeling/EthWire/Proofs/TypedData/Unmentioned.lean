/-
# Types that nothing mentions do not matter

A type text mentions a struct if it is the name of the struct, or if the name is what stands in front of one of
its brackets (`TypedData.Mentions`). Whatever is looked up for a value is mentioned by the type of the value: the
type itself, the types of the elements of its arrays and what its text refers to. So a schema may declare one
struct more, which no member type of it mentions (`TypedData.WidenedBy`), and for a type that does not mention
the struct either the search for types takes the same steps, the texts of types are the same, and so are the
words of values.

A payload that does not declare the type of its domain declares it by the parts of the domain that are there,
so the types of these count as member types too (`TypedData.Payload.NowhereMentions`).

Key definitions: `TypedData.Mentions`, `TypedData.WidenedBy`, `TypedData.Payload.NowhereMentions`.
Key theorems: `TypedData.WidenedBy.explore_eq_of_explores`, `TypedData.WidenedBy.fieldWord_eq`,
`TypedData.Payload.unmentioned_type_does_not_matter`.
-/
import EthWire.Proofs.TypedData.TypeText
import EthWire.TypedData.Payload

namespace EthWire
namespace TypedData

open Schema (baseName explore explore_of_found explore_of_undeclared explore_of_declared)

/-- A type text is a name, or goes on with a bracket behind it. -/
def Mentions (type name : String) : Prop :=
  type = name ∨ ∃ rest, type.toList = name.toList ++ '[' :: rest

section

variable {type name : String}

instance : Decidable (Mentions type name) :=
  decidable_of_iff (type = name ∨ name.toList ++ ['['] <+: type.toList) <|
    or_congr_right (exists_congr fun rest => by rw [List.append_assoc, List.singleton_append, eq_comm])

theorem mentions_baseName (type : String) : Mentions type (baseName type) := by
  have hfront : type.toList.takeWhile (· ≠ '[') ++ type.toList.dropWhile (· ≠ '[') = type.toList :=
    List.takeWhile_append_dropWhile
  cases hback : type.toList.dropWhile (· ≠ '[') with
  | nil =>
    rw [hback, List.append_nil] at hfront
    exact .inl (by rw [baseName, hfront, String.ofList_toList])
  | cons c rest =>
    obtain rfl : c = '[' := by
      have hstop := List.head?_dropWhile_not (· ≠ '[') type.toList
      rw [hback] at hstop
      simpa using hstop
    refine .inr ⟨rest, ?_⟩
    rw [baseName, String.toList_ofList, ← hback, hfront]

theorem baseName_ne_of_not_mentions (h : ¬ Mentions type name) : baseName type ≠ name :=
  fun hsame => h (hsame ▸ mentions_baseName type)

theorem ne_of_not_mentions (h : ¬ Mentions type name) : type ≠ name :=
  fun hsame => h (.inl hsame)

theorem mentions_of_arrayType? {elem : String} {length : List Char}
    (harray : arrayType? type = .ok (some (elem, length))) (h : Mentions elem name) : Mentions type name := by
  have htext := toList_of_arrayType? harray
  rcases h with rfl | ⟨rest, helem⟩
  · exact .inr ⟨_, htext⟩
  · rw [helem, List.append_assoc, List.cons_append] at htext
    exact .inr ⟨_, htext⟩

end

/-- A schema declares what another one does, and one struct more, which no member type mentions. -/
structure WidenedBy (name : String) (schema wider : Schema) : Prop where
  undeclared : schema.contains name = false
  get?_eq : ∀ other, other ≠ name → wider.get? other = schema.get? other
  unmentioned : ∀ type members member, schema.get? type = some members → member ∈ members →
    ¬ Mentions member.type name

namespace WidenedBy

variable {name : String} {schema wider : Schema} (h : WidenedBy name schema wider)

include h

theorem contains_eq {other : String} (hne : other ≠ name) : wider.contains other = schema.contains other := by
  rw [Dictionary.contains, Dictionary.contains, h.get?_eq other hne]

/-! ### The texts of types -/

/-- The search for types takes the same steps. -/
theorem explore_eq_of_explores {found final : Schema} {pending : List String}
    (hexplores : schema.Explores found pending final) (hpending : ∀ type ∈ pending, ¬ Mentions type name) :
    explore wider found pending = final := by
  induction hexplores with
  | done found => rw [explore]
  | @skip found final type pending hold rest ih =>
    obtain ⟨htype, hlater⟩ := List.forall_mem_cons.mp hpending
    by_cases hfound : found.contains (baseName type) = true
    · rw [explore_of_found hfound, ih hlater]
    · have hundeclared : schema.get? (baseName type) = none := by
        simpa [Dictionary.contains] using hold.resolve_left hfound
      rw [explore_of_undeclared hfound ((h.get?_eq _ (baseName_ne_of_not_mentions htype)).trans hundeclared), ih hlater]
  | @enter found final type pending members hnew hget rest ih =>
    obtain ⟨htype, hlater⟩ := List.forall_mem_cons.mp hpending
    rw [explore_of_declared hnew ((h.get?_eq _ (baseName_ne_of_not_mentions htype)).trans hget)]
    refine ih fun other hother => ?_
    rcases List.mem_append.mp hother with hlisted | hmem
    · obtain ⟨member, hmember, rfl⟩ := List.mem_map.mp hlisted
      exact h.unmentioned _ members member hget hmember
    · exact hlater other hmem

theorem declaration_eq {other : String} (hne : other ≠ name) :
    wider.declaration other = schema.declaration other := by
  rw [Schema.declaration, Schema.declaration, h.get?_eq other hne]

/-- The digest of a type is the same. -/
theorem typeDigest_eq {type : String} (htype : ¬ Mentions type name) :
    wider.typeDigest type = schema.typeDigest type := by
  have hreachable : wider.reachable type = schema.reachable type := by
    rw [Schema.reachable, Schema.reachable,
      h.explore_eq_of_explores (Schema.explores_explore [] [type]) (List.forall_mem_singleton.mpr htype)]
  have hdeclarations : (type :: (schema.reachable type).filter (· ≠ type)).map wider.declaration =
      (type :: (schema.reachable type).filter (· ≠ type)).map schema.declaration := by
    refine List.map_congr_left fun other hother => h.declaration_eq ?_
    rcases List.mem_cons.mp hother with rfl | hother
    · exact ne_of_not_mentions htype
    · -- what is reached is declared
      rintro rfl
      have hdeclared := (Schema.mem_reachable_iff.mp (List.mem_filter.mp hother).1).1
      rw [h.undeclared] at hdeclared
      cases hdeclared
  rw [Schema.typeDigest, Schema.typeDigest, Schema.typeText, Schema.typeText, h.contains_eq (ne_of_not_mentions htype),
    hreachable, hdeclarations]

/-! ### The words of values -/

theorem encodeData_eq_of_members {type : String} (htype : ¬ Mentions type name) {value : Json.Value}
    (hfields : ∀ fields, value = .object fields → ∀ member field, fields.lookup member = some field →
      ∀ type, ¬ Mentions type name → fieldWord wider type field = fieldWord schema type field) :
    encodeData wider type value = encodeData schema type value := by
  have hget := h.get?_eq type (ne_of_not_mentions htype)
  cases hmembers : schema.get? type with
  | none => rw [encodeData, encodeData, hget, hmembers]
  | some members =>
    rw [hmembers] at hget
    cases value with
    | object fields =>
      have hwords : members.map (memberWord wider type fields) = members.map (memberWord schema type fields) := by
        refine List.map_congr_left fun member hmember => ?_
        rw [memberWord, memberWord]
        cases hfield : fields.lookup member.name with
        | none => rfl
        | some field =>
          exact hfields fields rfl member.name field hfield _ (h.unmentioned type members member hmembers hmember)
      rw [encodeData_object hmembers, encodeData_object hget, h.typeDigest_eq htype, mapM_eq_of_map_eq hwords]
    | _ => rw [encodeData, encodeData, hget, hmembers]

omit h in
theorem fieldWord_eq_of_items {type : String} {value : Json.Value} (hwider : wider.contains type = false)
    (hplain : schema.contains type = false)
    (hitems : ∀ elem length, arrayType? type = .ok (some (elem, length)) → ∀ items, value = .list items →
      items.map (fieldWord wider elem) = items.map (fieldWord schema elem)) :
    fieldWord wider type value = fieldWord schema type value := by
  cases harray : arrayType? type with
  | error cause =>
    rw [fieldWord, fieldWord, if_neg (by simp [hwider]), if_neg (by simp [hplain]), harray]
    rfl
  | ok array =>
    cases array with
    | none => rw [fieldWord_plain hwider harray, fieldWord_plain hplain harray]
    | some array =>
      cases value with
      | list items =>
        rw [fieldWord_array hwider harray, fieldWord_array hplain harray,
          mapM_eq_of_map_eq (hitems array.1 array.2 harray items rfl)]
      | _ => rw [fieldWord, fieldWord, if_neg (by simp [hwider]), if_neg (by simp [hplain]), harray]

/-- The word of a value is the same, or the cause why it has none. -/
theorem fieldWord_eq {type : String} (htype : ¬ Mentions type name) (value : Json.Value) :
    fieldWord wider type value = fieldWord schema type value := by
  induction value using inside_induction generalizing type with
  | step value ihItem ihField =>
    have hcontains := h.contains_eq (ne_of_not_mentions htype)
    cases hdeclared : schema.contains type with
    | true =>
      have hencoding : encodeData wider type value = encodeData schema type value :=
        h.encodeData_eq_of_members htype fun fields hvalue member field hfield _ hmember =>
          ihField fields hvalue member field hfield hmember
      rw [fieldWord_declared hdeclared, fieldWord_declared (hcontains.trans hdeclared), hencoding]
    | false =>
      refine fieldWord_eq_of_items (hcontains.trans hdeclared) hdeclared fun elem length harray items hvalue => ?_
      have helem : ¬ Mentions elem name := fun hmentions => htype (mentions_of_arrayType? harray hmentions)
      exact List.map_congr_left fun item hitem => ihItem items hvalue item hitem helem

theorem hashStruct_eq {type : String} (htype : ¬ Mentions type name) (value : Json.Value) :
    hashStruct wider type value = hashStruct schema type value := by
  rw [hashStruct, hashStruct,
    h.encodeData_eq_of_members htype fun _ _ _ field _ _ hmember => h.fieldWord_eq hmember field]

end WidenedBy

/-! ### Payloads -/

namespace Payload

/-- The payload with one more struct declared. -/
def declaring (payload : Payload) (name : String) (members : List Member) : Payload :=
  { payload with types := payload.types.insert name members }

/-- Neither the type of the message nor a member type mentions a name, nor is it the name of a declared struct or
of the domain's type. The parts of the domain count where they declare the domain's type. -/
structure NowhereMentions (payload : Payload) (name : String) : Prop where
  undeclared : payload.types.contains name = false
  ne_domain : name ≠ Domain.typeName
  primary : ¬ Mentions payload.primaryType name
  members : ∀ type members member, payload.types.get? type = some members → member ∈ members →
    ¬ Mentions member.type name
  domain : payload.types.contains Domain.typeName = false → ∀ member ∈ payload.domain.members,
    ¬ Mentions member.type name

variable {payload : Payload} {name : String}

theorem not_mentions_domain (hne : name ≠ Domain.typeName) : ¬ Mentions Domain.typeName name := by
  rintro (hsame | ⟨rest, hbracket⟩)
  · exact hne hsame.symm
  · have hmem : '[' ∈ Domain.typeName.toList := hbracket ▸ List.mem_append_right _ List.mem_cons_self
    exact absurd hmem (by decide)

theorem NowhereMentions.widenedBy (h : payload.NowhereMentions name) (members : List Member) :
    WidenedBy name payload.schema (payload.declaring name members).schema := by
  have hcontains : (payload.types.insert name members).contains Domain.typeName =
      payload.types.contains Domain.typeName := by
    rw [Dictionary.contains_insert, beq_eq_false_iff_ne.mpr h.ne_domain.symm, Bool.false_or]
  have hinsert : ∀ other, other ≠ name →
      (payload.types.insert name members).get? other = payload.types.get? other := by
    intro other hne
    rw [Dictionary.get?_insert, if_neg hne]
  cases hdomain : payload.types.contains Domain.typeName with
  | true =>
    have hschema : payload.schema = payload.types := if_pos hdomain
    have hwider : (payload.declaring name members).schema = payload.types.insert name members :=
      if_pos (hcontains.trans hdomain)
    rw [hschema, hwider]
    exact ⟨h.undeclared, hinsert, h.members⟩
  | false =>
    have hschema : payload.schema = payload.types.insert Domain.typeName payload.domain.members :=
      if_neg (by simp [hdomain])
    have hwider : (payload.declaring name members).schema =
        (payload.types.insert name members).insert Domain.typeName payload.domain.members :=
      if_neg (by simp [declaring, hcontains, hdomain])
    rw [hschema, hwider]
    refine ⟨?_, fun other hne => ?_, fun type listed member hget hmember => ?_⟩
    · rw [Dictionary.contains_insert, beq_eq_false_iff_ne.mpr h.ne_domain, h.undeclared, Bool.false_or]
    · rw [Dictionary.get?_insert Domain.typeName, Dictionary.get?_insert Domain.typeName, hinsert other hne]
    · rw [Dictionary.get?_insert] at hget
      split at hget
      · obtain rfl := Option.some.inj hget
        exact h.domain hdomain member hmember
      · exact h.members type listed member hget hmember

/-- **A type that nothing mentions does not matter**: with or without it, the digest of the payload and that of its
domain are the same, or fail for the same cause. -/
theorem unmentioned_type_does_not_matter (h : payload.NowhereMentions name) (members : List Member) :
    (payload.declaring name members).digest = payload.digest ∧
      (payload.declaring name members).domainDigest = payload.domainDigest := by
  have hwidened := h.widenedBy members
  have hdomain : (payload.declaring name members).domainDigest = payload.domainDigest :=
    hwidened.hashStruct_eq (not_mentions_domain h.ne_domain) payload.domain.value
  have hmessage : (payload.declaring name members).messageDigest = payload.messageDigest := by
    rw [messageDigest, messageDigest]
    exact congrArg (fun digest => if payload.primaryType = Domain.typeName then .ok [] else digest.map Word.toBytes)
      (hwidened.hashStruct_eq h.primary payload.message)
  refine ⟨?_, hdomain⟩
  rw [digest, digest, preimage, preimage, hdomain, hmessage]

/-- A number in a letter, for a domain that has a name only and does not declare its type. -/
def numbered : Payload :=
  ⟨[("Mail", [⟨"n", "uint256"⟩])], "Mail", { Domain.empty with name := some "x" },
    .object [("n", .number (.natural 1))]⟩

theorem members_of_numbered {type : String} {members : List Member} {member : Member}
    (hget : numbered.types.get? type = some members) (hmember : member ∈ members) : member = ⟨"n", "uint256"⟩ := by
  obtain ⟨-, rfl⟩ := Prod.mk.inj (List.mem_singleton.mp (Dictionary.mem_of_get? hget))
  exact List.mem_singleton.mp hmember

/-- The letter may declare persons, whom nothing in it mentions. -/
theorem persons_do_not_matter :
    (numbered.declaring "Person" [⟨"name", "string"⟩]).digest = numbered.digest ∧
      (numbered.declaring "Person" [⟨"name", "string"⟩]).domainDigest = numbered.domainDigest := by
  refine unmentioned_type_does_not_matter ⟨rfl, by decide, by decide, ?_, fun _ => by decide⟩ _
  rintro type members member hget hmember
  rw [members_of_numbered hget hmember]
  decide

/-- No type of the letter mentions a struct with the name `string`, but that of the name of its domain does: with
the struct the domain has no digest. -/
theorem struct_with_the_name_string_matters :
    numbered.types.contains "string" = false ∧ "string" ≠ Domain.typeName ∧
      ¬ Mentions numbered.primaryType "string" ∧
      (∀ type members member, numbered.types.get? type = some members → member ∈ members →
        ¬ Mentions member.type "string") ∧
      (∃ digest, numbered.domainDigest = .ok digest) ∧
      ∃ cause, (numbered.declaring "string" []).domainDigest = .error cause := by
  refine ⟨rfl, by decide, by decide, ?_, ?_, ?_⟩
  · intro type members member hget hmember
    rw [members_of_numbered hget hmember]
    decide
  · have hname : fieldWord numbered.schema "string" (.string "x") = .ok (keccak256 (Text.octets "x")) := by
      rw [fieldWord_plain rfl rfl]
      exact plainWord_string_eq_ok_iff.mpr ⟨_, rfl, rfl⟩
    exact (exists_hashStruct_iff rfl).mpr (List.forall_mem_singleton.mpr ⟨_, _, rfl, hname⟩)
  · refine exists_error_of_forall_ne_ok fun digest hdigest => ?_
    obtain ⟨field, word, hfield, hword⟩ :=
      (exists_hashStruct_iff rfl).mp ⟨digest, hdigest⟩ ⟨"name", "string"⟩ List.mem_cons_self
    obtain rfl : .string "x" = field := Option.some.inj hfield
    rcases fieldWord_declared_cases rfl hword with ⟨hnull, -⟩ | ⟨octets, hoctets, -⟩
    · cases hnull
    · obtain ⟨_, _, _, _, _, hobject, -⟩ := encodeData_eq_ok_iff.mp hoctets
      cases hobject

end Payload

end TypedData
end EthWire
