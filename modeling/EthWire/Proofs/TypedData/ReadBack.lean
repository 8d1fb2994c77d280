/-
# A payload that was read is read again from its text

A payload is written as a record of four fields, and so is its domain, as far as its parts are present. Every
part has one text, however it was spelled when it was read: a chain id its decimal digits, an address its
checksum, a salt its hex digits. All of these are read again (`TypedData.Domain.reads_json`). The types were
put in order when they were read, and the message is a value that was read, so both are read from their texts
at the levels they have in the record.

Key theorems: `TypedData.Domain.reads_json`, `TypedData.Payload.written_payload_reads_back`.
-/
import EthWire.Proofs.Address.Text
import EthWire.Proofs.Json.Values
import EthWire.Proofs.TypedData.Integers

namespace EthWire
namespace TypedData

open Json (Tree Record Decoder Reads codesOf quote Writes)

/-! ### Domains -/

namespace Domain

/-- A word is read again from its decimal digits. -/
theorem readUint_toDecimal (word : Word) : readUint (.string word.toDecimal) = .ok word := by
  refine (readUint_numeral_eq_ok_iff Nat.toDigits_ne_nil fun _ => Json.isDigit_of_mem_toDigits).mpr ?_
  rw [Numeral.number_toDigits, BitVec.ofNat_toNat, BitVec.setWidth_eq]
  exact ⟨rfl, word.isLt⟩

theorem chainIdDecoder_toDecimal (levels : Nat) (word : Word) :
    chainIdDecoder levels (.string (codesOf word.toDecimal)) = some word :=
  (chainIdDecoder_string (Json.textOfCodes?_codesOf _)).mpr (readUint_toDecimal word)

/-- The parts of a domain with their texts and the trees of these. -/
def rows (domain : Domain) : List ((String × String) × Tree) :=
  domain.parts.map fun part => ((part.1.name, quote part.2), .string (codesOf part.2))

theorem fields_rows (domain : Domain) : domain.rows.map (fun row => (row.1.1, row.2)) =
    (domain.name.map fun s => ("name", Tree.string (codesOf s))).toList ++
    (domain.version.map fun s => ("version", Tree.string (codesOf s))).toList ++
    (domain.chainId.map fun n => ("chainId", Tree.string (codesOf n.toDecimal))).toList ++
    (domain.verifyingContract.map fun a => ("verifyingContract", Tree.string (codesOf a.checksum))).toList ++
    (domain.salt.map fun w => ("salt", Tree.string (codesOf (Hex.word w)))).toList := by
  simp [rows, parts, Option.toList_map, Function.comp_def]

theorem names_sublist (domain : Domain) :
    (domain.rows.map (·.1.1)).Sublist ["name", "version", "chainId", "verifyingContract", "salt"] := by
  have hone : ∀ {α : Type} (o : Option α) (key : String) (f : α → Tree),
      ((o.map fun a => (key, f a)).toList.map (·.1)).Sublist [key] := by
    intro α o key f
    cases o with
    | none => exact List.nil_sublist _
    | some a => exact List.Sublist.refl _
  have hfields : domain.rows.map (·.1.1) = (domain.rows.map fun row => (row.1.1, row.2)).map (·.1) := by
    rw [List.map_map]
    rfl
  rw [hfields, fields_rows, List.map_append, List.map_append, List.map_append, List.map_append]
  exact ((((hone _ _ _).append (hone _ _ _)).append (hone _ _ _)).append (hone _ _ _)).append (hone _ _ _)

/-- Every domain is read from its text. -/
theorem reads_json (domain : Domain) (levels : Nat) : Reads decoder (levels + 1) domain.json domain := by
  have hwrites : ∀ row ∈ domain.rows, Writes row.1.2 row.2 := by
    intro row hrow
    obtain ⟨part, -, rfl⟩ := List.mem_map.mp hrow
    exact Json.writes_quote part.2
  obtain ⟨tree, htree, hopen⟩ := Record.exists_open? (names_sublist domain) (by decide) hwrites
  have hjson : domain.json = Json.objectText (domain.rows.map (·.1)) := by
    rw [rows, List.map_map]
    rfl
  refine ⟨tree, hjson ▸ htree, ?_⟩
  rw [decoder, hopen, fields_rows]
  generalize hrecord : Record.mk levels _ = record
  have hname : record.optional? "name" Decoder.string = some domain.name :=
    Record.optional?_eq_some (by simp [← hrecord, List.lookup_append, Record.lookup_toList_map])
      (Decoder.string_codesOf _)
  have hversion : record.optional? "version" Decoder.string = some domain.version :=
    Record.optional?_eq_some (by simp [← hrecord, List.lookup_append, Record.lookup_toList_map])
      (Decoder.string_codesOf _)
  have hchainId : record.optional? "chainId" chainIdDecoder = some domain.chainId :=
    Record.optional?_eq_some (by simp [← hrecord, List.lookup_append, Record.lookup_toList_map])
      (chainIdDecoder_toDecimal _)
  have hcontract : record.optional? "verifyingContract" (Decoder.parsed Address.parse)
      = some domain.verifyingContract :=
    Record.optional?_eq_some (by simp [← hrecord, List.lookup_append, Record.lookup_toList_map])
      fun a => Decoder.parsed_codesOf (Address.parse_checksum a) _
  have hsalt : record.optional? "salt" (Decoder.parsed Word.ofHex) = some domain.salt :=
    Record.optional?_eq_some (by simp [← hrecord, List.lookup_append, Record.lookup_toList_map])
      fun w => Decoder.parsed_codesOf (Word.ofHex_word w) _
  simp only [Option.bind_eq_bind, Option.bind_some, hname, hversion, hchainId, hcontract, hsalt]
  rfl

end Domain

namespace Payload

/-! ### Types -/

/-- The fields of a member with their texts and the trees of these. -/
def memberRows (member : Member) : List ((String × String) × Tree) :=
  [(("name", quote member.name), .string (codesOf member.name)),
    (("type", quote member.type), .string (codesOf member.type))]

theorem reads_memberJson (member : Member) (levels : Nat) :
    Reads memberDecoder (levels + 1) (memberJson member) member := by
  have hnames : ((memberRows member).map (·.1.1)).Sublist ["name", "type"] := List.Sublist.refl _
  have hwrites : ∀ row ∈ memberRows member, Writes row.1.2 row.2 :=
    List.forall_mem_cons.mpr ⟨Json.writes_quote _, List.forall_mem_singleton.mpr (Json.writes_quote _)⟩
  obtain ⟨tree, htree, hopen⟩ := Record.exists_open? hnames (by decide) hwrites
  refine ⟨tree, htree, ?_⟩
  rw [memberDecoder, hopen]
  generalize hrecord : Record.mk levels _ = record
  have hname : record.required? "name" Decoder.string = some member.name :=
    Record.required?_eq_some (by rw [← hrecord]; rfl) (Decoder.string_codesOf _ member.name)
  have htype : record.required? "type" Decoder.string = some member.type :=
    Record.required?_eq_some (by rw [← hrecord]; rfl) (Decoder.string_codesOf _ member.type)
  rw [Option.bind_eq_bind, Option.bind_some, hname, htype]
  rfl

/-- The text of types. -/
def typesJson (types : Schema) : String :=
  Json.objectText (types.map fun declared => (declared.1, Json.listText (declared.2.map memberJson)))

/-- Types in order are read from their text. -/
theorem reads_typesJson {types : Schema} (hsorted : (types.map (·.1)).Pairwise (· < ·)) (levels : Nat) :
    Reads schemaDecoder (levels + 3) (typesJson types) types := by
  have hmembers : ∀ declared ∈ types,
      Reads memberDecoder.list (levels + 2) (Json.listText (declared.2.map memberJson)) declared.2 :=
    fun _ _ => Json.reads_list fun member _ => reads_memberJson member levels
  exact @Json.reads_dictionary _ memberDecoder.list (levels + 2) types
    (fun members => Json.listText (members.map memberJson)) hsorted hmembers

/-! ### Payloads -/

/-- The fields of a payload with their texts and trees of these. -/
def rows (payload : Payload) (types domain message : Tree) : List ((String × String) × Tree) :=
  [(("types", typesJson payload.types), types),
    (("primaryType", quote payload.primaryType), .string (codesOf payload.primaryType)),
    (("domain", payload.domain.json), domain), (("message", payload.message.text), message)]

/-- A payload is read from its text, if its types are in order and its message is read back. -/
theorem reads_json {payload : Payload} {levels : Nat} (hsorted : (payload.types.map (·.1)).Pairwise (· < ·))
    (hmessage : Json.ReadsBack (levels + 3) payload.message) : Reads decoder (levels + 4) payload.json payload := by
  obtain ⟨types, htypes, htypesRead⟩ := reads_typesJson hsorted levels
  obtain ⟨domain, hdomain, hdomainRead⟩ := payload.domain.reads_json (levels + 2)
  obtain ⟨message, hmessage, hmessageRead⟩ := hmessage
  have hnames : ((payload.rows types domain message).map (·.1.1)).Sublist
      ["types", "primaryType", "domain", "message"] := List.Sublist.refl _
  have hwrites : ∀ row ∈ payload.rows types domain message, Writes row.1.2 row.2 :=
    List.forall_mem_cons.mpr ⟨htypes, List.forall_mem_cons.mpr ⟨Json.writes_quote _,
      List.forall_mem_cons.mpr ⟨hdomain, List.forall_mem_singleton.mpr hmessage⟩⟩⟩
  obtain ⟨tree, htree, hopen⟩ := Record.exists_open? hnames (by decide) hwrites
  refine ⟨tree, htree, ?_⟩
  rw [decoder, hopen]
  generalize hrecord : Record.mk (levels + 3) _ = record
  have htypesField : record.required? "types" schemaDecoder = some payload.types := by
    subst hrecord
    exact Record.required?_eq_some rfl htypesRead
  have hprimary : record.required? "primaryType" Decoder.string = some payload.primaryType := by
    subst hrecord
    exact Record.required?_eq_some rfl (Decoder.string_codesOf _ payload.primaryType)
  have hdomainField : record.withDefault? "domain" Domain.empty Domain.decoder = some payload.domain := by
    subst hrecord
    exact Record.withDefault?_eq_some rfl hdomainRead
  have hmessageField : record.withDefault? "message" .null Decoder.value = some payload.message := by
    subst hrecord
    exact Record.withDefault?_eq_some rfl hmessageRead
  simp only [Option.bind_eq_bind, Option.bind_some, htypesField, hprimary, hdomainField, hmessageField]
  rfl

/-- What a payload has for having been read: its types are in order, and its message was read at the level of a
field. -/
theorem parts_of_parse {text : String} {payload : Payload} (h : parse text = .ok payload) :
    (payload.types.map (·.1)).Pairwise (· < ·) ∧ ∃ tree, Tree.value? 126 tree = some payload.message := by
  have hrun : decoder.run? text = some payload := by
    rw [parse] at h
    split at h
    · rename_i read hread
      rw [hread, Except.ok.inj h]
    · cases h
  obtain ⟨tree, -, hdecode⟩ := Option.bind_eq_some_iff.mp hrun
  simp only [decoder, Option.bind_eq_bind, Option.bind_eq_some_iff] at hdecode
  obtain ⟨record, hopen, types, htypes, primary, -, domain, -, message, hmessage, hpayload⟩ := hdecode
  obtain rfl := Option.some.inj hpayload
  have hlevels : record.levels = 126 := (Nat.succ.inj (Record.levels_of_open? hopen)).symm
  obtain ⟨typesTree, -, htypes⟩ := Option.bind_eq_some_iff.mp htypes
  refine ⟨Json.pairwise_of_dictionary htypes, ?_⟩
  rw [Record.withDefault?] at hmessage
  split at hmessage
  · exact ⟨_, hlevels ▸ hmessage⟩
  · exact ⟨.null, by rw [Tree.value?, Option.some.inj hmessage]⟩

/-- **A payload that was read is read again from its text**, and its digest is the same: whatever the spelling of
its chain id, its address and its salt, whichever parts of the domain are there, and whichever are null or
missing. Its message has no floating point number. -/
theorem written_payload_reads_back {text : String} {payload : Payload} (h : parse text = .ok payload)
    (hfloat : payload.message.hasFloat = false) :
    ∃ back, parse payload.json = .ok back ∧ back = payload ∧ back.digest = payload.digest := by
  obtain ⟨hsorted, tree, hmessage⟩ := parts_of_parse h
  have hreads : Reads decoder (123 + 4) payload.json payload :=
    reads_json hsorted (Json.readsBack_of_value? hmessage hfloat)
  have hparse : parse payload.json = .ok payload := by
    rw [parse, hreads.run?]
  exact ⟨payload, hparse, rfl, rfl⟩

/-- A payload with a blank, whose domain has a null name, a chain id in hexadecimal and an address without a
checksum. -/
def respelled : String :=
  "\x7b\"types\":\x7b\x7d,\"primaryType\":\"T\", \"domain\":\x7b\"name\":null,\"chainId\":\"0x0A\"," ++
    "\"verifyingContract\":\"cd2a3d9f938e13cd947ec05abc7fe734df8dd826\"\x7d,\"message\":[-5]\x7d"

/-- The text that the payload is written as. -/
def rewritten : String :=
  "\x7b\"types\":\x7b\x7d,\"primaryType\":\"T\",\"domain\":\x7b\"chainId\":\"10\"," ++
    "\"verifyingContract\":\"0xCD2a3d9F938E13CD947Ec05AbC7FE734Df8DD826\"\x7d,\"message\":[-5]\x7d"

theorem respelled_payload_reads_back :
    ∃ payload, parse respelled = .ok payload ∧ payload.json = rewritten ∧ payload.message.hasFloat = false ∧
      ∃ back, parse payload.json = .ok back ∧ back = payload ∧ back.digest = payload.digest := by
  have hread : (parse respelled).toOption.map (fun payload => (payload.json, payload.message.hasFloat))
      = some (rewritten, false) := by decide +kernel
  cases hparse : parse respelled with
  | error cause =>
    rw [hparse] at hread
    cases hread
  | ok payload =>
    rw [hparse] at hread
    obtain ⟨hjson, hfloat⟩ := Prod.mk.inj (Option.some.inj hread)
    exact ⟨payload, rfl, hjson, hfloat, written_payload_reads_back hparse hfloat⟩

end Payload

end TypedData
end EthWire
