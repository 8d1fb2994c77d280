/-
# Values that are read are of their types

Which values belong to a type is said without the writer and without the reader (`Abi.Value.HasKind`):
integers fit their width, fixed strings have their size, arrays of fixed length have that many elements,
and the members of a tuple are of the types of its members, one by one. The writer accepts exactly these
values, if it can count their heads (`Abi.exists_encodeValue_iff`).

The reader takes far more than the writer gives. Offsets may point to the same octets twice or run
backwards, gaps and trailing octets are passed over, and padding is not looked at. Whatever the data
were, each value of a sequence has been read by the reader of its type from some octets
(`Abi.exists_read_of_readSlots`), and that is all that the induction on the type needs
(`Abi.read_induction`). So what was read can be written, and what is written then
is laid out as this library would, and is read as the same values.

The other way round, what was written is read as the same values unless there is an empty list in them whose
elements cannot be counted (`Abi.encoded_values_read_back_iff`): no such list is ever read.

A parameter list is written and read as the tuple of its values would be, so a fact about the values of
tuples is one about parameter lists.

Key definitions: `Abi.Value.HasKind`.
Key theorems: `Abi.exists_encodeValue_iff`, `Abi.read_induction`, `Abi.hasKind_of_decodeValue`,
`Abi.decode_append_of_encode`, `Abi.encoded_values_read_back_iff`, `Abi.read_values_are_well_typed`.
-/
import EthWire.Proofs.Abi.CanonicalText
import EthWire.Proofs.Abi.RoundTrip

namespace EthWire
namespace Abi

/-! ### The values of a type -/

/-- Whether a value is one of a type. -/
inductive Value.HasKind : Value → Kind → Prop where
  | uint {word : Word} {bits : Nat} (fits : fitsUint word bits = true) : HasKind (.uint word) (.uint bits)
  | int {word : Word} {bits : Nat} (fits : fitsInt word bits = true) : HasKind (.int word) (.int bits)
  | address (address : Address) : HasKind (.address address) .address
  | bool (flag : Bool) : HasKind (.bool flag) .bool
  | fixedBytes {content : Bytes} {size : Nat} (pos : 0 < size) (le : size ≤ 32)
      (length : content.length = size) : HasKind (.fixedBytes content) (.fixedBytes size)
  | bytes (content : Bytes) : HasKind (.bytes content) .bytes
  | string (content : String) : HasKind (.string content) .string
  | array {items : List Value} {elem : Kind} (each : ∀ item ∈ items, HasKind item elem) :
      HasKind (.array items) (.array elem)
  | fixedArray {items : List Value} {elem : Kind} {length : Nat} (count : items.length = length)
      (each : ∀ item ∈ items, HasKind item elem) : HasKind (.fixedArray items) (.fixedArray elem length)
  | tuple {items : List Value} {members : List Kind} (count : items.length = members.length)
      (each : ∀ pair ∈ items.zip members, HasKind pair.1 pair.2) : HasKind (.tuple items) (.tuple members)

theorem Value.hasKind_tuple_iff {items : List Value} {members : List Kind} :
    HasKind (.tuple items) (.tuple members) ↔
      items.length = members.length ∧ ∀ pair ∈ items.zip members, pair.1.HasKind pair.2 := by
  constructor
  · intro h
    cases h with
    | tuple count each => exact ⟨count, each⟩
  · rintro ⟨count, each⟩
    exact .tuple count each

/-! ### The writer accepts the values of a type -/

theorem exists_encodeParts_iff : ∀ {values : List Value} {kinds : List Kind},
    (∃ parts, encodeParts kinds values = .ok parts) ↔
      ∀ pair ∈ values.zip kinds, ∃ body, encodeValue pair.2 pair.1 = .ok body
  | [], [] => by simp [encodeParts]
  | [], _ :: _ => by simp [encodeParts]
  | _ :: _, [] => by simp [encodeParts]
  | value :: values, kind :: kinds => by
    rw [List.zip_cons_cons, List.forall_mem_cons, ← exists_encodeParts_iff]
    simp only [encodeParts_cons_eq_ok_iff]
    constructor
    · rintro ⟨_, body, others, hbody, hothers, rfl⟩
      exact ⟨⟨body, hbody⟩, others, hothers⟩
    · rintro ⟨⟨body, hbody⟩, others, hothers⟩
      exact ⟨_, body, others, hbody, hothers, rfl⟩

theorem exists_encodeParts_replicate_iff {items : List Value} {elem : Kind} :
    (∃ parts, encodeParts (List.replicate items.length elem) items = .ok parts) ↔
      ∀ item ∈ items, ∃ body, encodeValue elem item = .ok body :=
  exists_encodeParts_iff.trans forall_mem_zip_replicate_iff

theorem exists_encodeValue_of_hasKind {value : Value} {kind : Kind} (h : value.HasKind kind)
    (hheads : value.HeadsCounted kind) : ∃ body, encodeValue kind value = .ok body := by
  induction h with
  | uint fits => exact ⟨_, map_eq_ok_iff.mpr ⟨_, checkedInteger_eq_ok_iff.mpr ⟨fits, rfl⟩, rfl⟩⟩
  | int fits => exact ⟨_, map_eq_ok_iff.mpr ⟨_, checkedInteger_eq_ok_iff.mpr ⟨fits, rfl⟩, rfl⟩⟩
  | address _ => exact ⟨_, rfl⟩
  | bool _ => exact ⟨_, rfl⟩
  | fixedBytes pos le length =>
    exact ⟨_, map_eq_ok_iff.mpr ⟨_, checkedFixedBytes_eq_ok_iff.mpr ⟨pos, le, length, rfl⟩, rfl⟩⟩
  | bytes _ => exact ⟨_, rfl⟩
  | string _ => exact ⟨_, rfl⟩
  | array _ ih =>
    cases hheads with
    | elementary kind_eq => cases kind_eq
    | array counted each =>
      obtain ⟨parts, hparts⟩ := exists_encodeParts_replicate_iff.mpr fun item hitem => ih item hitem (each item hitem)
      exact ⟨_, encodeValue_array_eq_ok_iff.mpr ⟨counted, parts, hparts, rfl⟩⟩
  | fixedArray count _ ih =>
    cases hheads with
    | elementary kind_eq => cases kind_eq
    | fixedArray counted each =>
      obtain ⟨parts, hparts⟩ := exists_encodeParts_replicate_iff.mpr fun item hitem => ih item hitem (each item hitem)
      exact ⟨_, encodeValue_fixedArray_eq_ok_iff.mpr ⟨count, counted, parts, hparts, rfl⟩⟩
  | tuple count _ ih =>
    cases hheads with
    | elementary kind_eq => cases kind_eq
    | tuple counted each =>
      obtain ⟨parts, hparts⟩ := exists_encodeParts_iff.mpr fun pair hpair => ih pair hpair (each pair hpair)
      exact ⟨_, encodeValue_tuple_eq_ok_iff.mpr ⟨count, counted, parts, hparts, rfl⟩⟩

mutual

theorem hasKind_of_encodeValue : ∀ {value : Value} {kind : Kind} {body : Bytes},
    encodeValue kind value = .ok body → value.HasKind kind
  | .uint word, kind, body, h => by
    cases kind <;> simp only [encodeValue, reduceCtorEq] at h
    obtain ⟨_, hword, -⟩ := map_eq_ok_iff.mp h
    exact .uint (checkedInteger_eq_ok_iff.mp hword).1
  | .int word, kind, body, h => by
    cases kind <;> simp only [encodeValue, reduceCtorEq] at h
    obtain ⟨_, hword, -⟩ := map_eq_ok_iff.mp h
    exact .int (checkedInteger_eq_ok_iff.mp hword).1
  | .address address, kind, body, h => by
    cases kind <;> simp only [encodeValue, reduceCtorEq] at h
    exact .address address
  | .bool flag, kind, body, h => by
    cases kind <;> simp only [encodeValue, reduceCtorEq] at h
    exact .bool flag
  | .fixedBytes content, kind, body, h => by
    cases kind <;> simp only [encodeValue, reduceCtorEq] at h
    obtain ⟨_, hcontent, -⟩ := map_eq_ok_iff.mp h
    obtain ⟨hpos, hle, hlength, -⟩ := checkedFixedBytes_eq_ok_iff.mp hcontent
    exact .fixedBytes hpos hle hlength
  | .bytes content, kind, body, h => by
    cases kind <;> simp only [encodeValue, reduceCtorEq] at h
    exact .bytes content
  | .string content, kind, body, h => by
    cases kind <;> simp only [encodeValue, reduceCtorEq] at h
    exact .string content
  | .array items, kind, body, h => by
    cases kind <;> simp only [encodeValue, reduceCtorEq] at h
    obtain ⟨-, parts, hparts, -⟩ := encodeValue_array_eq_ok_iff.mp h
    exact .array (forall_mem_zip_replicate_iff.mp (hasKind_of_encodeParts hparts))
  | .fixedArray items, kind, body, h => by
    cases kind <;> simp only [encodeValue, reduceCtorEq] at h
    obtain ⟨hcount, -, parts, hparts, -⟩ := encodeValue_fixedArray_eq_ok_iff.mp h
    exact .fixedArray hcount (forall_mem_zip_replicate_iff.mp (hasKind_of_encodeParts hparts))
  | .tuple items, kind, body, h => by
    cases kind <;> simp only [encodeValue, reduceCtorEq] at h
    obtain ⟨hcount, -, parts, hparts, -⟩ := encodeValue_tuple_eq_ok_iff.mp h
    exact .tuple hcount (hasKind_of_encodeParts hparts)

theorem hasKind_of_encodeParts : ∀ {values : List Value} {kinds : List Kind} {parts : List Part},
    encodeParts kinds values = .ok parts → ∀ pair ∈ values.zip kinds, pair.1.HasKind pair.2
  | [], _, _, _ => by simp
  | _ :: _, [], _, _ => by simp
  | value :: values, kind :: kinds, parts, h => by
    obtain ⟨body, others, hbody, hothers, -⟩ := encodeParts_cons_eq_ok_iff.mp h
    rw [List.zip_cons_cons, List.forall_mem_cons]
    exact ⟨hasKind_of_encodeValue hbody, hasKind_of_encodeParts hothers⟩

end

theorem headsCounted_of_encodeValue {value : Value} {kind : Kind} {body : Bytes}
    (h : encodeValue kind value = .ok body) : value.HeadsCounted kind := by
  have hkind := hasKind_of_encodeValue h
  induction hkind generalizing body with
  | array _ ih =>
    obtain ⟨counted, parts, hparts, -⟩ := encodeValue_array_eq_ok_iff.mp h
    refine .array counted fun item hitem => ?_
    obtain ⟨inside, hinside⟩ := exists_encodeParts_replicate_iff.mp ⟨parts, hparts⟩ item hitem
    exact ih item hitem hinside
  | fixedArray _ _ ih =>
    obtain ⟨-, counted, parts, hparts, -⟩ := encodeValue_fixedArray_eq_ok_iff.mp h
    refine .fixedArray counted fun item hitem => ?_
    obtain ⟨inside, hinside⟩ := exists_encodeParts_replicate_iff.mp ⟨parts, hparts⟩ item hitem
    exact ih item hitem hinside
  | tuple _ _ ih =>
    obtain ⟨-, counted, parts, hparts, -⟩ := encodeValue_tuple_eq_ok_iff.mp h
    refine .tuple counted fun pair hpair => ?_
    obtain ⟨inside, hinside⟩ := exists_encodeParts_iff.mp ⟨parts, hparts⟩ pair hpair
    exact ih pair hpair hinside
  | _ => exact .elementary rfl

/-- The writer accepts exactly the values of a type whose heads can be counted. -/
theorem exists_encodeValue_iff {value : Value} {kind : Kind} :
    (∃ body, encodeValue kind value = .ok body) ↔ value.HasKind kind ∧ value.HeadsCounted kind := by
  constructor
  · rintro ⟨body, hbody⟩
    exact ⟨hasKind_of_encodeValue hbody, headsCounted_of_encodeValue hbody⟩
  · rintro ⟨hkind, hheads⟩
    exact exists_encodeValue_of_hasKind hkind hheads

/-! ### The reader gives the values of a type -/

/-- What is read at a place of a sequence was read by the slot there, wherever its octets stand. -/
theorem exists_read_of_readSlot {slot : Slot} {region : Bytes} {pos : Nat} {value : Value}
    (h : readSlot slot region pos = .ok value) : ∃ octets, slot.read octets = .ok value := by
  rw [readSlot] at h
  split at h
  · obtain ⟨offset, -, hread⟩ := bind_eq_ok_iff.mp h
    split at hread
    · exact ⟨_, hread⟩
    · exact absurd hread throw_ne_ok
  · exact ⟨_, h⟩

/-- The values of a sequence are as many as its slots, and each was read by its slot. -/
theorem exists_read_of_readSlots {region : Bytes} : ∀ {slots : List Slot} {pos : Nat} {values : List Value},
    readSlots region pos slots = .ok values →
      values.length = slots.length ∧
        ∀ pair ∈ values.zip slots, ∃ octets, pair.2.read octets = .ok pair.1
  | [], pos, values, h => by
    rw [readSlots, Except.ok.injEq] at h
    subst h
    simp
  | slot :: slots, pos, values, h => by
    rw [readSlots] at h
    simp only [bind_eq_ok_iff, pure_eq_ok_iff] at h
    obtain ⟨value, hvalue, others, hothers, rfl⟩ := h
    obtain ⟨hlength, hread⟩ := exists_read_of_readSlots hothers
    rw [List.length_cons, List.length_cons, hlength, List.zip_cons_cons, List.forall_mem_cons]
    exact ⟨rfl, exists_read_of_readSlot hvalue, hread⟩

theorem exists_read_of_readSlots_replicate {region : Bytes} {slot : Slot} {n pos : Nat} {items : List Value}
    (h : readSlots region pos (List.replicate n slot) = .ok items) :
    items.length = n ∧ ∀ item ∈ items, ∃ octets, slot.read octets = .ok item := by
  obtain ⟨hlength, hread⟩ := exists_read_of_readSlots h
  rw [List.length_replicate] at hlength
  rw [← hlength] at hread
  exact ⟨hlength, forall_mem_zip_replicate_iff.mp hread⟩

theorem length_slots : ∀ kinds : List Kind, (slots kinds).length = kinds.length
  | [] => by simp [slots]
  | kind :: kinds => by rw [slots, List.length_cons, List.length_cons, length_slots kinds]

theorem checkRange_eq_ok_iff {kind : Kind} {inRange : Bool} {value value' : Value} :
    checkRange kind inRange value = .ok value' ↔ inRange = true ∧ value = value' := by
  rw [checkRange, ite_ok_eq_ok_iff, Except.ok.injEq]

/-- What the reader of an elementary type gives is one of its values, from whatever octets. -/
theorem hasKind_of_decodeValue_elementary {kind : Kind} {octets : Bytes} {value : Value}
    (hkind : kind.isSequence = false) (h : decodeValue kind octets = .ok value) : value.HasKind kind := by
  cases kind with
  | uint bits =>
    rw [decodeValue] at h
    obtain ⟨word, -, hrange⟩ := bind_eq_ok_iff.mp h
    obtain ⟨hfits, rfl⟩ := checkRange_eq_ok_iff.mp hrange
    exact .uint hfits
  | int bits =>
    rw [decodeValue] at h
    obtain ⟨word, -, hrange⟩ := bind_eq_ok_iff.mp h
    obtain ⟨hfits, rfl⟩ := checkRange_eq_ok_iff.mp hrange
    exact .int hfits
  | address =>
    rw [decodeValue] at h
    obtain ⟨word, -, haddress⟩ := bind_eq_ok_iff.mp h
    split at haddress
    · obtain rfl := pure_eq_ok_iff.mp haddress
      exact .address _
    · exact absurd haddress throw_ne_ok
  | bool =>
    rw [decodeValue] at h
    obtain ⟨word, -, hrange⟩ := bind_eq_ok_iff.mp h
    obtain ⟨-, rfl⟩ := checkRange_eq_ok_iff.mp hrange
    exact .bool _
  | fixedBytes size =>
    rw [decodeValue] at h
    simp only [guard_eq_ok_iff, bind_eq_ok_iff, pure_eq_ok_iff] at h
    obtain ⟨hsize, word, -, rfl⟩ := h
    have hpos : 0 < size := by omega
    have hle : size ≤ 32 := by omega
    have hlength : (word.toBytes.take size).length = size := by
      rw [List.length_take, Word.length_toBytes, Nat.min_eq_left hle]
    exact .fixedBytes hpos hle hlength
  | bytes =>
    rw [decodeValue] at h
    obtain ⟨content, -, rfl⟩ := map_eq_ok_iff.mp h
    exact .bytes content
  | string =>
    rw [decodeValue] at h
    obtain ⟨content, -, htext⟩ := bind_eq_ok_iff.mp h
    split at htext
    · obtain rfl := pure_eq_ok_iff.mp htext
      exact .string _
    · exact absurd htext throw_ne_ok
  | array elem => cases hkind
  | fixedArray elem length => cases hkind
  | tuple members => cases hkind

theorem exists_decodeValue_of_read_slots : ∀ {kinds : List Kind} {values : List Value},
    (∀ pair ∈ values.zip (slots kinds), ∃ octets, pair.2.read octets = .ok pair.1) →
      ∀ pair ∈ values.zip kinds, ∃ octets, decodeValue pair.2 octets = .ok pair.1
  | [], _, _ => by simp
  | _ :: _, [], _ => by simp
  | kind :: kinds, value :: values, h => by
    rw [slots, List.zip_cons_cons, List.forall_mem_cons] at h
    rw [List.zip_cons_cons, List.forall_mem_cons]
    exact ⟨h.1, exists_decodeValue_of_read_slots h.2⟩

section

variable {motive : Value → Kind → Prop}
  (elementary : ∀ {value kind octets}, kind.isSequence = false → decodeValue kind octets = .ok value →
    motive value kind)
  (array : ∀ {items elem}, elem.isCounted = true → (∀ item ∈ items, motive item elem) →
    motive (.array items) (.array elem))
  (fixedArray : ∀ {items elem length}, items.length = length → (items ≠ [] → elem.isCounted = true) →
    (∀ item ∈ items, motive item elem) → motive (.fixedArray items) (.fixedArray elem length))
  (tuple : ∀ {items members}, items.length = members.length → Kind.allCounted members = true →
    (∀ pair ∈ items.zip members, motive pair.1 pair.2) → motive (.tuple items) (.tuple members))
include elementary array fixedArray tuple

/-- **Induction along the reader**: a property of elementary values that passes from the values of a sequence to
the sequence, its head being counted, is one of all values that are read. -/
theorem read_induction : ∀ {kind : Kind} {octets : Bytes} {value : Value},
    decodeValue kind octets = .ok value → motive value kind
  | .array elem, octets, value, h => by
    obtain ⟨_, -, hcounted, -, -, items, hitems, rfl⟩ := decodeValue_array_eq_ok_iff.mp h
    obtain ⟨-, hread⟩ := exists_read_of_readSlots_replicate hitems
    refine array hcounted fun item hitem => ?_
    obtain ⟨inside, hinside⟩ := hread item hitem
    exact read_induction hinside
  | .fixedArray elem length, octets, value, h => by
    obtain ⟨hcounted, -, items, hitems, rfl⟩ := decodeValue_fixedArray_eq_ok_iff.mp h
    obtain ⟨hcount, hread⟩ := exists_read_of_readSlots_replicate hitems
    have hlength : items ≠ [] → length ≠ 0 := by
      rw [← hcount]
      exact fun hne => hne ∘ List.length_eq_zero_iff.mp
    refine fixedArray hcount (hcounted ∘ hlength) fun item hitem => ?_
    obtain ⟨inside, hinside⟩ := hread item hitem
    exact read_induction hinside
  | .tuple members, octets, value, h => by
    obtain ⟨hcounted, -, items, hitems, rfl⟩ := decodeValue_tuple_eq_ok_iff.mp h
    obtain ⟨hcount, hread⟩ := exists_read_of_readSlots hitems
    rw [length_slots] at hcount
    refine tuple hcount hcounted fun pair hpair => ?_
    have hmember : pair.2 ∈ members := (List.of_mem_zip hpair).2
    obtain ⟨inside, hinside⟩ := exists_decodeValue_of_read_slots hread pair hpair
    exact read_induction hinside
  | .uint _, _, _, h | .int _, _, _, h | .address, _, _, h | .bool, _, _, h | .fixedBytes _, _, _, h
  | .bytes, _, _, h | .string, _, _, h => elementary rfl h
termination_by kind => kind
decreasing_by
  · simp only [Kind.array.sizeOf_spec]
    omega
  · simp only [Kind.fixedArray.sizeOf_spec]
    omega
  · have hlt := List.sizeOf_lt_of_mem hmember
    simp only [Kind.tuple.sizeOf_spec]
    omega

end

theorem hasKind_of_decodeValue {kind : Kind} {octets : Bytes} {value : Value}
    (h : decodeValue kind octets = .ok value) : value.HasKind kind :=
  read_induction hasKind_of_decodeValue_elementary (fun _ => .array) (fun hcount _ => .fixedArray hcount)
    (fun hcount _ => .tuple hcount) h

theorem headsCounted_of_decodeValue {kind : Kind} {octets : Bytes} {value : Value}
    (h : decodeValue kind octets = .ok value) : value.HeadsCounted kind :=
  read_induction (fun hkind _ => .elementary hkind) (fun hcounted => .array fun _ => hcounted)
    (fun _ => .fixedArray) (fun _ => .tuple) h

/-- The reader counts the elements also of an empty list. -/
theorem not_hasUncountedList_of_decodeValue {kind : Kind} {octets : Bytes} {value : Value}
    (h : decodeValue kind octets = .ok value) : ¬ value.HasUncountedList kind := by
  refine read_induction (motive := fun value kind => ¬ value.HasUncountedList kind)
    ?elementary ?array ?fixedArray ?tuple h
  case elementary => exact fun hkind _ => Value.not_hasUncountedList_of_elementary hkind _
  case array => exact fun hcounted heach => Value.not_hasUncountedList_array_iff.mpr ⟨fun _ => hcounted, heach⟩
  case fixedArray => exact fun _ _ heach => Value.not_hasUncountedList_fixedArray_iff.mpr heach
  case tuple => exact fun _ _ heach => Value.not_hasUncountedList_tuple_iff.mpr heach

theorem Value.HasKind.headsCounted {value : Value} {kind : Kind} (h : value.HasKind kind)
    (hkind : kind.isCountedThroughout = true) : value.HeadsCounted kind := by
  induction h with
  | array _ ih =>
    rw [Kind.isCountedThroughout, Bool.and_eq_true] at hkind
    exact .array (fun _ => hkind.1) fun item hitem => ih item hitem hkind.2
  | fixedArray _ _ ih =>
    rw [Kind.isCountedThroughout, Bool.and_eq_true] at hkind
    exact .fixedArray (fun _ => hkind.1) fun item hitem => ih item hitem hkind.2
  | tuple _ _ ih =>
    rw [Kind.isCountedThroughout, Bool.and_eq_true, Kind.allCountedThroughout_iff] at hkind
    exact .tuple hkind.1 fun pair hpair => ih pair hpair (hkind.2 _ (List.of_mem_zip hpair).2)
  | _ => exact .elementary rfl

/-! ### Parameter lists are tuples -/

section

variable {kinds : List Kind} {values : List Value} {data : Bytes}

theorem encode_eq_ok_iff :
    encode kinds values = .ok data ↔ encodeValue (.tuple kinds) (.tuple values) = .ok data := by
  rw [encode, encodeValue]
  simp only [guard_eq_ok_iff, ne_eq, Decidable.not_not, bind_eq_ok_iff]
  rw [eq_comm]

/-- A parameter list is read as the tuple of its values, except that the empty list is not read at all
and that any other is not read from no octets. -/
theorem decode_eq_ok_iff :
    decode kinds data = .ok values ↔
      (kinds = [] ∧ values = []) ∨
      (kinds ≠ [] ∧ data ≠ [] ∧ decodeValue (.tuple kinds) data = .ok (.tuple values)) := by
  by_cases hkinds : kinds = []
  · subst hkinds
    rw [decode, if_pos List.isEmpty_nil, Except.ok.injEq]
    simp [eq_comm]
  · by_cases hdata : data = []
    · subst hdata
      rw [decode, if_neg (by simpa using hkinds), if_pos List.isEmpty_nil]
      simp [hkinds]
    · rw [decode, if_neg (by simpa using hkinds), if_neg (by simpa using hdata), check_bind_eq_ok_iff,
        checkHead_eq_ok_iff, and_assoc, decodeValue_tuple_eq_ok_iff]
      simp [hkinds, hdata]

theorem exists_encode_iff :
    (∃ data, encode kinds values = .ok data) ↔
      (Value.tuple values).HasKind (.tuple kinds) ∧ (Value.tuple values).HeadsCounted (.tuple kinds) := by
  simp only [encode_eq_ok_iff, exists_encodeValue_iff]

theorem hasKind_of_decode (h : decode kinds data = .ok values) :
    (Value.tuple values).HasKind (.tuple kinds) := by
  rcases decode_eq_ok_iff.mp h with ⟨rfl, rfl⟩ | ⟨-, -, hread⟩
  · exact .tuple rfl (by simp)
  · exact hasKind_of_decodeValue hread

theorem exists_encode_of_decode (h : decode kinds data = .ok values) :
    ∃ written, encode kinds values = .ok written := by
  refine exists_encode_iff.mpr ⟨hasKind_of_decode h, ?_⟩
  rcases decode_eq_ok_iff.mp h with ⟨rfl, rfl⟩ | ⟨-, -, hread⟩
  · exact .tuple rfl (by simp)
  · exact headsCounted_of_decodeValue hread

theorem listsCounted_of_decode (h : decode kinds data = .ok values) : ListsCounted kinds values := by
  rcases decode_eq_ok_iff.mp h with ⟨rfl, rfl⟩ | ⟨-, -, hread⟩
  · simp [ListsCounted]
  · exact Value.not_hasUncountedList_tuple_iff.mp (not_hasUncountedList_of_decodeValue hread)

theorem decode_append_of_encode (hk : ∀ kind ∈ kinds, kind.noEmpty = true) (hlen : data.length < 2 ^ 64)
    (h : encode kinds values = .ok data) (hlists : ListsCounted kinds values) (rest : Bytes) :
    decode kinds (data ++ rest) = .ok values := by
  by_cases hne : kinds = []
  · have hvalues := hasKind_of_encodeValue (encode_eq_ok_iff.mp h)
    subst hne
    obtain ⟨hcount, -⟩ := Value.hasKind_tuple_iff.mp hvalues
    exact decode_eq_ok_iff.mpr (.inl ⟨rfl, List.length_eq_zero_iff.mp hcount⟩)
  · have htuple : (Kind.tuple kinds).noEmpty = true := by
      rw [Kind.noEmpty, Bool.and_eq_true, Kind.allNoEmpty_iff]
      exact ⟨by simpa using hne, hk⟩
    have hgives := gives_of_encodeValue (.tuple values) (.tuple kinds) data htuple
      (Value.not_hasUncountedList_tuple_iff.mpr hlists) (encode_eq_ok_iff.mp h) hlen
    have hdata : data ++ rest ≠ [] := List.append_ne_nil_of_left_ne_nil hgives.body_ne_nil rest
    exact decode_eq_ok_iff.mpr (.inr ⟨hne, hdata, hgives.read rest⟩)

/-- What is written is read back exactly if no list in it is empty and cannot be counted. -/
theorem decode_iff_of_encode (hk : ∀ kind ∈ kinds, kind.noEmpty = true) (hlen : data.length < 2 ^ 64)
    (h : encode kinds values = .ok data) :
    decode kinds data = .ok values ↔ ListsCounted kinds values := by
  refine ⟨listsCounted_of_decode, fun hlists => ?_⟩
  have hread := decode_append_of_encode hk hlen h hlists []
  rwa [List.append_nil] at hread

theorem decode_of_encode (hk : ∀ kind ∈ kinds, kind.noEmpty = true)
    (hcounted : ∀ kind ∈ kinds, kind.isCountedThroughout = true) (hlen : data.length < 2 ^ 64)
    (h : encode kinds values = .ok data) : decode kinds data = .ok values :=
  (decode_iff_of_encode hk hlen h).mpr (listsCounted_of_countedThroughout hcounted values)

end

/-- **Encoded values are read back**, whatever follows them, unless there is an empty list among them whose
elements cannot be counted. No type has to be of a width that its reader would admit: a value that was written
fits its type. -/
theorem encoded_values_read_back_iff {kinds : List Kind} {values : List Value} {data : Bytes}
    (hk : ∀ kind ∈ kinds, kind.noEmpty = true) (hlen : data.length < 2 ^ 64)
    (h : encode kinds values = .ok data) (junk : Bytes) :
    decode kinds (data ++ junk) = .ok values ↔ ListsCounted kinds values :=
  ⟨listsCounted_of_decode, fun hlists => decode_append_of_encode hk hlen h hlists junk⟩

-- An empty part has no place that its offset could point to.
example : encode [.fixedArray .bytes 0] [.fixedArray []] = .ok (countWord 32) ∧
    decode [.fixedArray .bytes 0] (countWord 32) = .error (.abiOffset 32 32) :=
  ⟨rfl, rfl⟩

/-- A list of pairs of a text and a number, two signed numbers and two lists of octet strings, one of them
empty. -/
theorem nested_sequences_read_back :
    let kinds : List Kind :=
      [.array (.tuple [.string, .uint 8]), .fixedArray (.int 16) 2, .fixedArray (.array .bytes) 2]
    let values : List Value :=
      [.array [.tuple [.string "one", .uint 7], .tuple [.string "", .uint 255]],
        .fixedArray [.ofInt (-1), .ofInt 32767], .fixedArray [.array [], .array [.bytes [0x01]]]]
    ∃ data : Bytes, encode kinds values = .ok data ∧ data.length < 2 ^ 64 ∧
      decode kinds (data ++ [0xff]) = .ok values := by
  intro kinds values
  obtain ⟨data, h, hlen⟩ : ∃ data, encode kinds values = .ok data ∧ data.length < 2 ^ 64 :=
    ⟨_, rfl, by decide +kernel⟩
  have hlists : ListsCounted kinds values := listsCounted_of_countedThroughout (by decide) values
  exact ⟨data, h, hlen, (encoded_values_read_back_iff (by decide) hlen h [0xff]).mpr hlists⟩

/-- Pairs of as many octets as can be counted and a flag: their head sizes add up to more. -/
def uncountedPair : Kind :=
  .tuple [.fixedArray (.uint 8) maxCount, .bool]

theorem isAdmitted_uncountedPair : uncountedPair.IsAdmitted :=
  .tuple (List.forall_mem_cons.mpr
    ⟨.fixedArray (.uint ⟨by decide, by decide, by decide⟩) (Nat.le_refl _), List.forall_mem_singleton.mpr .bool⟩)

/-- A list without such pairs is written, its offset and its length, and not read. -/
theorem empty_list_of_uncounted_pairs_is_not_read :
    (∀ kind ∈ [Kind.array uncountedPair], kind.IsAdmitted ∧ kind.noEmpty = true) ∧
      encode [.array uncountedPair] [.array []] = .ok (countWord 32 ++ countWord 0) ∧
      (countWord 32 ++ countWord 0).length = 64 ∧
      decode [.array uncountedPair] (countWord 32 ++ countWord 0) = .error .abiHeadSum :=
  ⟨List.forall_mem_singleton.mpr ⟨.array isAdmitted_uncountedPair, rfl⟩, rfl, rfl, rfl⟩

/-- **Values that are read are of their types, and written anew they are read as the same values**,
however the data were laid out. They can be written, and unless a type has arrays of length zero or tuples
without members, what is written is read as the values again. Octet strings are shorter than 2^64. -/
theorem read_values_are_well_typed {kinds : List Kind} {data : Bytes} {values : List Value}
    (h : decode kinds data = .ok values) :
    (Value.tuple values).HasKind (.tuple kinds) ∧
      ∃ written, encode kinds values = .ok written ∧
        ((∀ kind ∈ kinds, kind.noEmpty = true) → written.length < 2 ^ 64 →
          decode kinds written = .ok values) := by
  obtain ⟨written, hwritten⟩ := exists_encode_of_decode h
  refine ⟨hasKind_of_decode h, written, hwritten, ?_⟩
  intro hk hlen
  exact (decode_iff_of_encode hk hlen hwritten).mpr (listsCounted_of_decode h)

/-- Data that no writer would give: a text and a list share their octets, the offset of the octets in
front of them points back, padding is not zero, and one octet is too many. -/
def sharedOctets : Bytes :=
  let dirty : Bytes := List.replicate 29 0xee
  countWord 192 ++ countWord 192 ++ countWord 128 ++ ([0x61, 0x62, 0x63] ++ dirty) ++
    countWord 3 ++ ([0x01, 0x02, 0x03] ++ dirty) ++ countWord 1 ++ countWord 7 ++ [0xff]

theorem decode_sharedOctets :
    decode [.string, .array (.uint 8), .bytes, .fixedBytes 3] sharedOctets = .ok
      [.string "\x00", .array [.uint 7], .bytes [0x01, 0x02, 0x03], .fixedBytes [0x61, 0x62, 0x63]] := by
  rfl

/-- What is written anew is longer than the data, and is read alike. -/
theorem shared_octets_are_written_apart :
    let kinds : List Kind := [.string, .array (.uint 8), .bytes, .fixedBytes 3]
    let values : List Value :=
      [.string "\x00", .array [.uint 7], .bytes [0x01, 0x02, 0x03], .fixedBytes [0x61, 0x62, 0x63]]
    decode kinds sharedOctets = .ok values ∧ sharedOctets.length = 257 ∧
      ∃ written, encode kinds values = .ok written ∧ written.length = 320 ∧
        decode kinds written = .ok values := by
  intro kinds values
  obtain ⟨-, written, hwritten, hback⟩ := read_values_are_well_typed decode_sharedOctets
  have hlength : written.length = 320 := by
    obtain ⟨octets, hoctets, hlen⟩ : ∃ octets, encode kinds values = .ok octets ∧ octets.length = 320 :=
      ⟨_, rfl, by decide +kernel⟩
    rw [hoctets, Except.ok.injEq] at hwritten
    rw [← hwritten, hlen]
  exact ⟨decode_sharedOctets, by decide +kernel, written, hwritten, hlength,
    hback (by decide) (by omega)⟩

end Abi
end EthWire
