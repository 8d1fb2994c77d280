/-
# Written values are parts that their slots read

What a value is written as is read as that value, also in front of other octets, for all types without
arrays of length zero and tuples without members: such a part takes no octets, and neither a count of
elements nor an offset could be told from one too many. Nor must there be an empty list in the value whose
elements cannot be counted, since the reader counts them first.

The induction is on the value, along the writer: each value is a part that its slot reads
(`gives_of_encodeValue`), and the parts of a sequence make a layout that is read
(`Abi.readSlots_layout`). Elementary values are words or strings behind their length; arrays and tuples
are sequences, and a static sequence counts in the head of the next one for what it takes there, because
below 2^64 octets the head size of an array is not cut off.

Key definitions: `Abi.Kind.noEmpty`.
Key theorems: `Abi.gives_of_encodeValue`, `Abi.allGive_of_encodeParts`.
-/
import EthWire.Proofs.Abi.Layout
import EthWire.Proofs.Abi.Sequences
import EthWire.Proofs.Rlp.Conventions

namespace EthWire
namespace Abi

namespace Kind

mutual

/-- Whether no array of length zero and no tuple without members occurs in the type. -/
def noEmpty : Kind → Bool
  | .array elem => elem.noEmpty
  | .fixedArray elem length => length != 0 && elem.noEmpty
  | .tuple members => !members.isEmpty && allNoEmpty members
  | _ => true

/-- Whether this holds of all the types. -/
def allNoEmpty : List Kind → Bool
  | [] => true
  | kind :: kinds => kind.noEmpty && allNoEmpty kinds

end

theorem allNoEmpty_iff : ∀ {kinds : List Kind},
    allNoEmpty kinds = true ↔ ∀ kind ∈ kinds, kind.noEmpty = true
  | [] => by simp [allNoEmpty]
  | kind :: kinds => by rw [allNoEmpty, Bool.and_eq_true, allNoEmpty_iff, List.forall_mem_cons]

/-! ### Sequences of one type -/

theorem headSizes_replicate (elem : Kind) : ∀ n : Nat,
    headSizes (List.replicate n elem) = n * elem.headSize
  | 0 => by simp [headSizes]
  | n + 1 => by rw [List.replicate_succ, headSizes, headSizes_replicate elem n, Nat.succ_mul, Nat.add_comm]

theorem anyDynamic_replicate (elem : Kind) : ∀ {n : Nat}, n ≠ 0 →
    anyDynamic (List.replicate n elem) = elem.isDynamic
  | 1, _ => by simp [anyDynamic]
  | n + 2, _ => by
    rw [List.replicate_succ, anyDynamic, anyDynamic_replicate elem (Nat.succ_ne_zero n), Bool.or_self]

theorem headSize_of_isDynamic {kind : Kind} (h : kind.isDynamic = true) : kind.headSize = 32 := by
  cases kind with
  | fixedArray elem length =>
    rw [isDynamic] at h
    rw [headSize, if_pos h]
  | tuple members =>
    rw [isDynamic] at h
    rw [headSize, if_pos h]
  | _ => simp [headSize]

end Kind

/-! ### The slots of types -/

theorem slots_replicate (elem : Kind) : ∀ n : Nat,
    slots (List.replicate n elem) = List.replicate n (.ofKind elem (decodeValue elem))
  | 0 => by simp [slots]
  | n + 1 => by rw [List.replicate_succ, slots, slots_replicate elem n, List.replicate_succ]

theorem sum_headSize_slots : ∀ kinds : List Kind,
    ((slots kinds).map (·.headSize)).sum = Kind.headSizes kinds
  | [] => by simp [slots, Kind.headSizes]
  | kind :: kinds => by
    rw [slots, List.map_cons, List.sum_cons, sum_headSize_slots kinds, Kind.headSizes]
    rfl

theorem isDynamic_of_mem_slots : ∀ {kinds : List Kind}, Kind.anyDynamic kinds = false →
    ∀ slot ∈ slots kinds, slot.isDynamic = false
  | [], _ => by simp [slots]
  | kind :: kinds, h => by
    rw [Kind.anyDynamic, Bool.or_eq_false_iff] at h
    rw [slots, List.forall_mem_cons]
    exact ⟨h.1, isDynamic_of_mem_slots h.2⟩

theorem slots_ne_nil {kinds : List Kind} (h : kinds ≠ []) : slots kinds ≠ [] := by
  obtain ⟨kind, others, rfl⟩ := List.exists_cons_of_ne_nil h
  simp [slots]

/-! ### Elementary values -/

theorem gives_of_word {kind : Kind} {word : Word} {value : Value} (hd : kind.isDynamic = false)
    (hs : kind.headSize = 32) (hread : ∀ rest, decodeValue kind (word.toBytes ++ rest) = .ok value) :
    (Slot.ofKind kind (decodeValue kind)).Gives ⟨kind.isDynamic, word.toBytes⟩ value where
  isDynamic := rfl
  headSize := by
    rw [hd]
    exact hs.trans (Word.length_toBytes word).symm
  body_ne_nil := List.ne_nil_of_length_pos (by rw [Word.length_toBytes]; decide)
  read := hread

/-- Octets behind their length that are read as the value are a dynamic part. -/
theorem gives_of_withLength {kind : Kind} {content : Bytes} {value : Value} (hd : kind.isDynamic = true)
    (hread : ∀ rest, decodeValue kind (withLength content ++ rest) = .ok value) :
    (Slot.ofKind kind (decodeValue kind)).Gives ⟨kind.isDynamic, withLength content⟩ value where
  isDynamic := rfl
  headSize := by
    rw [hd]
    exact Kind.headSize_of_isDynamic hd
  body_ne_nil := List.ne_nil_of_length_pos (by rw [length_withLength]; omega)
  read := hread

theorem length_lt_of_withLength {content : Bytes} (h : (withLength content).length < 2 ^ 64) :
    content.length < 2 ^ 64 := by
  have := length_le_length_padRight content
  rw [length_withLength] at h
  omega

theorem checkedInteger_eq_ok_iff {kind : Kind} {fits : Bool} {word word' : Word} :
    checkedInteger kind fits word = .ok word' ↔ fits = true ∧ word = word' := by
  rw [checkedInteger, ite_ok_eq_ok_iff, Except.ok.injEq]

theorem checkedFixedBytes_eq_ok_iff {size : Nat} {content content' : Bytes} :
    checkedFixedBytes size content = .ok content' ↔
      0 < size ∧ size ≤ 32 ∧ content.length = size ∧ content = content' := by
  rw [checkedFixedBytes, ite_error_eq_ok_iff, ite_error_eq_ok_iff, Except.ok.injEq, ne_eq,
    Decidable.not_not, ← and_assoc, ← and_assoc, not_or, Nat.not_lt, Nat.not_lt, Nat.succ_le_iff]
  rw [and_assoc]

theorem ofWord?_toWord (address : Address) : Address.ofWord? address.toWord = some address := by
  have hlt : address.toWord.toNat < 2 ^ 160 := by
    rw [Address.toWord, BitVec.toNat_setWidth, Nat.mod_eq_of_lt (by omega)]
    exact address.value.isLt
  have hback : address.toWord.setWidth 160 = address.value := by
    apply BitVec.eq_of_toNat_eq
    rw [Address.toWord, BitVec.toNat_setWidth, BitVec.toNat_setWidth, Nat.mod_eq_of_lt (by omega),
      Nat.mod_eq_of_lt (by omega)]
  rw [Address.ofWord?, if_pos hlt, hback]

theorem exists_word_of_padRight {content : Bytes} (h0 : 0 < content.length) (h : content.length ≤ 32) :
    ∃ word : Word, Bytes.padRight content = word.toBytes ∧ word.toBytes.take content.length = content := by
  have hlen : (Bytes.padRight content).length = 32 := by
    rw [Bytes.padRight, List.length_append, List.length_replicate]
    omega
  have hword : (Word.ofBytes (Bytes.padRight content)).toBytes = Bytes.padRight content :=
    Word.toBytes_ofBytes hlen
  exact ⟨_, hword.symm, by rw [hword, Bytes.padRight, List.take_left]⟩

/-! ### Sequences -/

section

variable {kinds : List Kind} {parts : List Part} {values : List Value}

/-- The head of a sequence lies within its layout, and the slots read the layout. -/
theorem readSlots_sequence (h : AllGive (slots kinds) parts values)
    (hlt : (layout (Kind.headSizes kinds) parts).length < 2 ^ 64) (rest : Bytes) :
    Kind.headSizes kinds ≤ (layout (Kind.headSizes kinds) parts ++ rest).length ∧
      readSlots (layout (Kind.headSizes kinds) parts ++ rest) 0 (slots kinds) = .ok values := by
  have hsize := (sum_headSize_slots kinds).symm
  refine ⟨?_, readSlots_layout h hsize hlt rest⟩
  rw [List.length_append]
  have hle := headSize_le_length_layout h hsize
  omega

theorem gives_of_sequence {kind : Kind} {value : Value} (h : AllGive (slots kinds) parts values)
    (hne : kinds ≠ []) (hlt : (layout (Kind.headSizes kinds) parts).length < 2 ^ 64)
    (hd : kind.isDynamic = Kind.anyDynamic kinds)
    (hs : kind.isDynamic = false → Kind.headSizes kinds < 2 ^ 64 → kind.headSize = Kind.headSizes kinds)
    (hread : ∀ data, Kind.headSizes kinds ≤ data.length →
      readSlots data 0 (slots kinds) = .ok values → decodeValue kind data = .ok value) :
    (Slot.ofKind kind (decodeValue kind)).Gives
      ⟨kind.isDynamic, layout (Kind.headSizes kinds) parts⟩ value where
  isDynamic := rfl
  headSize := by
    have hsize := (sum_headSize_slots kinds).symm
    cases hkind : kind.isDynamic with
    | true => exact Kind.headSize_of_isDynamic hkind
    | false =>
      have hlength := length_layout_of_static h hsize (isDynamic_of_mem_slots (hd.symm.trans hkind))
      rw [hlength] at hlt
      exact (hs hkind hlt).trans hlength.symm
  body_ne_nil := layout_ne_nil h (sum_headSize_slots kinds).symm (slots_ne_nil hne)
  read := fun rest => hread _ (readSlots_sequence h hlt rest).1 (readSlots_sequence h hlt rest).2

end

/-- An array of any length is read if its elements can be counted, its count promises no more than there is and
its elements are read. -/
theorem decodeValue_array_iff {elem : Kind} {n : Nat} {body : Bytes} {items : List Value} (hn : n < 2 ^ 64) :
    decodeValue (.array elem) (countWord n ++ body) = .ok (.array items) ↔
      elem.isCounted = true ∧ min (n * max elem.headSize 1) maxCount ≤ body.length ∧
        n * elem.headSize ≤ body.length ∧ readSlots body 0 (slots (List.replicate n elem)) = .ok items := by
  have hcount : readCount (countWord n ++ body) 0 = .ok n := readCount_append hn [] body
  have hdrop : (countWord n ++ body).drop 32 = body := by
    rw [← length_countWord n, List.drop_left]
  rw [decodeValue_array_eq_ok_iff, hcount, hdrop, slots_replicate]
  simp only [Except.ok.injEq, exists_eq_left', Value.array.injEq, exists_eq_right]

/-- An array of any length is a count in front of a sequence. Its elements take octets in the head, so
the count does not promise more of them than there is data. -/
theorem gives_of_array {elem : Kind} {n : Nat} {parts : List Part} {items : List Value}
    (h : AllGive (slots (List.replicate n elem)) parts items) (hcounted : elem.isCounted = true) (hn : n < 2 ^ 64)
    (hlt : (layout (Kind.headSizes (List.replicate n elem)) parts).length < 2 ^ 64) :
    (Slot.ofKind (.array elem) (decodeValue (.array elem))).Gives
      ⟨true, countWord n ++ layout (Kind.headSizes (List.replicate n elem)) parts⟩ (.array items) where
  isDynamic := rfl
  headSize := rfl
  body_ne_nil := List.ne_nil_of_length_pos (by rw [List.length_append, length_countWord]; omega)
  read := fun rest => by
    obtain ⟨hhead, hread⟩ := readSlots_sequence h hlt rest
    have hneeded : n * max elem.headSize 1 ≤ n * elem.headSize := by
      cases n with
      | zero => simp
      | succ n =>
        have hpos : 0 < elem.headSize := h.headSize_pos (.ofKind elem (decodeValue elem)) (by
          rw [slots_replicate]
          exact List.mem_replicate.mpr ⟨Nat.succ_ne_zero n, rfl⟩)
        exact Nat.mul_le_mul_left _ (Nat.max_le.mpr ⟨Nat.le_refl _, hpos⟩)
    rw [Kind.headSizes_replicate] at hhead hread
    rw [Slot.ofKind, List.append_assoc, Kind.headSizes_replicate]
    exact (decodeValue_array_iff hn).mpr ⟨hcounted, by omega, hhead, hread⟩

/-! ### All values -/

theorem encodeParts_cons_eq_ok_iff {kind : Kind} {kinds : List Kind} {value : Value} {values : List Value}
    {parts : List Part} :
    encodeParts (kind :: kinds) (value :: values) = .ok parts ↔
      ∃ body others, encodeValue kind value = .ok body ∧ encodeParts kinds values = .ok others ∧
        parts = ⟨kind.isDynamic, body⟩ :: others := by
  rw [encodeParts]
  simp only [bind_eq_ok_iff, pure_eq_ok_iff]
  constructor
  · rintro ⟨body, hbody, others, hothers, rfl⟩
    exact ⟨body, others, hbody, hothers, rfl⟩
  · rintro ⟨body, others, hbody, hothers, rfl⟩
    exact ⟨body, hbody, others, hothers, rfl⟩

mutual

/-- A written value is a part that its slot reads, unless the reader meets a list that it cannot count. -/
theorem gives_of_encodeValue : ∀ (value : Value) (kind : Kind) (body : Bytes), kind.noEmpty = true →
    ¬ value.HasUncountedList kind → encodeValue kind value = .ok body → body.length < 2 ^ 64 →
    (Slot.ofKind kind (decodeValue kind)).Gives ⟨kind.isDynamic, body⟩ value
  | .uint word, kind, body, _, _, h, _ => by
    cases kind <;> simp only [encodeValue, reduceCtorEq] at h
    rename_i bits
    obtain ⟨_, hword, rfl⟩ := map_eq_ok_iff.mp h
    obtain ⟨hfits, rfl⟩ := checkedInteger_eq_ok_iff.mp hword
    refine gives_of_word rfl rfl fun rest => ?_
    rw [decodeValue, readWord_toBytes_append]
    exact if_pos hfits
  | .int word, kind, body, _, _, h, _ => by
    cases kind <;> simp only [encodeValue, reduceCtorEq] at h
    rename_i bits
    obtain ⟨_, hword, rfl⟩ := map_eq_ok_iff.mp h
    obtain ⟨hfits, rfl⟩ := checkedInteger_eq_ok_iff.mp hword
    refine gives_of_word rfl rfl fun rest => ?_
    rw [decodeValue, readWord_toBytes_append]
    exact if_pos hfits
  | .address address, kind, body, _, _, h, _ => by
    cases kind <;> simp only [encodeValue, reduceCtorEq, Except.ok.injEq] at h
    subst h
    refine gives_of_word rfl rfl fun rest => ?_
    rw [decodeValue, readWord_toBytes_append]
    simp only [bind, Except.bind, ofWord?_toWord]
    rfl
  | .bool flag, kind, body, _, _, h, _ => by
    cases kind <;> simp only [encodeValue, reduceCtorEq, Except.ok.injEq] at h
    subst h
    refine gives_of_word rfl rfl fun rest => ?_
    rw [decodeValue, readWord_toBytes_append]
    cases flag <;> rfl
  | .fixedBytes content, kind, body, _, _, h, _ => by
    cases kind <;> simp only [encodeValue, reduceCtorEq] at h
    obtain ⟨_, hcontent, rfl⟩ := map_eq_ok_iff.mp h
    obtain ⟨h0, h32, rfl, rfl⟩ := checkedFixedBytes_eq_ok_iff.mp hcontent
    obtain ⟨word, hword, htake⟩ := exists_word_of_padRight h0 h32
    rw [hword]
    refine gives_of_word rfl rfl fun rest => ?_
    rw [decodeValue, if_neg (by omega), readWord_toBytes_append]
    simp only [bind, Except.bind, htake]
    rfl
  | .bytes content, kind, body, _, _, h, hlt => by
    cases kind <;> simp only [encodeValue, reduceCtorEq, Except.ok.injEq] at h
    subst h
    refine gives_of_withLength rfl fun rest => ?_
    rw [decodeValue, readBytes_withLength_append (length_lt_of_withLength hlt)]
    rfl
  | .string content, kind, body, _, _, h, hlt => by
    cases kind <;> simp only [encodeValue, reduceCtorEq, Except.ok.injEq] at h
    subst h
    refine gives_of_withLength rfl fun rest => ?_
    rw [decodeValue, readBytes_withLength_append (length_lt_of_withLength hlt)]
    simp only [bind, Except.bind, Text.ofOctets?_octets]
    rfl
  | .array items, kind, body, hk, hu, h, hlt => by
    cases kind <;> simp only [encodeValue, reduceCtorEq] at h
    rename_i elem
    obtain ⟨hfilled, parts, hparts, rfl⟩ := encodeValue_array_eq_ok_iff.mp h
    obtain ⟨hempty, heach⟩ := Value.not_hasUncountedList_array_iff.mp hu
    have hcounted : elem.isCounted = true := by
      by_cases hnil : items = []
      · exact hempty hnil
      · exact hfilled hnil
    rw [← Kind.headSizes_replicate] at hlt ⊢
    rw [List.length_append] at hlt
    have hall : AllGive (slots (List.replicate items.length elem)) parts items :=
      allGive_of_encodeParts items _ parts (Kind.headSizes (List.replicate items.length elem))
        List.length_replicate
        (fun kind hmem => by rw [List.eq_of_mem_replicate hmem]; rwa [Kind.noEmpty] at hk)
        (forall_mem_zip_replicate_iff.mpr heach) hparts (by omega)
    have hcount := Nat.le_trans hall.length_le_sum_headSize
      (headSize_le_length_layout hall rfl)
    exact gives_of_array hall hcounted (by rw [sum_headSize_slots] at hcount; omega) (by omega)
  | .fixedArray items, kind, body, hk, hu, h, hlt => by
    cases kind <;> simp only [encodeValue, reduceCtorEq] at h
    rename_i elem length
    obtain ⟨rfl, hcounted, parts, hparts, rfl⟩ := encodeValue_fixedArray_eq_ok_iff.mp h
    rw [Kind.noEmpty, Bool.and_eq_true, bne_iff_ne] at hk
    rw [← Kind.headSizes_replicate] at hlt ⊢
    have hall : AllGive (slots (List.replicate items.length elem)) parts items :=
      allGive_of_encodeParts items _ parts _ List.length_replicate
        (fun kind hmem => by rw [List.eq_of_mem_replicate hmem]; exact hk.2)
        (forall_mem_zip_replicate_iff.mpr (Value.not_hasUncountedList_fixedArray_iff.mp hu)) hparts hlt
    refine gives_of_sequence hall (by simpa using hk.1) hlt ?_ ?_ ?_
    · rw [Kind.anyDynamic_replicate elem hk.1, Kind.isDynamic]
    · intro hd hsize
      rw [Kind.isDynamic] at hd
      rw [Kind.headSizes_replicate, Nat.mul_comm] at hsize ⊢
      rw [Kind.headSize, hd, if_neg (by decide), maxCount]
      omega
    · intro data hhead hread
      rw [Kind.headSizes_replicate] at hhead
      rw [slots_replicate] at hread
      exact decodeValue_fixedArray_eq_ok_iff.mpr
        ⟨fun hne => hcounted (List.ne_nil_of_length_pos (Nat.pos_of_ne_zero hne)), hhead, items, hread, rfl⟩
  | .tuple items, kind, body, hk, hu, h, hlt => by
    cases kind <;> simp only [encodeValue, reduceCtorEq] at h
    rename_i members
    obtain ⟨hlength, hcounted, parts, hparts, rfl⟩ := encodeValue_tuple_eq_ok_iff.mp h
    rw [Kind.noEmpty, Bool.and_eq_true, Kind.allNoEmpty_iff] at hk
    have hall : AllGive (slots members) parts items :=
      allGive_of_encodeParts items members parts _ hlength.symm hk.2
        (Value.not_hasUncountedList_tuple_iff.mp hu) hparts hlt
    refine gives_of_sequence hall (by simpa using hk.1) hlt ?_ ?_ ?_
    · rw [Kind.isDynamic]
    · intro hd _
      rw [Kind.isDynamic] at hd
      rw [Kind.headSize, hd, if_neg (by decide)]
    · intro data hhead hread
      exact decodeValue_tuple_eq_ok_iff.mpr ⟨hcounted, hhead, items, hread, rfl⟩

/-- The parts of values are read by the slots of their types, if they are laid out below 2^64 octets. -/
theorem allGive_of_encodeParts : ∀ (values : List Value) (kinds : List Kind) (parts : List Part)
    (headSize : Nat), kinds.length = values.length → (∀ kind ∈ kinds, kind.noEmpty = true) →
    ListsCounted kinds values → encodeParts kinds values = .ok parts → (layout headSize parts).length < 2 ^ 64 →
    AllGive (slots kinds) parts values
  | [], kinds, parts, _, hl, _, _, h, _ => by
    obtain rfl := List.length_eq_zero_iff.mp hl
    rw [encodeParts, Except.ok.injEq] at h
    · rw [← h, slots]
      exact .nil
    · simp
  | value :: values, [], _, _, hl, _, _, _, _ => absurd hl (by simp)
  | value :: values, kind :: kinds, parts, headSize, hl, hk, hu, h, hlt => by
    obtain ⟨body, others, hbody, hothers, rfl⟩ := encodeParts_cons_eq_ok_iff.mp h
    rw [List.forall_mem_cons] at hk
    rw [ListsCounted, List.zip_cons_cons, List.forall_mem_cons] at hu
    have hfirst : (⟨kind.isDynamic, body⟩ : Part) ∈ ⟨kind.isDynamic, body⟩ :: others := List.mem_cons_self
    have hbody_lt : body.length < 2 ^ 64 := Nat.lt_of_le_of_lt (length_body_le_of_mem headSize hfirst) hlt
    have hothers_lt := Nat.lt_of_le_of_lt (length_layout_le_cons headSize _ others) hlt
    rw [slots]
    exact .cons (gives_of_encodeValue value kind body hk.1 hu.1 hbody hbody_lt)
      (allGive_of_encodeParts values kinds others headSize (Nat.succ.inj hl) hk.2 hu.2 hothers hothers_lt)

end

theorem noEmpty_of_elementary {kind : Kind} (h : kind.isSequence = false) : kind.noEmpty = true := by
  cases kind with
  | array elem => cases h
  | fixedArray elem length => cases h
  | tuple members => cases h
  | _ => rfl

theorem gives_of_elementary {kind : Kind} {value : Value} {body : Bytes} (hkind : kind.isSequence = false)
    (h : encodeValue kind value = .ok body) (hlt : body.length < 2 ^ 64) :
    (Slot.ofKind kind (decodeValue kind)).Gives ⟨kind.isDynamic, body⟩ value :=
  gives_of_encodeValue value kind body (noEmpty_of_elementary hkind)
    (Value.not_hasUncountedList_of_elementary hkind value) h hlt

end Abi
end EthWire
