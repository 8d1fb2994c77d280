/-
# What the writer and the reader ask of a sequence

Arrays and tuples are sequences, written and read in one way each. Before anything in a sequence is looked at,
its head is counted, and a count has no result where a sum leaves 64 bits. The writer counts the head of every
sequence but that of an empty array (`Abi.Value.HeadsCounted`). The reader counts that of an empty list, too,
and this is all that it asks for beyond the writer: such a list with elements that cannot be counted is written
and not read (`Abi.Value.HasUncountedList`). Types that can be counted throughout leave no room for any of this.

Key definitions: `Abi.Kind.isSequence`, `Abi.Kind.isCountedThroughout`, `Abi.Value.HeadsCounted`,
`Abi.Value.HasUncountedList`, `Abi.ListsCounted`.
Key theorems: `Abi.encodeValue_array_eq_ok_iff`, `Abi.encodeValue_fixedArray_eq_ok_iff`,
`Abi.encodeValue_tuple_eq_ok_iff`, `Abi.decodeValue_array_eq_ok_iff`, `Abi.decodeValue_fixedArray_eq_ok_iff`,
`Abi.decodeValue_tuple_eq_ok_iff`.
-/
import EthWire.Proofs.Abi.Words

namespace EthWire
namespace Abi

namespace Kind

/-- Whether the values of a type are sequences, behind their length or not. -/
def isSequence : Kind → Bool
  | .array _ | .fixedArray _ _ | .tuple _ => true
  | _ => false

mutual

/-- Whether the type and all types in it can be counted. -/
def isCountedThroughout : Kind → Bool
  | .array elem => elem.isCounted && elem.isCountedThroughout
  | .fixedArray elem _ => elem.isCounted && elem.isCountedThroughout
  | .tuple members => allCounted members && allCountedThroughout members
  | _ => true

/-- Whether this is so for all the types. -/
def allCountedThroughout : List Kind → Bool
  | [] => true
  | kind :: kinds => kind.isCountedThroughout && allCountedThroughout kinds

end

theorem allCounted_iff : ∀ {kinds : List Kind}, allCounted kinds = true ↔ ∀ kind ∈ kinds, kind.isCounted = true
  | [] => by simp [allCounted]
  | kind :: kinds => by rw [allCounted, Bool.and_eq_true, allCounted_iff, List.forall_mem_cons]

theorem allCountedThroughout_iff : ∀ {kinds : List Kind},
    allCountedThroughout kinds = true ↔ ∀ kind ∈ kinds, kind.isCountedThroughout = true
  | [] => by simp [allCountedThroughout]
  | kind :: kinds => by
    rw [allCountedThroughout, Bool.and_eq_true, allCountedThroughout_iff, List.forall_mem_cons]

end Kind

/-- Pairing a list with copies of one thing says nothing that the list alone does not. -/
theorem forall_mem_zip_replicate_iff {α β : Type} {p : α × β → Prop} {b : β} : ∀ {as : List α},
    (∀ pair ∈ as.zip (List.replicate as.length b), p pair) ↔ ∀ a ∈ as, p (a, b)
  | [] => by simp
  | a :: as => by
    rw [List.length_cons, List.replicate_succ, List.zip_cons_cons, List.forall_mem_cons,
      forall_mem_zip_replicate_iff, List.forall_mem_cons]

/-! ### Heads that are counted -/

/-- Whether the writer can count the heads of all sequences in a value. It counts none where an array is empty. -/
inductive Value.HeadsCounted : Value → Kind → Prop where
  | elementary {value : Value} {kind : Kind} (kind_eq : kind.isSequence = false) : HeadsCounted value kind
  | array {items : List Value} {elem : Kind} (counted : items ≠ [] → elem.isCounted = true)
      (each : ∀ item ∈ items, HeadsCounted item elem) : HeadsCounted (.array items) (.array elem)
  | fixedArray {items : List Value} {elem : Kind} {length : Nat} (counted : items ≠ [] → elem.isCounted = true)
      (each : ∀ item ∈ items, HeadsCounted item elem) : HeadsCounted (.fixedArray items) (.fixedArray elem length)
  | tuple {items : List Value} {members : List Kind} (counted : Kind.allCounted members = true)
      (each : ∀ pair ∈ items.zip members, HeadsCounted pair.1 pair.2) : HeadsCounted (.tuple items) (.tuple members)

/-- Somewhere in the value, written against the type, stands an empty list whose elements could not be counted.
The writer has nothing to count there, but the reader does. -/
inductive Value.HasUncountedList : Value → Kind → Prop where
  | here {elem : Kind} (uncounted : elem.isCounted = false) : HasUncountedList (.array []) (.array elem)
  | array {items : List Value} {elem : Kind} {item : Value} (mem : item ∈ items)
      (inside : HasUncountedList item elem) : HasUncountedList (.array items) (.array elem)
  | fixedArray {items : List Value} {elem : Kind} {length : Nat} {item : Value} (mem : item ∈ items)
      (inside : HasUncountedList item elem) : HasUncountedList (.fixedArray items) (.fixedArray elem length)
  | tuple {items : List Value} {members : List Kind} {pair : Value × Kind} (mem : pair ∈ items.zip members)
      (inside : HasUncountedList pair.1 pair.2) : HasUncountedList (.tuple items) (.tuple members)

/-- There is no such list in the values of a parameter list. -/
def ListsCounted (kinds : List Kind) (values : List Value) : Prop :=
  ∀ pair ∈ values.zip kinds, ¬ pair.1.HasUncountedList pair.2

namespace Value

section

variable {items : List Value} {elem : Kind} {members : List Kind} {length : Nat}

theorem not_hasUncountedList_of_elementary {kind : Kind} (h : kind.isSequence = false) (value : Value) :
    ¬ value.HasUncountedList kind := by
  intro hlist
  cases hlist <;> cases h

theorem not_hasUncountedList_array_iff :
    ¬ (Value.array items).HasUncountedList (.array elem) ↔
      (items = [] → elem.isCounted = true) ∧ ∀ item ∈ items, ¬ item.HasUncountedList elem := by
  constructor
  · intro h
    refine ⟨?_, fun item mem inside => h (.array mem inside)⟩
    rintro rfl
    exact Bool.ne_false_iff.mp fun uncounted => h (.here uncounted)
  · rintro ⟨hempty, heach⟩ hlist
    cases hlist with
    | here uncounted => exact absurd (hempty rfl) (Bool.eq_false_iff.mp uncounted)
    | array mem inside => exact heach _ mem inside

theorem not_hasUncountedList_fixedArray_iff :
    ¬ (Value.fixedArray items).HasUncountedList (.fixedArray elem length) ↔
      ∀ item ∈ items, ¬ item.HasUncountedList elem := by
  constructor
  · exact fun h item mem inside => h (.fixedArray mem inside)
  · intro heach hlist
    cases hlist with
    | fixedArray mem inside => exact heach _ mem inside

theorem not_hasUncountedList_tuple_iff :
    ¬ (Value.tuple items).HasUncountedList (.tuple members) ↔ ListsCounted members items := by
  constructor
  · exact fun h pair mem inside => h (.tuple mem inside)
  · intro heach hlist
    cases hlist with
    | tuple mem inside => exact heach _ mem inside

end

theorem not_hasUncountedList_of_countedThroughout {value : Value} {kind : Kind}
    (h : kind.isCountedThroughout = true) : ¬ value.HasUncountedList kind := by
  intro hlist
  induction hlist with
  | here uncounted =>
    rw [Kind.isCountedThroughout, uncounted] at h
    cases h
  | array _ _ ih | fixedArray _ _ ih =>
    rw [Kind.isCountedThroughout, Bool.and_eq_true] at h
    exact ih h.2
  | tuple mem _ ih =>
    rw [Kind.isCountedThroughout, Bool.and_eq_true, Kind.allCountedThroughout_iff] at h
    exact ih (h.2 _ (List.of_mem_zip mem).2)

end Value

theorem listsCounted_of_countedThroughout {kinds : List Kind} (h : ∀ kind ∈ kinds, kind.isCountedThroughout = true)
    (values : List Value) : ListsCounted kinds values := fun _ mem =>
  Value.not_hasUncountedList_of_countedThroughout (h _ (List.of_mem_zip mem).2)

/-! ### The writer -/

section

variable {elem : Kind} {members : List Kind} {length : Nat} {items : List Value} {body : Bytes}

/-- Where a head is no count of 64 bits, that is the only failure. -/
theorem eq_abiHeadSum_of_behindHead {counted : Bool} {headSize : Nat} {parts : Except Error (List Part)}
    {cause : Error} (h : maxCount < headSize) (hfail : behindHead counted headSize parts = .error cause) :
    cause = .abiHeadSum := by
  have hlarge : ¬ headSize ≤ maxHeadSize := by
    rw [maxCount] at h
    rw [maxHeadSize]
    omega
  unfold behindHead at hfail
  rw [if_neg hlarge, if_neg (Nat.not_le.mpr h)] at hfail
  cases counted with
  | false => exact (Except.error.inj hfail).symm
  | true =>
    cases parts with
    | ok parts => cases hfail
    | error _ => exact (Except.error.inj hfail).symm

theorem isEmpty_or_eq_true_iff {α : Type} {as : List α} {flag : Bool} :
    (as.isEmpty || flag) = true ↔ (as ≠ [] → flag = true) := by
  cases as <;> simp

theorem encodeValue_array_eq_ok_iff :
    encodeValue (.array elem) (.array items) = .ok body ↔
      (items ≠ [] → elem.isCounted = true) ∧
        ∃ parts, encodeParts (List.replicate items.length elem) items = .ok parts ∧
          countWord items.length ++ layout (items.length * elem.headSize) parts = body := by
  rw [encodeValue]
  simp only [bind_eq_ok_iff, behindHead_eq_ok_iff, pure_eq_ok_iff, isEmpty_or_eq_true_iff, and_assoc,
    exists_and_left]

theorem encodeValue_fixedArray_eq_ok_iff :
    encodeValue (.fixedArray elem length) (.fixedArray items) = .ok body ↔
      items.length = length ∧ (items ≠ [] → elem.isCounted = true) ∧
        ∃ parts, encodeParts (List.replicate items.length elem) items = .ok parts ∧
          layout (items.length * elem.headSize) parts = body := by
  rw [encodeValue]
  simp only [guard_eq_ok_iff, ne_eq, Decidable.not_not, bind_eq_ok_iff, behindHead_eq_ok_iff, pure_eq_ok_iff,
    isEmpty_or_eq_true_iff, and_assoc, exists_and_left]

theorem encodeValue_tuple_eq_ok_iff :
    encodeValue (.tuple members) (.tuple items) = .ok body ↔
      items.length = members.length ∧ Kind.allCounted members = true ∧
        ∃ parts, encodeParts members items = .ok parts ∧ layout (Kind.headSizes members) parts = body := by
  rw [encodeValue]
  simp only [guard_eq_ok_iff, ne_eq, Decidable.not_not, bind_eq_ok_iff, behindHead_eq_ok_iff, pure_eq_ok_iff,
    and_assoc, exists_and_left]

end

/-! ### The reader -/

section

variable {elem : Kind} {members : List Kind} {length : Nat} {data : Bytes} {value : Value}

theorem decodeValue_array_eq_ok_iff :
    decodeValue (.array elem) data = .ok value ↔
      ∃ n, readCount data 0 = .ok n ∧ elem.isCounted = true ∧
        min (n * max elem.headSize 1) maxCount ≤ (data.drop 32).length ∧
        n * elem.headSize ≤ (data.drop 32).length ∧
        ∃ items, readSlots (data.drop 32) 0 (List.replicate n (.ofKind elem (decodeValue elem))) = .ok items ∧
          .array items = value := by
  rw [decodeValue]
  simp only [bind_eq_ok_iff, guard_eq_ok_iff, pure_eq_ok_iff, checkHead_eq_ok_iff, Bool.not_eq_true',
    Bool.not_eq_false, Bytes.hasAtLeast_iff]
  refine exists_congr fun n => and_congr_right fun _ => and_congr_right fun hcounted => ?_
  simp [hcounted]

theorem decodeValue_fixedArray_eq_ok_iff :
    decodeValue (.fixedArray elem length) data = .ok value ↔
      (length ≠ 0 → elem.isCounted = true) ∧ length * elem.headSize ≤ data.length ∧
        ∃ items, readSlots data 0 (List.replicate length (.ofKind elem (decodeValue elem))) = .ok items ∧
          .fixedArray items = value := by
  rw [decodeValue, check_bind_eq_ok_iff, checkHead_eq_ok_iff, and_assoc]
  simp only [bind_eq_ok_iff, pure_eq_ok_iff]
  refine and_congr_left fun _ => ?_
  by_cases hlength : length = 0 <;> simp [hlength]

theorem decodeValue_tuple_eq_ok_iff :
    decodeValue (.tuple members) data = .ok value ↔
      Kind.allCounted members = true ∧ Kind.headSizes members ≤ data.length ∧
        ∃ items, readSlots data 0 (slots members) = .ok items ∧ .tuple items = value := by
  rw [decodeValue, check_bind_eq_ok_iff, checkHead_eq_ok_iff, and_assoc]
  simp only [bind_eq_ok_iff, pure_eq_ok_iff]

end

end Abi
end EthWire
