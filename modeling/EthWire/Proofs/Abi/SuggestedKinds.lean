/-
# Values against the types that they suggest

A value without a type at hand is written against the type that it suggests itself, and that may be another one
than the declared: widths are the largest ones, and an empty array suggests integers, whatever its elements were
declared to be. Widths do not show in what is written. The elements of an empty array show in one case only. A
declared array of length zero is dynamic if its elements are, so the head of its sequence holds an offset to it,
which points to nothing; as an array of integers it takes no octet at all (`Abi.Value.HasBareOffset`).

Two types of one value are compared by an induction over the three of them (`Abi.two_kinds_induction`). Without
such arrays nothing differs (`Abi.Compared.Agree`). With one of them the declared form is the longer one: whatever is
dynamic against a type that leaves no bare offset is dynamic against the other type, too, so no octet is saved
elsewhere (`Abi.Compared.Narrows`).

Key definitions: `Abi.Value.HasBareOffset`, `Abi.Compared`.
Key theorems: `Abi.two_kinds_induction`, `Abi.Value.not_hasBareOffset_kind`,
`Abi.suggested_layout_is_the_declared_iff`.
-/
import EthWire.Proofs.Abi.Call
import EthWire.Proofs.Abi.DeclaredTypes
import EthWire.Proofs.Abi.HeadTail

namespace EthWire
namespace Abi

/-- Somewhere in the value, written against the type, stands an array of length zero whose elements would be
dynamic. It has no octets, but the head of its sequence has an offset to it. -/
inductive Value.HasBareOffset : Value → Kind → Prop where
  | here {elem : Kind} (dynamic : elem.isDynamic = true) : HasBareOffset (.fixedArray []) (.fixedArray elem 0)
  | array {items : List Value} {elem : Kind} {item : Value} (mem : item ∈ items)
      (inside : HasBareOffset item elem) : HasBareOffset (.array items) (.array elem)
  | fixedArray {items : List Value} {elem : Kind} {length : Nat} {item : Value} (mem : item ∈ items)
      (inside : HasBareOffset item elem) : HasBareOffset (.fixedArray items) (.fixedArray elem length)
  | tuple {items : List Value} {members : List Kind} {pair : Value × Kind} (mem : pair ∈ items.zip members)
      (inside : HasBareOffset pair.1 pair.2) : HasBareOffset (.tuple items) (.tuple members)

/-! ### Two types of one value -/

/-- A value and two types that it is written against. -/
structure Compared where
  value : Value
  kind : Kind
  other : Kind

open Compared

theorem exists_compared : ∀ {values : List Value} {kinds others : List Kind},
    values.length = kinds.length → values.length = others.length →
    ∃ rows : List Compared, rows.map value = values ∧ rows.map kind = kinds ∧ rows.map other = others
  | [], [], [], _, _ => ⟨[], rfl, rfl, rfl⟩
  | v :: values, k :: kinds, o :: others, hkinds, hothers => by
    obtain ⟨rows, rfl, rfl, rfl⟩ := exists_compared (Nat.succ.inj hkinds) (Nat.succ.inj hothers)
    exact ⟨⟨v, k, o⟩ :: rows, rfl, rfl, rfl⟩

theorem map_eq_replicate {α β : Type} {f : α → β} {b : β} {as : List α} (h : ∀ a ∈ as, f a = b) :
    as.map f = List.replicate as.length b := by
  rw [List.eq_replicate_iff, List.length_map]
  exact ⟨rfl, List.forall_mem_map.mpr h⟩

/-- Induction over a value and two types of it. The components of a sequence are rows of a value and its two
types; in an array the types are the same in all rows. -/
theorem two_kinds_induction {motive : Value → Kind → Kind → Prop}
    (elementary : ∀ {v k o}, k.isSequence = false → v.HasKind k → v.HasKind o → motive v k o)
    (array : ∀ {rows : List Compared} {elem elem' : Kind}, (∀ row ∈ rows, row.kind = elem) →
      (∀ row ∈ rows, row.other = elem') → (∀ row ∈ rows, motive row.value row.kind row.other) →
      motive (.array (rows.map value)) (.array elem) (.array elem'))
    (fixedArray : ∀ {rows : List Compared} {elem elem' : Kind}, (∀ row ∈ rows, row.kind = elem) →
      (∀ row ∈ rows, row.other = elem') → (∀ row ∈ rows, motive row.value row.kind row.other) →
      motive (.fixedArray (rows.map value)) (.fixedArray elem rows.length) (.fixedArray elem' rows.length))
    (tuple : ∀ {rows : List Compared}, (∀ row ∈ rows, motive row.value row.kind row.other) →
      motive (.tuple (rows.map value)) (.tuple (rows.map kind)) (.tuple (rows.map other)))
    {v : Value} {k o : Kind} (h : v.HasKind k) (h' : v.HasKind o) : motive v k o := by
  induction h generalizing o with
  | @array items elem each ih =>
    cases h' with
    | @array _ elem' each' =>
      have hrows := @array (items.map fun item => ⟨item, elem, elem'⟩) elem elem' (by simp) (by simp)
        (List.forall_mem_map.mpr fun item hitem => ih item hitem (each' item hitem))
      simpa only [List.map_map, Function.comp_def, List.map_id'] using hrows
  | @fixedArray items elem length count each ih =>
    cases h' with
    | @fixedArray _ elem' _ count' each' =>
      subst count count'
      have hrows := @fixedArray (items.map fun item => ⟨item, elem, elem'⟩) elem elem' (by simp) (by simp)
        (List.forall_mem_map.mpr fun item hitem => ih item hitem (each' item hitem))
      simpa only [List.map_map, Function.comp_def, List.map_id', List.length_map] using hrows
  | @tuple items members count each ih =>
    cases h' with
    | @tuple _ others count' each' =>
      obtain ⟨rows, rfl, rfl, rfl⟩ := exists_compared count count'
      rw [List.zip_map', List.forall_mem_map] at ih each'
      exact tuple fun row hrow => ih row hrow (each' row hrow)
  | _ => exact elementary rfl (by constructor <;> assumption) h'

/-! ### Bare offsets in a sequence -/

section

variable {rows : List Compared} {f : Compared → Kind} {elem : Kind}

theorem hasBareOffset_array_iff (h : ∀ row ∈ rows, f row = elem) :
    (Value.array (rows.map value)).HasBareOffset (.array elem) ↔
      ∃ row ∈ rows, row.value.HasBareOffset (f row) := by
  constructor
  · intro hbare
    cases hbare with
    | array mem inside =>
      obtain ⟨row, hrow, rfl⟩ := List.mem_map.mp mem
      exact ⟨row, hrow, (h row hrow).symm ▸ inside⟩
  · rintro ⟨row, hrow, inside⟩
    exact .array (List.mem_map_of_mem hrow) (h row hrow ▸ inside)

theorem hasBareOffset_fixedArray_iff (h : ∀ row ∈ rows, f row = elem) :
    (Value.fixedArray (rows.map value)).HasBareOffset (.fixedArray elem rows.length) ↔
      (rows = [] ∧ elem.isDynamic = true) ∨ ∃ row ∈ rows, row.value.HasBareOffset (f row) := by
  constructor
  · intro hbare
    cases rows with
    | nil =>
      cases hbare with
      | here dynamic => exact .inl ⟨rfl, dynamic⟩
      | fixedArray mem inside => cases mem
    | cons first rows =>
      cases hbare with
      | fixedArray mem inside =>
        obtain ⟨row, hrow, rfl⟩ := List.mem_map.mp mem
        exact .inr ⟨row, hrow, (h row hrow).symm ▸ inside⟩
  · rintro (⟨rfl, dynamic⟩ | ⟨row, hrow, inside⟩)
    · exact .here dynamic
    · exact .fixedArray (List.mem_map_of_mem hrow) (h row hrow ▸ inside)

theorem hasBareOffset_tuple_iff :
    (Value.tuple (rows.map value)).HasBareOffset (.tuple (rows.map f)) ↔
      ∃ row ∈ rows, row.value.HasBareOffset (f row) := by
  constructor
  · intro hbare
    cases hbare with
    | tuple mem inside =>
      rw [List.zip_map'] at mem
      obtain ⟨row, hrow, rfl⟩ := List.mem_map.mp mem
      exact ⟨row, hrow, inside⟩
  · rintro ⟨row, hrow, inside⟩
    have hmem : (row.value, f row) ∈ (rows.map value).zip (rows.map f) := by
      rw [List.zip_map']
      exact List.mem_map_of_mem hrow
    exact .tuple hmem inside

end

/-! ### Nothing differs -/

/-- Nothing of what the value is written as tells the two types apart. Only one of them may be written at all: the
head of an array without elements can be one that is not counted. -/
structure Compared.Agree (row : Compared) : Prop where
  isDynamic : row.kind.isDynamic = row.other.isDynamic
  headSize : row.kind.headSize = row.other.headSize
  written : ∀ {body body'}, encodeValue row.kind row.value = .ok body →
    encodeValue row.other row.value = .ok body' → body = body'

theorem Compared.Agree.of_eq {row : Compared} (hdynamic : row.kind.isDynamic = row.other.isDynamic)
    (hsize : row.kind.headSize = row.other.headSize)
    (hwritten : encodeValue row.kind row.value = encodeValue row.other row.value) : row.Agree where
  isDynamic := hdynamic
  headSize := hsize
  written hbody hbody' := by
    rw [hwritten] at hbody
    exact Except.ok.inj (hbody.symm.trans hbody')

section

variable {rows : List Compared} (h : ∀ row ∈ rows, row.Agree)
include h

theorem parts_eq_of_agree {parts parts' : List Part}
    (hparts : encodeParts (rows.map kind) (rows.map value) = .ok parts)
    (hparts' : encodeParts (rows.map other) (rows.map value) = .ok parts') : parts = parts' := by
  induction rows generalizing parts parts' with
  | nil => exact Except.ok.inj (hparts.symm.trans hparts')
  | cons row rows ih =>
    obtain ⟨hrow, hrows⟩ := List.forall_mem_cons.mp h
    obtain ⟨body, others, hbody, hothers, rfl⟩ := encodeParts_cons_eq_ok_iff.mp hparts
    obtain ⟨body', others', hbody', hothers', rfl⟩ := encodeParts_cons_eq_ok_iff.mp hparts'
    rw [hrow.isDynamic, hrow.written hbody hbody', ih hrows hothers hothers']

theorem headSizes_eq_of_agree : Kind.headSizes (rows.map kind) = Kind.headSizes (rows.map other) := by
  induction rows with
  | nil => rfl
  | cons row rows ih =>
    obtain ⟨hrow, hrows⟩ := List.forall_mem_cons.mp h
    rw [List.map_cons, Kind.headSizes, List.map_cons, Kind.headSizes, hrow.headSize, ih hrows]

theorem anyDynamic_eq_of_agree : Kind.anyDynamic (rows.map kind) = Kind.anyDynamic (rows.map other) := by
  induction rows with
  | nil => rfl
  | cons row rows ih =>
    obtain ⟨hrow, hrows⟩ := List.forall_mem_cons.mp h
    rw [List.map_cons, Kind.anyDynamic, List.map_cons, Kind.anyDynamic, hrow.isDynamic, ih hrows]

end

theorem agree_of_elementary {v : Value} {k o : Kind} (hk : k.isSequence = false) (h : v.HasKind k)
    (h' : v.HasKind o) : Compared.Agree ⟨v, k, o⟩ := by
  cases h with
  | uint fits =>
    cases h' with
    | uint fits' => exact .of_eq rfl rfl (by simp only [encodeValue, checkedInteger, fits, fits']; rfl)
  | int fits =>
    cases h' with
    | int fits' => exact .of_eq rfl rfl (by simp only [encodeValue, checkedInteger, fits, fits']; rfl)
  | array _ => cases hk
  | fixedArray _ _ => cases hk
  | tuple _ _ => cases hk
  | fixedBytes pos le length =>
    cases h' with
    | fixedBytes pos' le' length' =>
      subst length length'
      exact .of_eq rfl rfl rfl
  | _ =>
    cases h'
    exact .of_eq rfl rfl rfl

/-- The components of an array agree, and so do the sizes of its head. -/
theorem sequence_eq_of_agree {rows : List Compared} {elem elem' : Kind} (hkind : ∀ row ∈ rows, row.kind = elem)
    (hother : ∀ row ∈ rows, row.other = elem') (h : ∀ row ∈ rows, row.Agree) :
    (∀ {parts parts'}, encodeParts (List.replicate rows.length elem) (rows.map value) = .ok parts →
      encodeParts (List.replicate rows.length elem') (rows.map value) = .ok parts' → parts = parts') ∧
      rows.length * elem.headSize = rows.length * elem'.headSize := by
  rw [← Kind.headSizes_replicate, ← Kind.headSizes_replicate, ← map_eq_replicate hkind, ← map_eq_replicate hother]
  exact ⟨parts_eq_of_agree h, headSizes_eq_of_agree h⟩

/-- A value is written alike against any two of its types that leave no bare offset. -/
theorem agree_of_hasKind {v : Value} {k o : Kind} (h : v.HasKind k) (h' : v.HasKind o)
    (hb : ¬ v.HasBareOffset k) (hb' : ¬ v.HasBareOffset o) : Compared.Agree ⟨v, k, o⟩ := by
  revert hb hb'
  refine two_kinds_induction
    (motive := fun v k o => ¬ v.HasBareOffset k → ¬ v.HasBareOffset o → Compared.Agree ⟨v, k, o⟩)
    ?elementary ?array ?fixedArray ?tuple h h'
  case elementary => exact fun hk h h' _ _ => agree_of_elementary hk h h'
  case array =>
    intro rows elem elem' hkind hother ih hb hb'
    rw [hasBareOffset_array_iff hkind] at hb
    rw [hasBareOffset_array_iff hother] at hb'
    obtain ⟨hparts, hsize⟩ := sequence_eq_of_agree hkind hother fun row hrow => ih row hrow
      (fun inside => hb ⟨row, hrow, inside⟩) (fun inside => hb' ⟨row, hrow, inside⟩)
    refine ⟨rfl, rfl, fun hbody hbody' => ?_⟩
    rw [encodeValue_array_eq_ok_iff, List.length_map] at hbody hbody'
    obtain ⟨-, parts, hwritten, rfl⟩ := hbody
    obtain ⟨-, parts', hwritten', rfl⟩ := hbody'
    rw [hparts hwritten hwritten', hsize]
  case fixedArray =>
    intro rows elem elem' hkind hother ih hb hb'
    rw [hasBareOffset_fixedArray_iff hkind, not_or] at hb
    rw [hasBareOffset_fixedArray_iff hother, not_or] at hb'
    have hagree : ∀ row ∈ rows, row.Agree := fun row hrow => ih row hrow
      (fun inside => hb.2 ⟨row, hrow, inside⟩) (fun inside => hb'.2 ⟨row, hrow, inside⟩)
    obtain ⟨hparts, hsize⟩ := sequence_eq_of_agree hkind hother hagree
    have hdynamic : elem.isDynamic = elem'.isDynamic := by
      cases rows with
      | nil =>
        have hstatic : elem.isDynamic = false := Bool.eq_false_iff.mpr fun hd => hb.1 ⟨rfl, hd⟩
        have hstatic' : elem'.isDynamic = false := Bool.eq_false_iff.mpr fun hd => hb'.1 ⟨rfl, hd⟩
        rw [hstatic, hstatic']
      | cons row rows =>
        have hrow := (hagree row List.mem_cons_self).isDynamic
        rwa [hkind row List.mem_cons_self, hother row List.mem_cons_self] at hrow
    refine ⟨hdynamic, ?_, fun hbody hbody' => ?_⟩
    · simp only [Kind.headSize, hdynamic, Nat.mul_comm _ rows.length, hsize]
    · rw [encodeValue_fixedArray_eq_ok_iff, List.length_map] at hbody hbody'
      obtain ⟨-, -, parts, hwritten, rfl⟩ := hbody
      obtain ⟨-, -, parts', hwritten', rfl⟩ := hbody'
      rw [hparts hwritten hwritten', hsize]
  case tuple =>
    intro rows ih hb hb'
    rw [hasBareOffset_tuple_iff] at hb hb'
    have hagree : ∀ row ∈ rows, row.Agree := fun row hrow => ih row hrow
      (fun inside => hb ⟨row, hrow, inside⟩) (fun inside => hb' ⟨row, hrow, inside⟩)
    refine ⟨?_, ?_, fun hbody hbody' => ?_⟩
    · simp only [Kind.isDynamic, anyDynamic_eq_of_agree hagree]
    · simp only [Kind.headSize, anyDynamic_eq_of_agree hagree, headSizes_eq_of_agree hagree]
    · obtain ⟨-, -, parts, hwritten, rfl⟩ := encodeValue_tuple_eq_ok_iff.mp hbody
      obtain ⟨-, -, parts', hwritten', rfl⟩ := encodeValue_tuple_eq_ok_iff.mp hbody'
      rw [parts_eq_of_agree hagree hwritten hwritten', headSizes_eq_of_agree hagree]

/-! ### A bare offset takes place -/

/-- The octets that a part takes in its sequence, in the head and in the tail. -/
def Part.footprint (part : Part) : Nat :=
  (if part.isDynamic then 32 else 0) + part.body.length

theorem length_layout_cons (headSize : Nat) (part : Part) (parts : List Part) :
    (layout headSize (part :: parts)).length = part.footprint + (layout headSize parts).length := by
  have htail : (if part.isDynamic then part.body else []).length = if part.isDynamic then part.body.length else 0 := by
    split <;> rfl
  rw [length_layout, length_layout, List.map_cons, List.sum_cons, tails_cons, List.length_append, htail,
    Part.headLength, Part.footprint]
  split <;> omega

/-- Against the other type the value takes no more octets, and less where a bare offset falls away. -/
structure Compared.Narrows (row : Compared) : Prop where
  isDynamic : row.other.isDynamic = true → row.kind.isDynamic = true
  length_le : ∀ {body body'}, encodeValue row.kind row.value = .ok body →
    encodeValue row.other row.value = .ok body' → body'.length ≤ body.length
  /-- The offset stands inside of the value, or in front of it. -/
  less : ∀ {body body'}, encodeValue row.kind row.value = .ok body →
    encodeValue row.other row.value = .ok body' → row.value.HasBareOffset row.kind →
    body'.length < body.length ∨ (row.kind.isDynamic = true ∧ row.other.isDynamic = false)

section

variable {row : Compared} {body body' : Bytes}

theorem Compared.Narrows.footprint_le (h : row.Narrows) (hbody : encodeValue row.kind row.value = .ok body)
    (hbody' : encodeValue row.other row.value = .ok body') :
    Part.footprint ⟨row.other.isDynamic, body'⟩ ≤ Part.footprint ⟨row.kind.isDynamic, body⟩ ∧
      (row.value.HasBareOffset row.kind →
        Part.footprint ⟨row.other.isDynamic, body'⟩ < Part.footprint ⟨row.kind.isDynamic, body⟩) := by
  have hle := h.length_le hbody hbody'
  have hless := h.less hbody hbody'
  simp only [Part.footprint]
  by_cases hd : row.other.isDynamic = true
  · rw [if_pos hd, if_pos (h.isDynamic hd)]
    refine ⟨by omega, fun hbare => ?_⟩
    rcases hless hbare with hlt | ⟨-, hstatic⟩
    · omega
    · rw [hd] at hstatic
      cases hstatic
  · rw [if_neg hd]
    refine ⟨by omega, fun hbare => ?_⟩
    rcases hless hbare with hlt | ⟨hdynamic, -⟩
    · omega
    · rw [if_pos hdynamic]
      omega

end

theorem Compared.Agree.narrows {row : Compared} (h : row.Agree) (hb : ¬ row.value.HasBareOffset row.kind) :
    row.Narrows where
  isDynamic hd := by rwa [h.isDynamic]
  length_le hbody hbody' := Nat.le_of_eq (congrArg List.length (h.written hbody hbody').symm)
  less _ _ hbare := absurd hbare hb

theorem length_layout_of_narrows (headSize headSize' : Nat) {rows : List Compared} {parts parts' : List Part}
    (h : ∀ row ∈ rows, row.Narrows) (hparts : encodeParts (rows.map kind) (rows.map value) = .ok parts)
    (hparts' : encodeParts (rows.map other) (rows.map value) = .ok parts') :
    (layout headSize' parts').length ≤ (layout headSize parts).length ∧
      ((∃ row ∈ rows, row.value.HasBareOffset row.kind) →
        (layout headSize' parts').length < (layout headSize parts).length) := by
  induction rows generalizing parts parts' with
  | nil =>
    obtain rfl := Except.ok.inj hparts
    obtain rfl := Except.ok.inj hparts'
    simp [layout, heads, tails]
  | cons row rows ih =>
    obtain ⟨hrow, hrows⟩ := List.forall_mem_cons.mp h
    obtain ⟨body, others, hbody, hothers, rfl⟩ := encodeParts_cons_eq_ok_iff.mp hparts
    obtain ⟨body', others', hbody', hothers', rfl⟩ := encodeParts_cons_eq_ok_iff.mp hparts'
    obtain ⟨hle, hlt⟩ := ih hrows hothers hothers'
    obtain ⟨hfirst, hfirst'⟩ := hrow.footprint_le hbody hbody'
    rw [length_layout_cons, length_layout_cons]
    refine ⟨by omega, ?_⟩
    rintro ⟨row', hmem, hbare⟩
    rcases List.mem_cons.mp hmem with rfl | hmem
    · have := hfirst' hbare
      omega
    · have := hlt ⟨row', hmem, hbare⟩
      omega

/-- A sequence narrows if its components do, whatever octets are in front of it. -/
theorem narrows_of_components {row : Compared} {rows : List Compared} (front headSize headSize' : Nat)
    (hrows : ∀ row ∈ rows, row.Narrows) (hdynamic : row.other.isDynamic = true → row.kind.isDynamic = true)
    (hkind : ∀ {body}, encodeValue row.kind row.value = .ok body →
      ∃ parts, encodeParts (rows.map kind) (rows.map value) = .ok parts ∧
        body.length = front + (layout headSize parts).length)
    (hother : ∀ {body}, encodeValue row.other row.value = .ok body →
      ∃ parts, encodeParts (rows.map other) (rows.map value) = .ok parts ∧
        body.length = front + (layout headSize' parts).length)
    (hbare : row.value.HasBareOffset row.kind → (∃ row ∈ rows, row.value.HasBareOffset row.kind) ∨
      (row.kind.isDynamic = true ∧ row.other.isDynamic = false)) : row.Narrows where
  isDynamic := hdynamic
  length_le hbody hbody' := by
    obtain ⟨parts, hparts, hlength⟩ := hkind hbody
    obtain ⟨parts', hparts', hlength'⟩ := hother hbody'
    obtain ⟨hle, -⟩ := length_layout_of_narrows headSize headSize' hrows hparts hparts'
    omega
  less hbody hbody' h := by
    obtain ⟨parts, hparts, hlength⟩ := hkind hbody
    obtain ⟨parts', hparts', hlength'⟩ := hother hbody'
    obtain ⟨-, hlt⟩ := length_layout_of_narrows headSize headSize' hrows hparts hparts'
    refine (hbare h).imp_left fun hinside => ?_
    have := hlt hinside
    omega

section

variable {rows : List Compared} {f : Compared → Kind} {elem : Kind} {body : Bytes}

theorem exists_parts_of_array (hf : ∀ row ∈ rows, f row = elem)
    (h : encodeValue (.array elem) (.array (rows.map value)) = .ok body) :
    ∃ parts, encodeParts (rows.map f) (rows.map value) = .ok parts ∧
      body.length = 32 + (layout (rows.length * elem.headSize) parts).length := by
  rw [encodeValue_array_eq_ok_iff, List.length_map] at h
  obtain ⟨-, parts, hparts, rfl⟩ := h
  rw [map_eq_replicate hf]
  exact ⟨parts, hparts, by rw [List.length_append, length_countWord]⟩

theorem exists_parts_of_fixedArray (hf : ∀ row ∈ rows, f row = elem)
    (h : encodeValue (.fixedArray elem rows.length) (.fixedArray (rows.map value)) = .ok body) :
    ∃ parts, encodeParts (rows.map f) (rows.map value) = .ok parts ∧
      body.length = 0 + (layout (rows.length * elem.headSize) parts).length := by
  rw [encodeValue_fixedArray_eq_ok_iff, List.length_map] at h
  obtain ⟨-, -, parts, hparts, rfl⟩ := h
  rw [map_eq_replicate hf]
  exact ⟨parts, hparts, (Nat.zero_add _).symm⟩

theorem exists_parts_of_tuple
    (h : encodeValue (.tuple (rows.map f)) (.tuple (rows.map value)) = .ok body) :
    ∃ parts, encodeParts (rows.map f) (rows.map value) = .ok parts ∧
      body.length = 0 + (layout (Kind.headSizes (rows.map f)) parts).length := by
  obtain ⟨-, -, parts, hparts, rfl⟩ := encodeValue_tuple_eq_ok_iff.mp h
  exact ⟨parts, hparts, (Nat.zero_add _).symm⟩

end

/-- Against a type that leaves no bare offset a value takes the fewest octets. -/
theorem narrows_of_hasKind {v : Value} {k o : Kind} (h : v.HasKind k) (h' : v.HasKind o)
    (hb' : ¬ v.HasBareOffset o) : Compared.Narrows ⟨v, k, o⟩ := by
  revert hb'
  refine two_kinds_induction (motive := fun v k o => ¬ v.HasBareOffset o → Compared.Narrows ⟨v, k, o⟩)
    ?elementary ?array ?fixedArray ?tuple h h'
  case elementary =>
    intro v k o hk h h' _
    refine (agree_of_elementary hk h h').narrows fun hbare => ?_
    cases hbare <;> cases hk
  case array =>
    intro rows elem elem' hkind hother ih hb'
    rw [hasBareOffset_array_iff hother] at hb'
    have hrows : ∀ row ∈ rows, row.Narrows := fun row hrow => ih row hrow fun inside => hb' ⟨row, hrow, inside⟩
    exact narrows_of_components 32 _ _ hrows (fun _ => rfl) (exists_parts_of_array hkind)
      (exists_parts_of_array hother) fun hbare => .inl ((hasBareOffset_array_iff hkind).mp hbare)
  case fixedArray =>
    intro rows elem elem' hkind hother ih hb'
    rw [hasBareOffset_fixedArray_iff hother, not_or] at hb'
    have hrows : ∀ row ∈ rows, row.Narrows := fun row hrow => ih row hrow fun inside => hb'.2 ⟨row, hrow, inside⟩
    refine narrows_of_components 0 _ _ hrows (fun hd => ?_) (exists_parts_of_fixedArray hkind)
      (exists_parts_of_fixedArray hother) fun hbare => ?_
    · -- If the elements are dynamic there is one of them, and it is so against its other type, too.
      obtain ⟨row, hrow⟩ := List.exists_mem_of_ne_nil rows fun hnil => hb'.1 ⟨hnil, hd⟩
      have hdynamic := (hrows row hrow).isDynamic
      rw [hkind row hrow, hother row hrow] at hdynamic
      exact hdynamic hd
    · rcases (hasBareOffset_fixedArray_iff hkind).mp hbare with ⟨hnil, hd⟩ | hinside
      · exact .inr ⟨hd, Bool.eq_false_iff.mpr fun hd' => hb'.1 ⟨hnil, hd'⟩⟩
      · exact .inl hinside
  case tuple =>
    intro rows ih hb'
    rw [hasBareOffset_tuple_iff] at hb'
    have hrows : ∀ row ∈ rows, row.Narrows := fun row hrow => ih row hrow fun inside => hb' ⟨row, hrow, inside⟩
    refine narrows_of_components 0 _ _ hrows (fun hd => ?_) exists_parts_of_tuple exists_parts_of_tuple
      fun hbare => .inl (hasBareOffset_tuple_iff.mp hbare)
    simp only [Kind.isDynamic, Kind.anyDynamic_eq_any, List.any_map, List.any_eq_true] at hd ⊢
    obtain ⟨row, hrow, hdynamic⟩ := hd
    exact ⟨row, hrow, (hrows row hrow).isDynamic hdynamic⟩

/-! ### Suggested types -/

mutual

/-- No type that a value suggests leaves a bare offset, whichever of its values is written. -/
theorem Value.not_hasBareOffset_kind : ∀ (suggesting value : Value), ¬ value.HasBareOffset suggesting.kind
  | .array items, _, h => by
    rw [kind] at h
    cases h with
    | array _ inside => exact not_hasBareOffset_elementKind items _ inside
  | .fixedArray [], _, h => by
    rw [kind, elementKind] at h
    cases h with
    | here dynamic => cases dynamic
    | fixedArray _ inside => cases inside
  | .fixedArray (first :: items), _, h => by
    rw [kind] at h
    cases h with
    | fixedArray _ inside => exact not_hasBareOffset_elementKind (first :: items) _ inside
  | .tuple members, _, h => by
    rw [kind] at h
    cases h with
    | tuple mem inside => exact not_hasBareOffset_kinds members _ (List.of_mem_zip mem).2 _ inside
  | .uint _, _, h => by cases h
  | .int _, _, h => by cases h
  | .address _, _, h => by cases h
  | .bool _, _, h => by cases h
  | .fixedBytes _, _, h => by cases h
  | .bytes _, _, h => by cases h
  | .string _, _, h => by cases h

theorem Value.not_hasBareOffset_elementKind : ∀ (items : List Value) (value : Value),
    ¬ value.HasBareOffset (elementKind items)
  | [], _, h => by cases h
  | first :: _, value, h => not_hasBareOffset_kind first value h

theorem Value.not_hasBareOffset_kinds : ∀ (suggesting : List Value), ∀ k ∈ kinds suggesting, ∀ value : Value,
    ¬ value.HasBareOffset k
  | [], k, hk, _ => by cases hk
  | first :: others, k, hk, value => by
    rw [kinds] at hk
    rcases List.mem_cons.mp hk with rfl | hk
    · exact not_hasBareOffset_kind first value
    · exact not_hasBareOffset_kinds others k hk value

end

/-! ### Call data -/

theorem encodeCallUntyped_eq_ok_iff {definition : String} {parsed : Definition} {values : List Value} {data : Bytes}
    (hparsed : Definition.parse definition = .ok parsed) :
    encodeCallUntyped definition values = .ok data ↔
      ∃ arguments, encodeUntyped values = .ok arguments ∧ data = parsed.selector ++ arguments := by
  rw [encodeCallUntyped, hparsed]
  simp only [bind_eq_ok_iff, pure_eq_ok_iff, Except.ok.injEq, exists_eq_left', @eq_comm _ data]

/-- **Arguments are written against the types that they suggest as against the declared ones, unless an array of
length zero with dynamic elements is among them.** Declared so, the array takes the place of an offset in the head
of its sequence, and the data are longer. -/
theorem suggested_layout_is_the_declared_iff {definition : String} {values : List Value} {declared suggested : Bytes}
    (h : encodeCall definition values = .ok declared)
    (h' : encodeCallUntyped definition values = .ok suggested) :
    ∃ parsed, Definition.parse definition = .ok parsed ∧ suggested.length ≤ declared.length ∧
      (declared = suggested ↔ ∀ pair ∈ values.zip parsed.inputKinds, ¬ pair.1.HasBareOffset pair.2) := by
  obtain ⟨parsed, hparsed, -⟩ := bind_eq_ok_iff.mp h
  obtain ⟨data, hdata, rfl⟩ := (encodeCall_eq_ok_iff hparsed).mp h
  obtain ⟨data', hdata', rfl⟩ := (encodeCallUntyped_eq_ok_iff hparsed).mp h'
  simp only [encodeUntyped, encode, bind_eq_ok_iff, behindHead_eq_ok_iff, pure_eq_ok_iff, guard_eq_ok_iff, ne_eq,
    Decidable.not_not] at hdata hdata'
  obtain ⟨hcount, parts, ⟨-, hparts⟩, rfl⟩ := hdata
  obtain ⟨hcount', parts', ⟨-, hparts'⟩, rfl⟩ := hdata'
  refine ⟨parsed, hparsed, ?_⟩
  generalize parsed.inputKinds = kinds at *
  obtain ⟨rows, rfl, rfl, hother⟩ := exists_compared hcount.symm hcount'.symm
  rw [← hother] at hparts' ⊢
  have hkind : ∀ row ∈ rows, row.value.HasKind row.kind := by
    have hall := hasKind_of_encodeParts hparts
    rwa [List.zip_map', List.forall_mem_map] at hall
  have hkind' : ∀ row ∈ rows, row.value.HasKind row.other := by
    have hall := hasKind_of_encodeParts hparts'
    rwa [List.zip_map', List.forall_mem_map] at hall
  have hfree : ∀ row ∈ rows, ¬ row.value.HasBareOffset row.other := fun row hrow =>
    Value.not_hasBareOffset_kinds _ row.other (hother ▸ List.mem_map_of_mem hrow) row.value
  obtain ⟨hle, hlt⟩ := length_layout_of_narrows (Kind.headSizes (rows.map kind)) (Kind.headSizes (rows.map other))
    (fun row hrow => narrows_of_hasKind (hkind row hrow) (hkind' row hrow) (hfree row hrow)) hparts hparts'
  rw [List.length_append, List.length_append, List.zip_map', List.forall_mem_map]
  refine ⟨Nat.add_le_add_left hle _, fun heq row hrow hbare => ?_, fun hnone => ?_⟩
  · rw [List.append_cancel_left_eq] at heq
    exact absurd (congrArg List.length heq) (Nat.ne_of_gt (hlt ⟨row, hrow, hbare⟩))
  · have hagree : ∀ row ∈ rows, row.Agree := fun row hrow =>
      agree_of_hasKind (hkind row hrow) (hkind' row hrow) (hnone row hrow) (hfree row hrow)
    rw [parts_eq_of_agree hagree hparts hparts', headSizes_eq_of_agree hagree]

/-- Empty lists of texts are written as the empty lists of numbers that they suggest. -/
theorem empty_lists_are_written_alike :
    ∃ data : Bytes, encodeCall "f(string[][2])" [.fixedArray [.array [], .array []]] = .ok data ∧
      encodeCallUntyped "f(string[][2])" [.fixedArray [.array [], .array []]] = .ok data ∧ data.length = 164 := by
  have hspells : Spells "string[][2]".toList (.fixedArray (.array .string) 2) :=
    .array (.array (.name (rfl : Kind.ofName? "string".toList = some .string)) (rfl : sizeOf? [] = some none))
      (rfl : sizeOf? ['2'] = some (some 2))
  have hread : readInput "string[][2]".toList = .ok ⟨.fixedArray (.array .string) 2, false⟩ :=
    readInput_of_name (by decide) rfl hspells.parse_eq
  have hparse : Definition.parse "f(string[][2])" = .ok ⟨"f", [⟨.fixedArray (.array .string) 2, false⟩], []⟩ := by
    have hline := parse_of_one_input hspells
    rw [hread] at hline
    exact hline
  obtain ⟨declared, hdeclared, hlength⟩ : ∃ data, encode [.fixedArray (.array .string) 2]
      [.fixedArray [.array [], .array []]] = .ok data ∧ data.length = 160 := ⟨_, rfl, by decide +kernel⟩
  obtain ⟨suggested, hsuggested⟩ : ∃ data, encodeUntyped [.fixedArray [.array [], .array []]] = .ok data := ⟨_, rfl⟩
  have hcall := (encodeCall_eq_ok_iff hparse).mpr ⟨declared, hdeclared, rfl⟩
  have huntyped := (encodeCallUntyped_eq_ok_iff hparse).mpr ⟨suggested, hsuggested, rfl⟩
  obtain ⟨parsed, hparsed, -, hsame⟩ := suggested_layout_is_the_declared_iff hcall huntyped
  obtain rfl := Except.ok.inj (hparse.symm.trans hparsed)
  have heq := hsame.mpr fun pair hpair => by
    obtain rfl := List.mem_singleton.mp hpair
    intro hbare
    cases hbare with
    | fixedArray mem inside =>
      simp only [List.mem_cons, List.not_mem_nil, or_false, or_self] at mem
      subst mem
      cases inside with
      | array mem _ => cases mem
  refine ⟨_, hcall, by rw [huntyped, heq], ?_⟩
  rw [List.length_append, Definition.length_selector, hlength]

/-- Declared as an array of no texts, an array without elements is an offset, and of itself it is nothing. -/
theorem declared_array_of_no_texts_is_an_offset :
    ∃ declared suggested : Bytes, encodeCall "f(string[0])" [.fixedArray []] = .ok declared ∧
      encodeCallUntyped "f(string[0])" [.fixedArray []] = .ok suggested ∧
      declared.length = 36 ∧ suggested.length = 4 ∧ declared ≠ suggested := by
  have hspells : Spells "string[0]".toList (.fixedArray .string 0) :=
    .array (.name (rfl : Kind.ofName? "string".toList = some .string)) (rfl : sizeOf? ['0'] = some (some 0))
  have hread : readInput "string[0]".toList = .ok ⟨.fixedArray .string 0, false⟩ :=
    readInput_of_name (by decide) rfl hspells.parse_eq
  have hparse : Definition.parse "f(string[0])" = .ok ⟨"f", [⟨.fixedArray .string 0, false⟩], []⟩ := by
    have hline := parse_of_one_input hspells
    rw [hread] at hline
    exact hline
  obtain ⟨data, hdata, hlength⟩ : ∃ data, encode [.fixedArray .string 0] [.fixedArray []] = .ok data ∧
      data.length = 32 := ⟨_, rfl, by decide +kernel⟩
  have hnothing : encodeUntyped [.fixedArray []] = .ok [] := rfl
  refine ⟨_, _, (encodeCall_eq_ok_iff hparse).mpr ⟨data, hdata, rfl⟩,
    (encodeCallUntyped_eq_ok_iff hparse).mpr ⟨[], hnothing, rfl⟩, ?_, ?_, ?_⟩
  · rw [List.length_append, Definition.length_selector, hlength]
  · rw [List.length_append, Definition.length_selector, List.length_nil]
  · intro heq
    have hlengths := congrArg List.length heq
    rw [List.length_append, List.length_append, hlength, List.length_nil] at hlengths
    omega

end Abi
end EthWire
