/-
# A sequence is read where its layout puts it

The reader walks over the head of a sequence and follows the offsets into the tail. While it does so it
stands behind what the head has given so far, and the next offset points behind the head and what the
tail has given so far (`readSlots_heads_iff`, where `before` and `between` are the two). So a sequence is
read exactly if each part of its tail is read from where it begins (`ReadFromTail`). That is so as soon as
each slot reads its part, whatever follows, and counts its place in the head as it is (`Slot.Gives`).

Offsets are written in 64 bits, so a layout is below 2^64 octets throughout. A part without octets has no
place in the tail that an offset could point to, so a slot gives no empty part.

Key definitions: `Abi.Part.headLength`, `Abi.Slot.Gives`, `Abi.AllGive`, `Abi.Slot.Fits`, `Abi.ReadFromTail`.
Key theorems: `Abi.readSlots_heads_iff`, `Abi.readSlots_layout_iff`, `Abi.readSlots_layout`,
`Abi.length_layout_of_static`.
-/
import EthWire.Proofs.Abi.Words

namespace EthWire
namespace Abi

/-! ### Sizes -/

/-- The octets that a part takes in the head. -/
def Part.headLength (part : Part) : Nat :=
  if part.isDynamic then 32 else part.body.length

theorem tails_cons (part : Part) (parts : List Part) :
    tails (part :: parts) = (if part.isDynamic then part.body else []) ++ tails parts :=
  List.flatMap_cons

theorem length_heads : ∀ (offset : Nat) (parts : List Part),
    (heads offset parts).length = (parts.map Part.headLength).sum
  | _, [] => rfl
  | offset, ⟨true, body⟩ :: parts => by
    rw [heads, List.length_append, length_countWord, length_heads, List.map_cons, List.sum_cons]
    rfl
  | offset, ⟨false, body⟩ :: parts => by
    rw [heads, List.length_append, length_heads, List.map_cons, List.sum_cons]
    rfl

theorem length_layout (headSize : Nat) (parts : List Part) :
    (layout headSize parts).length = (parts.map Part.headLength).sum + (tails parts).length := by
  rw [layout, List.length_append, length_heads]

theorem length_body_le_of_mem (headSize : Nat) : ∀ {parts : List Part} {part : Part}, part ∈ parts →
    part.body.length ≤ (layout headSize parts).length
  | first :: parts, part, hmem => by
    rw [length_layout, List.map_cons, List.sum_cons, tails_cons, List.length_append]
    rcases List.mem_cons.mp hmem with rfl | hmem
    · cases hd : part.isDynamic
      · simp only [Part.headLength, hd, Bool.false_eq_true, if_false]
        omega
      · simp only [if_true]
        omega
    · have := length_body_le_of_mem headSize hmem
      rw [length_layout] at this
      omega

theorem length_layout_le_cons (headSize : Nat) (part : Part) (parts : List Part) :
    (layout headSize parts).length ≤ (layout headSize (part :: parts)).length := by
  rw [length_layout, length_layout, List.map_cons, List.sum_cons, tails_cons, List.length_append]
  omega

/-! ### Slots that give values -/

/-- The slot reads the part as the value, whatever octets follow. -/
structure Slot.Gives (slot : Slot) (part : Part) (value : Value) : Prop where
  isDynamic : slot.isDynamic = part.isDynamic
  headSize : slot.headSize = part.headLength
  body_ne_nil : part.body ≠ []
  read : ∀ rest, slot.read (part.body ++ rest) = .ok value

/-- Slots, parts and values are equally many, and each slot reads the part at its place as the value
there. -/
inductive AllGive : List Slot → List Part → List Value → Prop where
  | nil : AllGive [] [] []
  | cons {slot : Slot} {part : Part} {value : Value} {slots : List Slot} {parts : List Part}
      {values : List Value} (first : slot.Gives part value) (others : AllGive slots parts values) :
      AllGive (slot :: slots) (part :: parts) (value :: values)

namespace AllGive

variable {slots : List Slot} {parts : List Part} {values : List Value}

theorem sum_headSize (h : AllGive slots parts values) :
    (slots.map (·.headSize)).sum = (parts.map Part.headLength).sum := by
  induction h with
  | nil => rfl
  | cons first _ ih => rw [List.map_cons, List.map_cons, List.sum_cons, List.sum_cons, first.headSize, ih]

theorem headSize_pos (h : AllGive slots parts values) : ∀ slot ∈ slots, 0 < slot.headSize := by
  induction h with
  | nil => simp
  | @cons slot part _ _ _ _ first _ ih =>
    rw [List.forall_mem_cons]
    refine ⟨?_, ih⟩
    have hpos := List.length_pos_iff.mpr first.body_ne_nil
    rw [first.headSize, Part.headLength]
    split <;> omega

/-- Each value takes at least one octet in the head. -/
theorem length_le_sum_headSize (h : AllGive slots parts values) :
    values.length ≤ (slots.map (·.headSize)).sum := by
  induction h with
  | nil => exact Nat.le_refl _
  | @cons slot part _ _ _ _ first others ih =>
    have hpos := (AllGive.cons first others).headSize_pos slot List.mem_cons_self
    rw [List.length_cons, List.map_cons, List.sum_cons]
    omega

theorem tails_eq_nil (h : AllGive slots parts values) (hs : ∀ slot ∈ slots, slot.isDynamic = false) :
    tails parts = [] := by
  induction h with
  | nil => rfl
  | cons first _ ih =>
    rw [List.forall_mem_cons] at hs
    rw [tails_cons, ← first.isDynamic, hs.1, ih hs.2]
    rfl

end AllGive

/-! ### Reading a layout -/

/-- The slot counts the place of the part in the head as it is, and a part that stands there itself is read as
the value, whatever octets follow. -/
structure Slot.Fits (slot : Slot) (part : Part) (value : Value) : Prop where
  isDynamic : slot.isDynamic = part.isDynamic
  headSize : slot.headSize = part.headLength
  static : part.isDynamic = false → ∀ rest, slot.read (part.body ++ rest) = .ok value

/-- Slots, parts and values are equally many, and each slot fits the part and the value at its place. -/
inductive AllFit : List Slot → List Part → List Value → Prop where
  | nil : AllFit [] [] []
  | cons {slot : Slot} {part : Part} {value : Value} {slots : List Slot} {parts : List Part}
      {values : List Value} (first : slot.Fits part value) (others : AllFit slots parts values) :
      AllFit (slot :: slots) (part :: parts) (value :: values)

/-- In a tail with octets behind it, each part begins at an octet, and from there on it is read as the value. -/
def ReadFromTail (rest : Bytes) : List Slot → List Part → List Value → Prop
  | slot :: slots, part :: parts, value :: values =>
    (part.isDynamic = true → part.body ++ (tails parts ++ rest) ≠ [] ∧
      slot.read (part.body ++ (tails parts ++ rest)) = .ok value) ∧ ReadFromTail rest slots parts values
  | _, _, _ => True

theorem readSlots_cons_eq_ok_iff {region : Bytes} {pos : Nat} {slot : Slot} {slots : List Slot} {value : Value}
    {values : List Value} :
    readSlots region pos (slot :: slots) = .ok (value :: values) ↔
      readSlot slot region pos = .ok value ∧ readSlots region (pos + slot.headSize) slots = .ok values := by
  rw [readSlots]
  simp only [bind_eq_ok_iff, pure_eq_ok_iff, List.cons.injEq]
  constructor
  · rintro ⟨_, hfirst, _, hothers, rfl, rfl⟩
    exact ⟨hfirst, hothers⟩
  · rintro ⟨hfirst, hothers⟩
    exact ⟨value, hfirst, values, hothers, rfl, rfl⟩

theorem readSlot_static {slot : Slot} {body : Bytes} {value : Value} (h : slot.Fits ⟨false, body⟩ value)
    (before rest : Bytes) : readSlot slot (before ++ (body ++ rest)) before.length = .ok value := by
  rw [readSlot, h.isDynamic, List.drop_left]
  exact h.static rfl rest

/-- A dynamic part is read where the offset in the head points, if an octet stands there. -/
theorem readSlot_dynamic_iff {slot : Slot} {value : Value} (hdynamic : slot.isDynamic = true) {offset : Nat}
    (before between octets : Bytes) (ho : offset < 2 ^ 64)
    (hpos : offset = before.length + 32 + between.length) :
    readSlot slot (before ++ (countWord offset ++ (between ++ octets))) before.length = .ok value ↔
      octets ≠ [] ∧ slot.read octets = .ok value := by
  have hsplit : before ++ (countWord offset ++ (between ++ octets))
      = (before ++ countWord offset ++ between) ++ octets := by
    simp only [List.append_assoc]
  have hlength : offset = (before ++ countWord offset ++ between).length := by
    rw [List.length_append, List.length_append, length_countWord, hpos]
  have hinside : Bytes.hasAtLeast (offset + 1) (before ++ (countWord offset ++ (between ++ octets))) = true ↔
      octets ≠ [] := by
    rw [Bytes.hasAtLeast_iff, hsplit, List.length_append, ← hlength, ← List.length_pos_iff]
    omega
  have hdrop : (before ++ (countWord offset ++ (between ++ octets))).drop offset = octets := by
    rw [hsplit, List.drop_left' hlength.symm]
  rw [readSlot, hdynamic, if_pos rfl, readCount_append ho]
  simp only [bind, Except.bind]
  rw [throw_eq_error, ite_ok_eq_ok_iff, hinside, hdrop]

/-- The reader behind the parts that it has read: `before` is the head so far, `between` the tail so
far, and what is left of both follows each of them. -/
theorem readSlots_heads_iff {slots : List Slot} {parts : List Part} {values : List Value}
    (h : AllFit slots parts values) : ∀ (before between rest : Bytes) (offset : Nat),
    offset = before.length + (parts.map Part.headLength).sum + between.length →
    offset + (tails parts).length < 2 ^ 64 →
    (readSlots (before ++ (heads offset parts ++ (between ++ (tails parts ++ rest)))) before.length slots
      = .ok values ↔ ReadFromTail rest slots parts values) := by
  induction h with
  | nil => exact fun _ _ _ _ _ _ => iff_of_true rfl trivial
  | @cons slot part value slots parts values first others ih =>
    intro before between rest offset hoffset hlt
    obtain ⟨isDynamic, body⟩ := part
    rw [List.map_cons, List.sum_cons, first.headSize.symm] at hoffset
    rw [tails_cons, List.length_append] at hlt
    rw [readSlots_cons_eq_ok_iff, tails_cons, ReadFromTail]
    cases isDynamic with
    | false =>
      have hsize : slot.headSize = body.length := first.headSize
      have hnext := ih (before ++ body) between rest offset
        (by rw [List.length_append]; omega) (by omega)
      simp only [heads, Bool.false_eq_true, if_false, List.nil_append, List.append_assoc, false_implies]
      rw [List.length_append, List.append_assoc] at hnext
      rw [hsize, hnext]
      exact and_congr_left fun _ => iff_of_true (readSlot_static first _ _) trivial
    | true =>
      have hsize : slot.headSize = 32 := first.headSize
      simp only [if_true] at hlt
      have hnext := ih (before ++ countWord offset) (between ++ body) rest (offset + body.length)
        (by rw [List.length_append, List.length_append, length_countWord]; omega) (by omega)
      have hread := @readSlot_dynamic_iff slot value first.isDynamic _ before
        (heads (offset + body.length) parts ++ between) (body ++ (tails parts ++ rest))
        (show offset < 2 ^ 64 by omega) (by rw [List.length_append, length_heads]; omega)
      simp only [heads, if_true, List.append_assoc, true_implies] at hread hnext ⊢
      rw [List.length_append, length_countWord] at hnext
      rw [hread, hsize, hnext]

namespace AllGive

variable {slots : List Slot} {parts : List Part} {values : List Value}

theorem allFit (h : AllGive slots parts values) : AllFit slots parts values := by
  induction h with
  | nil => exact .nil
  | cons first _ ih => exact .cons ⟨first.isDynamic, first.headSize, fun _ => first.read⟩ ih

theorem readFromTail (h : AllGive slots parts values) (rest : Bytes) : ReadFromTail rest slots parts values := by
  induction h with
  | nil => trivial
  | cons first _ ih => exact ⟨fun _ => ⟨List.append_ne_nil_of_left_ne_nil first.body_ne_nil _, first.read _⟩, ih⟩

end AllGive

section

variable {slots : List Slot} {parts : List Part} {values : List Value} {headSize : Nat}

/-- A layout is read as the values exactly if its tail is. -/
theorem readSlots_layout_iff (h : AllFit slots parts values) (hs : headSize = (parts.map Part.headLength).sum)
    (hlt : (layout headSize parts).length < 2 ^ 64) (rest : Bytes) :
    readSlots (layout headSize parts ++ rest) 0 slots = .ok values ↔ ReadFromTail rest slots parts values := by
  have hread := readSlots_heads_iff h [] [] rest headSize (by rw [hs]; simp)
    (by rwa [hs, ← length_layout headSize])
  simpa [layout] using hread

/-- A layout is read back as the values that its parts hold, whatever follows it. -/
theorem readSlots_layout (h : AllGive slots parts values) (hs : headSize = (slots.map (·.headSize)).sum)
    (hlt : (layout headSize parts).length < 2 ^ 64) (rest : Bytes) :
    readSlots (layout headSize parts ++ rest) 0 slots = .ok values :=
  (readSlots_layout_iff h.allFit (hs.trans h.sum_headSize) hlt rest).mpr (h.readFromTail rest)

theorem headSize_le_length_layout (h : AllGive slots parts values)
    (hs : headSize = (slots.map (·.headSize)).sum) : headSize ≤ (layout headSize parts).length := by
  rw [length_layout, hs, h.sum_headSize]
  exact Nat.le_add_right _ _

theorem length_layout_of_static (h : AllGive slots parts values)
    (hs : headSize = (slots.map (·.headSize)).sum) (hstatic : ∀ slot ∈ slots, slot.isDynamic = false) :
    (layout headSize parts).length = headSize := by
  rw [length_layout, h.tails_eq_nil hstatic, hs, h.sum_headSize]
  rfl

theorem layout_ne_nil (h : AllGive slots parts values) (hs : headSize = (slots.map (·.headSize)).sum)
    (hne : slots ≠ []) : layout headSize parts ≠ [] := by
  obtain ⟨slot, others, rfl⟩ := List.exists_cons_of_ne_nil hne
  have hpos := h.headSize_pos slot List.mem_cons_self
  have hle := headSize_le_length_layout h hs
  rw [List.map_cons, List.sum_cons] at hs
  exact List.ne_nil_of_length_pos (by omega)

end

end Abi
end EthWire
