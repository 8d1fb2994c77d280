/-
# The packed form beside the head and tail layout

Both writers go over the values in the same order and check each of them against its type in the same way, so
they accept the same values and stop at the same one (`Abi.endsAlike_packValue`). They differ in what they write.
The packed form consists of one piece for each leaf, a value that is no array, in order: at top level the octets
that the type needs, inside of an array the whole word of the layout, and strings and octets as they are in both
places (`Abi.Leaf.IsPiece`).

There is one failure that only the layout has. It sets its heads aside before it looks at the values, and a head
can be too large to be set aside, or even to be counted. That ends the program, and a wrong number of elements,
say, is not reported. Where all heads fit, it cannot happen (`Abi.HeadsFit`).

Key definitions: `Abi.FailsReturning`, `Abi.EndsAlike`, `Abi.Leaf`, `Abi.leaves`, `Abi.Leaf.IsPiece`,
`Abi.HeadsFit`.
Key theorems: `Abi.endsAlike_encodePacked`, `Abi.pieces_of_packValue`, `Abi.packed_form_follows_the_layout`.
-/
import EthWire.Abi.Packed
import EthWire.Proofs.Abi.CanonicalText
import EthWire.Proofs.Abi.Event
import EthWire.Proofs.Abi.HeadTail
import Mathlib.Data.List.Forall2

namespace EthWire
namespace Abi

/-! ### Failures that are returned -/

/-- If the run fails, the cause is returned. -/
def FailsReturning {α : Type} (x : Except Error α) : Prop :=
  ∀ cause, x = .error cause → cause.isFatal = false

namespace FailsReturning

variable {α β : Type} {x : Except Error α}

theorem ok (a : α) : FailsReturning (.ok a) := fun _ hfail => by cases hfail

theorem error {cause : Error} (h : cause.isFatal = false) : FailsReturning (.error cause : Except Error α) :=
  fun _ hfail => Except.error.inj hfail ▸ h

theorem bind {f : α → Except Error β} (h : FailsReturning x) (hstep : ∀ a, FailsReturning (f a)) :
    FailsReturning (x >>= f) := by
  intro cause hfail
  rcases bind_eq_error_iff.mp hfail with hfirst | ⟨a, -, hlater⟩
  · exact h cause hfirst
  · exact hstep a cause hlater

theorem behindHead {parts : Except Error (List Part)} {headSize : Nat} (h : FailsReturning parts)
    (hsize : headSize ≤ maxHeadSize) : FailsReturning (behindHead true headSize parts) := by
  unfold Abi.behindHead
  rw [if_neg (by decide), if_pos hsize]
  exact h

end FailsReturning

/-! ### Runs that end alike -/

/-- Two runs both succeed or both fail. If they fail, it is for the same cause, which is returned, unless the
second ends the program. The first never does. -/
inductive EndsAlike {α β : Type} : Except Error α → Except Error β → Prop where
  | ok (a : α) (b : β) : EndsAlike (.ok a) (.ok b)
  | error {cause : Error} (returned : cause.isFatal = false) : EndsAlike (.error cause) (.error cause)
  | breaksOff {cause other : Error} (returned : cause.isFatal = false) (fatal : other.isFatal = true) :
      EndsAlike (.error cause) (.error other)

namespace EndsAlike

variable {α β γ δ : Type} {x : Except Error α} {y : Except Error β}

theorem map (f : α → γ) (g : β → δ) (h : EndsAlike x y) : EndsAlike (x.map f) (y.map g) := by
  cases h with
  | ok a b => exact .ok (f a) (g b)
  | error returned => exact .error returned
  | breaksOff returned fatal => exact .breaksOff returned fatal

theorem bind {f : α → Except Error γ} {g : β → Except Error δ} (h : EndsAlike x y)
    (hsteps : ∀ a b, EndsAlike (f a) (g b)) : EndsAlike (x >>= f) (y >>= g) := by
  cases h with
  | ok a b => exact hsteps a b
  | error returned => exact .error returned
  | breaksOff returned fatal => exact .breaksOff returned fatal

/-- A last step of the second run that cannot fail. -/
theorem bind_pure (g : β → δ) (h : EndsAlike x y) : EndsAlike x (y >>= fun b => pure (g b)) := by
  cases h with
  | ok a b => exact .ok a (g b)
  | error returned => exact .error returned
  | breaksOff returned fatal => exact .breaksOff returned fatal

/-- The second run may come to a head that is too large. -/
theorem behindHead {y : Except Error (List Part)} (size : Nat) (h : EndsAlike x y) :
    EndsAlike x (behindHead true size y) := by
  unfold Abi.behindHead
  rw [if_neg (by decide)]
  by_cases hsize : size ≤ maxHeadSize
  · rw [if_pos hsize]
    exact h
  · have hfatal : (if size ≤ maxCount then Error.abiHeadSize size else .abiHeadSum).isFatal = true := by
      split <;> rfl
    rw [if_neg hsize]
    cases h with
    | ok a b => exact .ok a b
    | error returned => exact .breaksOff returned hfatal
    | breaksOff returned _ => exact .breaksOff returned hfatal

theorem exists_ok_iff (h : EndsAlike x y) : (∃ a, x = .ok a) ↔ ∃ b, y = .ok b := by
  cases h with
  | ok a b => simp
  | error _ => simp
  | breaksOff _ _ => simp

theorem failsReturning (h : EndsAlike x y) : FailsReturning x := by
  cases h with
  | ok a b => exact .ok a
  | error returned => exact .error returned
  | breaksOff returned _ => exact .error returned

/-- The causes are the same exactly if the second run does not end the program. -/
theorem error_iff (h : EndsAlike x y) :
    (∀ cause, x = .error cause ↔ y = .error cause) ↔ FailsReturning y := by
  constructor
  · exact fun hsame cause hfail => h.failsReturning cause ((hsame cause).mpr hfail)
  · intro hreturning
    cases h with
    | ok a b => simp
    | error _ => simp
    | @breaksOff cause other _ fatal =>
      rw [hreturning other rfl] at fatal
      cases fatal

end EndsAlike

theorem endsAlike_mismatch {α β : Type} (kind : Kind) :
    EndsAlike (.error (.abiMismatch kind.text) : Except Error α) (.error (.abiMismatch kind.text) : Except Error β) :=
  .error rfl

theorem endsAlike_checkedInteger (kind : Kind) (fits : Bool) (word : Word) :
    EndsAlike (checkedInteger kind fits word) (checkedInteger kind fits word) := by
  unfold checkedInteger
  by_cases hfits : fits = true
  · rw [if_pos hfits]
    exact .ok word word
  · rw [if_neg hfits]
    exact .error rfl

theorem endsAlike_checkedFixedBytes (size : Nat) (content : Bytes) :
    EndsAlike (checkedFixedBytes size content) (checkedFixedBytes size content) := by
  unfold checkedFixedBytes
  by_cases hsize : size < 1 ∨ 32 < size
  · rw [if_pos hsize]
    exact .error rfl
  · rw [if_neg hsize]
    by_cases hlength : content.length ≠ size
    · rw [if_pos hlength]
      exact .error rfl
    · rw [if_neg hlength]
      exact .ok content content

/-! ### Both writers accept the same values -/

/-- There is no tuple in the type. -/
def Kind.isTupleFree : Kind → Bool
  | .tuple _ => false
  | .array elem => elem.isTupleFree
  | .fixedArray elem _ => elem.isTupleFree
  | _ => true

/-- Only tuples have sums in their head sizes. -/
theorem Kind.isCounted_of_isTupleFree : ∀ {kind : Kind}, kind.isTupleFree = true → kind.isCounted = true
  | .fixedArray elem _, h => by
    have helem : elem.isTupleFree = true := h
    rw [isCounted, isCounted_of_isTupleFree helem, Bool.or_true]
  | .tuple _, h => by cases h
  | .uint _, _ | .int _, _ | .address, _ | .bool, _ | .fixedBytes _, _ | .bytes, _ | .string, _ | .array _, _ => rfl

theorem Kind.allCounted_of_isTupleFree {kinds : List Kind} (h : ∀ kind ∈ kinds, kind.isTupleFree = true) :
    allCounted kinds = true :=
  allCounted_iff.mpr fun kind hkind => isCounted_of_isTupleFree (h kind hkind)

theorem endsAlike_packAll {elem : Kind}
    (h : ∀ item, EndsAlike (packValue true elem item) (encodeValue elem item)) : ∀ items : List Value,
    EndsAlike (packAll elem items) (encodeParts (List.replicate items.length elem) items)
  | [] => .ok _ _
  | item :: items => by
    rw [packAll, List.length_cons, List.replicate_succ, encodeParts]
    apply (h item).bind
    intro first body
    apply (endsAlike_packAll h items).bind
    intro rest parts
    exact .ok _ _

/-- A value is packed exactly if it is laid out, and otherwise both stop for the same cause. -/
theorem endsAlike_packValue : ∀ {kind : Kind} (inArray : Bool) (value : Value), kind.isTupleFree = true →
    EndsAlike (packValue inArray kind value) (encodeValue kind value)
  | .uint bits, inArray, value, _ => by
    cases value with
    | uint word => exact (endsAlike_checkedInteger (.uint bits) (fitsUint word bits) word).map _ _
    | _ => exact endsAlike_mismatch (.uint bits)
  | .int bits, inArray, value, _ => by
    cases value with
    | int word => exact (endsAlike_checkedInteger (.int bits) (fitsInt word bits) word).map _ _
    | _ => exact endsAlike_mismatch (.int bits)
  | .address, inArray, value, _ => by
    cases value with
    | address a => exact .ok _ _
    | _ => exact endsAlike_mismatch .address
  | .bool, inArray, value, _ => by
    cases value with
    | bool flag => exact .ok _ _
    | _ => exact endsAlike_mismatch .bool
  | .fixedBytes size, inArray, value, _ => by
    cases value with
    | fixedBytes content => exact (endsAlike_checkedFixedBytes size content).map _ _
    | _ => exact endsAlike_mismatch (.fixedBytes size)
  | .bytes, inArray, value, _ => by
    cases value with
    | bytes content => exact .ok _ _
    | _ => exact endsAlike_mismatch .bytes
  | .string, inArray, value, _ => by
    cases value with
    | string content => exact .ok _ _
    | _ => exact endsAlike_mismatch .string
  | .array elem, inArray, value, h => by
    have helem : elem.isTupleFree = true := h
    cases value with
    | array items =>
      have hitems := endsAlike_packAll (fun item => endsAlike_packValue true item helem) items
      rw [packValue, encodeValue, Kind.isCounted_of_isTupleFree helem, Bool.or_true]
      exact (hitems.behindHead _).bind_pure _
    | _ => exact endsAlike_mismatch (.array elem)
  | .fixedArray elem length, inArray, value, h => by
    have helem : elem.isTupleFree = true := h
    cases value with
    | fixedArray items =>
      have hitems := endsAlike_packAll (fun item => endsAlike_packValue true item helem) items
      rw [packValue, encodeValue, Kind.isCounted_of_isTupleFree helem, Bool.or_true]
      by_cases hcount : items.length ≠ length
      · rw [if_pos hcount, if_pos hcount]
        exact .error rfl
      · rw [if_neg hcount, if_neg hcount]
        exact (hitems.behindHead _).bind_pure _
    | _ => exact endsAlike_mismatch (.fixedArray elem length)
  | .tuple members, _, _, h => by cases h

theorem endsAlike_packValues : ∀ {kinds : List Kind} (values : List Value), (∀ kind ∈ kinds, kind.isTupleFree = true) →
    EndsAlike ((kinds.zip values).mapM fun (kind, value) => packValue false kind value) (encodeParts kinds values)
  | [], [], _ => .ok _ _
  | [], _ :: _, _ => .ok _ _
  | _ :: _, [], _ => .ok _ _
  | kind :: kinds, value :: values, h => by
    obtain ⟨hkind, hkinds⟩ := List.forall_mem_cons.mp h
    rw [List.zip_cons_cons, List.mapM_cons, encodeParts]
    apply (endsAlike_packValue false value hkind).bind
    intro piece body
    apply (endsAlike_packValues values hkinds).bind
    intro pieces parts
    exact .ok _ _

/-- Both writers accept the same parameter lists. -/
theorem endsAlike_encodePacked {kinds : List Kind} (values : List Value)
    (h : ∀ kind ∈ kinds, kind.isTupleFree = true) : EndsAlike (encodePacked kinds values) (encode kinds values) := by
  unfold encodePacked encode
  rw [Kind.allCounted_of_isTupleFree h]
  by_cases hcount : kinds.length ≠ values.length
  · rw [if_pos hcount, if_pos hcount]
    exact .error rfl
  · rw [if_neg hcount, if_neg hcount]
    apply ((endsAlike_packValues values h).behindHead _).bind
    intro pieces parts
    exact .ok _ _

/-! ### Leaves and their pieces -/

/-- A value that is no array, with the type that it is written against, and whether it stands in an array. -/
structure Leaf where
  inArray : Bool
  kind : Kind
  value : Value

mutual

/-- The leaves of a value from left to right. -/
def leaves (inArray : Bool) : Kind → Value → List Leaf
  | .array elem, .array items => elementLeaves elem items
  | .fixedArray elem _, .fixedArray items => elementLeaves elem items
  | kind, value => [⟨inArray, kind, value⟩]

/-- The leaves of the elements of an array. -/
def elementLeaves (elem : Kind) : List Value → List Leaf
  | [] => []
  | item :: items => leaves true elem item ++ elementLeaves elem items

end

/-- The leaves of the values of a parameter list. -/
def leavesOf (kinds : List Kind) (values : List Value) : List Leaf :=
  (kinds.zip values).flatMap fun (kind, value) => leaves false kind value

/-- The octets are the piece of the leaf. -/
inductive Leaf.IsPiece : Leaf → Bytes → Prop where
  | uint {bits : Nat} {word : Word} {piece : Bytes} (length : piece.length = bits / 8)
      (number : Bytes.ofBigEndian piece = word.toNat % 2 ^ bits) : IsPiece ⟨false, .uint bits, .uint word⟩ piece
  | int {bits : Nat} {word : Word} {piece : Bytes} (length : piece.length = bits / 8)
      (number : Bytes.ofBigEndian piece = word.toNat % 2 ^ bits) : IsPiece ⟨false, .int bits, .int word⟩ piece
  | address (a : Address) : IsPiece ⟨false, .address, .address a⟩ a.toBytes
  | bool (flag : Bool) : IsPiece ⟨false, .bool, .bool flag⟩ [if flag then 1 else 0]
  | fixedBytes (size : Nat) (content : Bytes) : IsPiece ⟨false, .fixedBytes size, .fixedBytes content⟩ content
  | word {kind : Kind} {value : Value} {piece : Bytes} (atomic : kind.isAtomic = true)
      (written : encodeValue kind value = .ok piece) (length : piece.length = 32) : IsPiece ⟨true, kind, value⟩ piece
  | bytes (inArray : Bool) (content : Bytes) : IsPiece ⟨inArray, .bytes, .bytes content⟩ content
  | string (inArray : Bool) (content : String) : IsPiece ⟨inArray, .string, .string content⟩ (Text.octets content)

theorem Leaf.IsPiece.unique {leaf : Leaf} {piece other : Bytes} (h : leaf.IsPiece piece) (h' : leaf.IsPiece other) :
    piece = other := by
  cases h with
  | uint length number =>
    cases h' with
    | uint length' number' => exact Bytes.ofBigEndian_inj (length.trans length'.symm) (number.trans number'.symm)
  | int length number =>
    cases h' with
    | int length' number' => exact Bytes.ofBigEndian_inj (length.trans length'.symm) (number.trans number'.symm)
  | address a => cases h' with
    | address _ => rfl
  | bool flag => cases h' with
    | bool _ => rfl
  | fixedBytes size content => cases h' with
    | fixedBytes _ _ => rfl
  | word atomic written length =>
    cases h' with
    | word _ written' _ => exact Except.ok.inj (written.symm.trans written')
    | bytes => cases atomic
    | string => cases atomic
  | bytes inArray content =>
    cases h' with
    | word atomic _ _ => cases atomic
    | bytes _ _ => rfl
  | string inArray content =>
    cases h' with
    | word atomic _ _ => cases atomic
    | string _ _ => rfl

/-- The octets are the pieces of the leaves, one behind the other. -/
def ArePieces (leaves : List Leaf) (octets : Bytes) : Prop :=
  ∃ pieces, List.Forall₂ Leaf.IsPiece leaves pieces ∧ octets = pieces.flatten

namespace ArePieces

theorem nil : ArePieces [] [] := ⟨[], .nil, rfl⟩

theorem of_leaf {leaf : Leaf} {piece : Bytes} (h : leaf.IsPiece piece) : ArePieces [leaf] piece :=
  ⟨[piece], .cons h .nil, by simp⟩

theorem append {front behind : List Leaf} {octets others : Bytes} (h : ArePieces front octets)
    (h' : ArePieces behind others) : ArePieces (front ++ behind) (octets ++ others) := by
  obtain ⟨pieces, hpieces, rfl⟩ := h
  obtain ⟨more, hmore, rfl⟩ := h'
  exact ⟨pieces ++ more, List.rel_append hpieces hmore, List.flatten_append.symm⟩

theorem unique {leaves : List Leaf} {octets others : Bytes} (h : ArePieces leaves octets)
    (h' : ArePieces leaves others) : octets = others := by
  obtain ⟨pieces, hpieces, rfl⟩ := h
  obtain ⟨more, hmore, rfl⟩ := h'
  induction hpieces generalizing more with
  | nil =>
    cases hmore
    rfl
  | cons hpiece _ ih =>
    cases hmore with
    | cons hother hothers => rw [List.flatten_cons, List.flatten_cons, hpiece.unique hother, ih _ hothers]

end ArePieces

/-! ### What is packed -/

theorem length_packWord {bits : Nat} (hle : bits ≤ 256) (word : Word) :
    (packWord false bits word).length = bits / 8 := by
  rw [packWord, if_neg (by simp), List.length_drop, Word.length_toBytes]
  omega

/-- The low octets of an address's word are its own. -/
theorem packWord_toWord (a : Address) : packWord false 160 a.toWord = a.toBytes := by
  have hnumber : a.toWord.toNat % 2 ^ 160 = a.value.toNat := by
    have hlt := a.value.isLt
    rw [Address.toWord, BitVec.toNat_setWidth]
    omega
  apply Bytes.ofBigEndian_inj
  · rw [length_packWord (by decide), Address.length_toBytes]
  · rw [packWord, if_neg (by simp), ofBigEndian_drop_toBytes (by decide) (by decide), hnumber, Address.toBytes,
      Bytes.ofBigEndian_toBigEndian]
    exact (Nat.mod_eq_of_lt a.value.isLt).symm

theorem packValue_true_of_atomic {kind : Kind} (h : kind.isAtomic = true) (value : Value) :
    packValue true kind value = encodeValue kind value := by
  cases kind with
  | uint bits => cases value <;> rfl
  | int bits => cases value <;> rfl
  | address => cases value <;> rfl
  | bool => cases value <;> rfl
  | fixedBytes size => cases value <;> rfl
  | _ => cases h

section

variable {kind : Kind} {value : Value} {packed : Bytes}

/-- At top level an atomic value is packed into the octets that its type needs. -/
theorem isPiece_of_packValue_false (hatomic : kind.isAtomic = true) (hadmitted : kind.IsAdmitted)
    (h : packValue false kind value = .ok packed) : Leaf.IsPiece ⟨false, kind, value⟩ packed := by
  cases hadmitted with
  | @uint bits width =>
    cases value with
    | uint word =>
      obtain ⟨_, hword, rfl⟩ := map_eq_ok_iff.mp h
      obtain ⟨-, rfl⟩ := checkedInteger_eq_ok_iff.mp hword
      exact .uint (length_packWord width.greatest word) (ofBigEndian_drop_toBytes width.whole width.greatest word)
    | _ => cases h
  | @int bits width =>
    cases value with
    | int word =>
      obtain ⟨_, hword, rfl⟩ := map_eq_ok_iff.mp h
      obtain ⟨-, rfl⟩ := checkedInteger_eq_ok_iff.mp hword
      exact .int (length_packWord width.greatest word) (ofBigEndian_drop_toBytes width.whole width.greatest word)
    | _ => cases h
  | address =>
    cases value with
    | address a =>
      obtain rfl := Except.ok.inj h
      rw [packWord_toWord]
      exact .address a
    | _ => cases h
  | bool =>
    cases value with
    | bool flag =>
      obtain rfl := Except.ok.inj h
      have hpiece : packWord false 8 (boolWord flag) = [if flag then 1 else 0] := by cases flag <;> rfl
      rw [hpiece]
      exact .bool flag
    | _ => cases h
  | @fixedBytes size least greatest =>
    cases value with
    | fixedBytes content =>
      obtain ⟨_, hcontent, rfl⟩ := map_eq_ok_iff.mp h
      obtain ⟨-, -, -, rfl⟩ := checkedFixedBytes_eq_ok_iff.mp hcontent
      exact .fixedBytes size content
    | _ => cases h
  | _ => cases hatomic

theorem isPiece_of_packValue {inArray : Bool} (hkind : kind.isSequence = false) (hadmitted : kind.IsAdmitted)
    (h : packValue inArray kind value = .ok packed) : Leaf.IsPiece ⟨inArray, kind, value⟩ packed := by
  by_cases hatomic : kind.isAtomic = true
  · cases inArray with
    | false => exact isPiece_of_packValue_false hatomic hadmitted h
    | true =>
      rw [packValue_true_of_atomic hatomic] at h
      have hheld : kind.isHashedTopic = false := by
        cases kind <;> first | rfl | cases hatomic
      exact .word hatomic h (length_of_encodeValue hheld h)
  · -- strings and octets, which are packed alike in both places
    cases kind with
    | bytes =>
      cases value with
      | bytes content =>
        obtain rfl := Except.ok.inj h
        exact .bytes inArray content
      | _ => cases h
    | string =>
      cases value with
      | string content =>
        obtain rfl := Except.ok.inj h
        exact .string inArray content
      | _ => cases h
    | array elem => cases hkind
    | fixedArray elem length => cases hkind
    | tuple members => cases hkind
    | _ => exact absurd rfl hatomic

theorem leaves_of_elementary (hkind : kind.isSequence = false) (inArray : Bool) (value : Value) :
    leaves inArray kind value = [⟨inArray, kind, value⟩] := by
  cases kind with
  | array elem => cases hkind
  | fixedArray elem length => cases hkind
  | tuple members => cases hkind
  | _ => cases value <;> rfl

end

theorem pieces_of_packAll {elem : Kind}
    (h : ∀ {item : Value} {packed : Bytes}, packValue true elem item = .ok packed →
      ArePieces (leaves true elem item) packed) : ∀ {items : List Value} {packed : Bytes},
    packAll elem items = .ok packed → ArePieces (elementLeaves elem items) packed
  | [], packed, hpacked => by
    obtain rfl := Except.ok.inj hpacked
    exact .nil
  | item :: items, packed, hpacked => by
    rw [packAll] at hpacked
    simp only [bind_eq_ok_iff, pure_eq_ok_iff] at hpacked
    obtain ⟨first, hfirst, rest, hrest, rfl⟩ := hpacked
    exact (h hfirst).append (pieces_of_packAll h hrest)

/-- A value is packed into the pieces of its leaves. -/
theorem pieces_of_packValue : ∀ {kind : Kind} {inArray : Bool} {value : Value} {packed : Bytes},
    kind.isTupleFree = true → kind.IsAdmitted → packValue inArray kind value = .ok packed →
    ArePieces (leaves inArray kind value) packed
  | .array elem, inArray, value, packed, htuple, hadmitted, h => by
    have helem : elem.isTupleFree = true := htuple
    cases hadmitted with
    | array elem_admitted =>
      cases value with
      | array items =>
        rw [packValue] at h
        exact pieces_of_packAll (pieces_of_packValue helem elem_admitted) h
      | _ => cases h
  | .fixedArray elem length, inArray, value, packed, htuple, hadmitted, h => by
    have helem : elem.isTupleFree = true := htuple
    cases hadmitted with
    | fixedArray elem_admitted count =>
      cases value with
      | fixedArray items =>
        rw [packValue, ite_error_eq_ok_iff] at h
        exact pieces_of_packAll (pieces_of_packValue helem elem_admitted) h.2
      | _ => cases h
  | .tuple members, _, _, _, htuple, _, _ => by cases htuple
  | .uint _, _, _, _, _, hadmitted, h | .int _, _, _, _, _, hadmitted, h | .address, _, _, _, _, hadmitted, h
  | .bool, _, _, _, _, hadmitted, h | .fixedBytes _, _, _, _, _, hadmitted, h | .bytes, _, _, _, _, hadmitted, h
  | .string, _, _, _, _, hadmitted, h => by
    rw [leaves_of_elementary rfl]
    exact .of_leaf (isPiece_of_packValue rfl hadmitted h)

theorem pieces_of_encodePacked {kinds : List Kind} {values : List Value} {packed : Bytes}
    (htuple : ∀ kind ∈ kinds, kind.isTupleFree = true) (hadmitted : ∀ kind ∈ kinds, kind.IsAdmitted)
    (h : encodePacked kinds values = .ok packed) : ArePieces (leavesOf kinds values) packed := by
  unfold encodePacked at h
  simp only [guard_eq_ok_iff, bind_eq_ok_iff, pure_eq_ok_iff] at h
  obtain ⟨-, pieces, hpieces, rfl⟩ := h
  unfold leavesOf
  induction kinds generalizing values pieces with
  | nil =>
    obtain rfl : [] = pieces := pure_eq_ok_iff.mp hpieces
    exact .nil
  | cons kind kinds ih =>
    cases values with
    | nil =>
      obtain rfl : [] = pieces := pure_eq_ok_iff.mp hpieces
      exact .nil
    | cons value values =>
      obtain ⟨piece, others, hpiece, hothers, rfl⟩ := mapM_cons_eq_ok_iff.mp hpieces
      obtain ⟨hkind, hkinds⟩ := List.forall_mem_cons.mp htuple
      obtain ⟨hfirst, hlater⟩ := List.forall_mem_cons.mp hadmitted
      exact (pieces_of_packValue hkind hfirst hpiece).append (ih hkinds hlater others hothers)

/-! ### Heads that fit -/

/-- The heads that are set aside for the value and for the arrays in it are not too large. -/
def Value.HeadsFit : Kind → Value → Prop
  | .array elem, .array items => items.length * elem.headSize ≤ maxHeadSize ∧ ∀ item ∈ items, HeadsFit elem item
  | .fixedArray elem _, .fixedArray items =>
    items.length * elem.headSize ≤ maxHeadSize ∧ ∀ item ∈ items, HeadsFit elem item
  | _, _ => True

/-- The heads that are set aside for the parameter list and for the arrays in it are not too large. -/
def HeadsFit (kinds : List Kind) (values : List Value) : Prop :=
  Kind.headSizes kinds ≤ maxHeadSize ∧ ∀ pair ∈ values.zip kinds, pair.1.HeadsFit pair.2

theorem failsReturning_encodeParts : ∀ {values : List Value} {kinds : List Kind},
    (∀ pair ∈ values.zip kinds, FailsReturning (encodeValue pair.2 pair.1)) →
    FailsReturning (encodeParts kinds values)
  | [], [], _ => .ok _
  | [], _ :: _, _ => .ok _
  | _ :: _, [], _ => .ok _
  | value :: values, kind :: kinds, h => by
    rw [List.zip_cons_cons, List.forall_mem_cons] at h
    rw [encodeParts]
    apply h.1.bind
    intro body
    apply (failsReturning_encodeParts h.2).bind
    intro parts
    exact .ok _

/-- Where the heads fit, the layout of a value does not end the program. -/
theorem Value.HeadsFit.failsReturning : ∀ {kind : Kind} {value : Value}, kind.isTupleFree = true →
    value.HeadsFit kind → FailsReturning (encodeValue kind value)
  | .array elem, value, htuple, hfit => by
    have helem : elem.isTupleFree = true := htuple
    cases value with
    | array items =>
      have hparts : FailsReturning (encodeParts (List.replicate items.length elem) items) :=
        failsReturning_encodeParts
          (forall_mem_zip_replicate_iff.mpr fun item hitem => (hfit.2 item hitem).failsReturning helem)
      rw [encodeValue, Kind.isCounted_of_isTupleFree helem, Bool.or_true]
      exact (hparts.behindHead hfit.1).bind fun parts => .ok _
    | _ => exact .error rfl
  | .fixedArray elem length, value, htuple, hfit => by
    have helem : elem.isTupleFree = true := htuple
    cases value with
    | fixedArray items =>
      have hparts : FailsReturning (encodeParts (List.replicate items.length elem) items) :=
        failsReturning_encodeParts
          (forall_mem_zip_replicate_iff.mpr fun item hitem => (hfit.2 item hitem).failsReturning helem)
      rw [encodeValue, Kind.isCounted_of_isTupleFree helem, Bool.or_true]
      by_cases hcount : items.length ≠ length
      · rw [if_pos hcount]
        exact .error rfl
      · rw [if_neg hcount]
        exact (hparts.behindHead hfit.1).bind fun parts => .ok _
    | _ => exact .error rfl
  | .bytes, value, _, _ => by
    cases value with
    | bytes content => exact .ok _
    | _ => exact .error rfl
  | .string, value, _, _ => by
    cases value with
    | string content => exact .ok _
    | _ => exact .error rfl
  | .tuple members, _, htuple, _ => by cases htuple
  | .uint _, value, htuple, _ | .int _, value, htuple, _ | .address, value, htuple, _
  | .bool, value, htuple, _ | .fixedBytes _, value, htuple, _ => by
    have hself := endsAlike_packValue true value htuple
    rw [packValue_true_of_atomic rfl] at hself
    exact hself.error_iff.mp fun _ => Iff.rfl

theorem HeadsFit.failsReturning {kinds : List Kind} {values : List Value}
    (htuple : ∀ kind ∈ kinds, kind.isTupleFree = true) (hfit : HeadsFit kinds values) :
    FailsReturning (encode kinds values) := by
  have hparts : FailsReturning (encodeParts kinds values) := failsReturning_encodeParts fun pair hpair =>
    (hfit.2 pair hpair).failsReturning (htuple pair.2 (List.of_mem_zip hpair).2)
  unfold encode
  rw [Kind.allCounted_of_isTupleFree htuple]
  by_cases hcount : kinds.length ≠ values.length
  · rw [if_pos hcount]
    exact .error rfl
  · rw [if_neg hcount]
    exact (hparts.behindHead hfit.1).bind fun parts => .ok _

/-! ### Both forms side by side -/

/-- **The packed form follows the layout**: it is there for the same parameter lists, and it consists of the pieces
of the leaves in order. Where it is not there, it returns the cause, and that is the layout's cause exactly if the
layout returns one, too; it does where all heads fit. -/
theorem packed_form_follows_the_layout {kinds : List Kind} (values : List Value)
    (htuple : ∀ kind ∈ kinds, kind.isTupleFree = true) (hadmitted : ∀ kind ∈ kinds, kind.IsAdmitted) :
    (∀ packed, encodePacked kinds values = .ok packed ↔
      (∃ data, encode kinds values = .ok data) ∧
        ∃ pieces, List.Forall₂ Leaf.IsPiece (leavesOf kinds values) pieces ∧ packed = pieces.flatten) ∧
    FailsReturning (encodePacked kinds values) ∧
    ((∀ cause, encodePacked kinds values = .error cause ↔ encode kinds values = .error cause) ↔
      FailsReturning (encode kinds values)) ∧
    (HeadsFit kinds values → FailsReturning (encode kinds values)) := by
  have halike := endsAlike_encodePacked values htuple
  refine ⟨fun packed => ?_, halike.failsReturning, halike.error_iff,
    fun hfit => hfit.failsReturning htuple⟩
  constructor
  · intro hpacked
    exact ⟨halike.exists_ok_iff.mp ⟨packed, hpacked⟩, pieces_of_encodePacked htuple hadmitted hpacked⟩
  · rintro ⟨hdata, hpieces⟩
    obtain ⟨packed', hpacked⟩ := halike.exists_ok_iff.mpr hdata
    have hsame : packed = packed' := ArePieces.unique hpieces (pieces_of_encodePacked htuple hadmitted hpacked)
    rw [hsame, hpacked]

/-- A number of two octets, an element that takes a whole word, and a text as it is. -/
theorem element_is_packed_as_a_word :
    encodePacked [.uint 16, .array (.uint 8), .string] [.uint 0x0102, .array [.uint 7], .string "hi"]
        = .ok ([1, 2] ++ (List.replicate 31 0 ++ [7]) ++ [104, 105]) ∧
      ∃ data, encode [.uint 16, .array (.uint 8), .string] [.uint 0x0102, .array [.uint 7], .string "hi"]
        = .ok data := by
  have hpacked : encodePacked [.uint 16, .array (.uint 8), .string] [.uint 0x0102, .array [.uint 7], .string "hi"]
      = .ok ([1, 2] ++ (List.replicate 31 0 ++ [7]) ++ [104, 105]) := rfl
  have hadmitted : ∀ kind ∈ [Kind.uint 16, .array (.uint 8), .string], kind.IsAdmitted := by
    simpa using ⟨Kind.IsAdmitted.uint ⟨rfl, by decide, by decide⟩,
      Kind.IsAdmitted.array (.uint ⟨rfl, by decide, by decide⟩), Kind.IsAdmitted.string⟩
  have hfollows := packed_form_follows_the_layout [.uint 0x0102, .array [.uint 7], .string "hi"]
    (List.all_eq_true.mp rfl) hadmitted
  exact ⟨hpacked, ((hfollows.1 _).mp hpacked).1⟩

/-- An array is to have as many elements as can be counted and has none. The packed form says so; the layout wants
to set its head aside first, and ends the program. -/
theorem missing_elements_are_not_reported :
    encodePacked [.fixedArray (.uint 8) 18446744073709551615] [.fixedArray []]
        = .error (.abiCount 18446744073709551615 0) ∧
      encode [.fixedArray (.uint 8) 18446744073709551615] [.fixedArray []]
        = .error (.abiHeadSize 18446744073709551615) :=
  ⟨rfl, rfl⟩

-- Beside a flag, such an array has a head that is not even counted.
example : encode [.fixedArray (.uint 8) 18446744073709551615, .bool] [.fixedArray [], .bool true]
    = .error .abiHeadSum := rfl

end Abi
end EthWire
