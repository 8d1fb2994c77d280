/-
# Sequences are heads and tails

What a sequence of values is written as is described by places. In the head each component has the place that
its type counts for it (`Abi.Kind.headSize`), one behind the other: a static component stands there itself, and
for a dynamic one the word stands there that says where it begins. It begins behind the head and behind the
dynamic components in front of it, and nothing follows the last one (`Abi.IsHeadTail`). A written value is laid
out if each sequence in it, at whatever level, is such a head and tail by itself (`Abi.LaidOut`).

The writer counts the head by the types before any component is written. So that the offsets are right, a
static value must take as many octets as its type counts. This is shown along the writer
(`Abi.written_induction`), for the components of a sequence first: below 2^64 octets no count is cut off.

Key definitions: `Abi.Component`, `Abi.IsHeadTail`, `Abi.LaidOut`.
Key theorems: `Abi.written_induction`, `Abi.length_body`, `Abi.isHeadTail_written`,
`Abi.written_values_are_laid_out`.
-/
import EthWire.Proofs.Abi.Typing

namespace EthWire

/-- The octets stand in the data at a position. -/
def Bytes.StandsAt (octets : Bytes) (pos : Nat) (data : Bytes) : Prop :=
  ∃ before behind, data = before ++ (octets ++ behind) ∧ before.length = pos

namespace Abi

/-! ### Components -/

/-- A value in a sequence: its type, and the octets that it is written as. -/
structure Component where
  kind : Kind
  value : Value
  body : Bytes

namespace Component

/-- The octets are what the value is written as by itself. -/
def IsWritten (component : Component) : Prop :=
  encodeValue component.kind component.value = .ok component.body

/-- The component as a part of a layout. -/
def part (component : Component) : Part :=
  ⟨component.kind.isDynamic, component.body⟩

/-- The octets of the head: the sum of what the types count there. -/
def headSize (components : List Component) : Nat :=
  Kind.headSizes (components.map kind)

/-- The octets of the tail: those of the dynamic components. -/
def tailSize : List Component → Nat
  | [] => 0
  | c :: cs => (if c.kind.isDynamic then c.body.length else 0) + tailSize cs

/-- The layout that the writer makes of the components. -/
def written (components : List Component) : Bytes :=
  layout (headSize components) (components.map part)

end Component

/-- The data are the head and the tail of the components. Each component is looked at together with those in
front of it, whose sizes give its places in the head and in the tail. -/
structure IsHeadTail (components : List Component) (data : Bytes) : Prop where
  whole_words : 32 ∣ data.length
  /-- Nothing follows the tail. -/
  length : data.length = Component.headSize components + Component.tailSize components
  /-- A static component stands in the head and fills its place. -/
  static : ∀ front c behind, components = front ++ c :: behind → c.kind.isDynamic = false →
    c.body.length = c.kind.headSize ∧ c.body.StandsAt (Component.headSize front) data
  /-- Of a dynamic component there stands in the head where it begins, and there it stands in the tail. -/
  dynamic : ∀ front c behind, components = front ++ c :: behind → c.kind.isDynamic = true →
    c.kind.headSize = 32 ∧
    (Word.toBytes (BitVec.ofNat 256 (Component.headSize components + Component.tailSize front))).StandsAt
      (Component.headSize front) data ∧
    c.body.StandsAt (Component.headSize components + Component.tailSize front) data

/-- Every sequence in a written value is a head and a tail of components, each of which is written by itself
and laid out in turn. -/
inductive LaidOut : Kind → Value → Bytes → Prop where
  | elementary {kind : Kind} {value : Value} {body : Bytes} (kind_eq : kind.isSequence = false)
      (written : encodeValue kind value = .ok body) : LaidOut kind value body
  | array {elem : Kind} {items : List Value} {components : List Component} {data : Bytes}
      (kinds : components.map Component.kind = List.replicate items.length elem)
      (values : components.map Component.value = items)
      (written : ∀ c ∈ components, c.IsWritten) (inside : ∀ c ∈ components, LaidOut c.kind c.value c.body)
      (sequence : IsHeadTail components data) :
      LaidOut (.array elem) (.array items) (countWord items.length ++ data)
  | fixedArray {elem : Kind} {items : List Value} {components : List Component} {data : Bytes}
      (kinds : components.map Component.kind = List.replicate items.length elem)
      (values : components.map Component.value = items)
      (written : ∀ c ∈ components, c.IsWritten) (inside : ∀ c ∈ components, LaidOut c.kind c.value c.body)
      (sequence : IsHeadTail components data) :
      LaidOut (.fixedArray elem items.length) (.fixedArray items) data
  | tuple {members : List Kind} {items : List Value} {components : List Component} {data : Bytes}
      (kinds : components.map Component.kind = members) (values : components.map Component.value = items)
      (written : ∀ c ∈ components, c.IsWritten) (inside : ∀ c ∈ components, LaidOut c.kind c.value c.body)
      (sequence : IsHeadTail components data) : LaidOut (.tuple members) (.tuple items) data

/-! ### Along the writer -/

open Component

theorem exists_components : ∀ {values : List Value} {kinds : List Kind} {parts : List Part},
    values.length = kinds.length → encodeParts kinds values = .ok parts →
    ∃ components : List Component, components.map kind = kinds ∧ components.map value = values ∧
      components.map part = parts ∧ ∀ c ∈ components, c.IsWritten
  | [], [], parts, _, h => by
    rw [encodeParts, Except.ok.injEq] at h
    · exact ⟨[], rfl, rfl, h, by simp⟩
    · simp
  | value :: values, kind :: kinds, parts, hlength, h => by
    obtain ⟨body, others, hbody, hothers, rfl⟩ := encodeParts_cons_eq_ok_iff.mp h
    obtain ⟨components, rfl, rfl, rfl, hwritten⟩ := exists_components (Nat.succ.inj hlength) hothers
    exact ⟨⟨kind, value, body⟩ :: components, rfl, rfl, rfl, List.forall_mem_cons.mpr ⟨hbody, hwritten⟩⟩

section

variable {motive : Kind → Value → Bytes → Prop}

/-- The components of a sequence have a property if all written values of the sequence have it. -/
theorem exists_components_with {values : List Value} {kinds : List Kind} {parts : List Part}
    (hlength : values.length = kinds.length) (h : encodeParts kinds values = .ok parts)
    (hall : ∀ pair ∈ values.zip kinds, ∀ body, encodeValue pair.2 pair.1 = .ok body → motive pair.2 pair.1 body) :
    ∃ components : List Component, components.map kind = kinds ∧ components.map value = values ∧
      layout (Kind.headSizes kinds) parts = written components ∧
      ∀ c ∈ components, c.IsWritten ∧ motive c.kind c.value c.body := by
  obtain ⟨components, rfl, rfl, rfl, hwritten⟩ := exists_components hlength h
  refine ⟨components, rfl, rfl, rfl, fun c hc => ⟨hwritten c hc, hall (c.value, c.kind) ?_ _ (hwritten c hc)⟩⟩
  rw [List.zip_map']
  exact List.mem_map_of_mem hc

theorem exists_components_of_elements {items : List Value} {elem : Kind} {parts : List Part}
    (h : encodeParts (List.replicate items.length elem) items = .ok parts)
    (hall : ∀ item ∈ items, ∀ body, encodeValue elem item = .ok body → motive elem item body) :
    ∃ components : List Component, components.map kind = List.replicate items.length elem ∧
      components.map value = items ∧ layout (items.length * elem.headSize) parts = written components ∧
      ∀ c ∈ components, c.IsWritten ∧ motive c.kind c.value c.body := by
  rw [← Kind.headSizes_replicate]
  exact exists_components_with List.length_replicate.symm h (forall_mem_zip_replicate_iff.mpr hall)

/-- Induction along the writer: a property of elementary values that passes from the components of a
sequence to the sequence, its head being counted, is one of all written values. -/
theorem written_induction
    (elementary : ∀ {kind value body}, kind.isSequence = false → encodeValue kind value = .ok body →
      motive kind value body)
    (array : ∀ {elem items components}, (items ≠ [] → elem.isCounted = true) →
      components.map kind = List.replicate items.length elem → components.map value = items →
      (∀ c ∈ components, c.IsWritten ∧ motive c.kind c.value c.body) →
      motive (.array elem) (.array items) (countWord items.length ++ written components))
    (fixedArray : ∀ {elem items components}, (items ≠ [] → elem.isCounted = true) →
      components.map kind = List.replicate items.length elem → components.map value = items →
      (∀ c ∈ components, c.IsWritten ∧ motive c.kind c.value c.body) →
      motive (.fixedArray elem items.length) (.fixedArray items) (written components))
    (tuple : ∀ {members items components}, Kind.allCounted members = true →
      components.map kind = members → components.map value = items →
      (∀ c ∈ components, c.IsWritten ∧ motive c.kind c.value c.body) →
      motive (.tuple members) (.tuple items) (written components))
    {kind : Kind} {value : Value} {body : Bytes} (h : encodeValue kind value = .ok body) :
    motive kind value body := by
  have hkind := hasKind_of_encodeValue h
  induction hkind generalizing body with
  | @array items elem _ ih =>
    obtain ⟨hcounted, parts, hparts, rfl⟩ := encodeValue_array_eq_ok_iff.mp h
    obtain ⟨components, hkinds, hvalues, hlayout, hmotive⟩ :=
      exists_components_of_elements hparts fun item hitem body hbody => ih item hitem hbody
    rw [hlayout]
    exact array hcounted hkinds hvalues hmotive
  | @fixedArray items elem length count _ ih =>
    subst count
    obtain ⟨-, hcounted, parts, hparts, rfl⟩ := encodeValue_fixedArray_eq_ok_iff.mp h
    obtain ⟨components, hkinds, hvalues, hlayout, hmotive⟩ :=
      exists_components_of_elements hparts fun item hitem body hbody => ih item hitem hbody
    rw [hlayout]
    exact fixedArray hcounted hkinds hvalues hmotive
  | @tuple items members count _ ih =>
    obtain ⟨-, hcounted, parts, hparts, rfl⟩ := encodeValue_tuple_eq_ok_iff.mp h
    obtain ⟨components, hkinds, hvalues, hlayout, hmotive⟩ :=
      exists_components_with count hparts fun pair hpair body hbody => ih pair hpair hbody
    rw [hlayout]
    exact tuple hcounted hkinds hvalues hmotive
  | _ => exact elementary rfl h

end

/-! ### Sizes -/

theorem tailSize_eq : ∀ components : List Component,
    tailSize components = (tails (components.map part)).length
  | [] => rfl
  | c :: cs => by
    rw [tailSize, List.map_cons, tails_cons, List.length_append, tailSize_eq cs, part]
    split <;> rfl

theorem tailSize_append (front behind : List Component) :
    tailSize (front ++ behind) = tailSize front + tailSize behind := by
  induction front with
  | nil => simp [tailSize]
  | cons c front ih => rw [List.cons_append, tailSize, tailSize, ih, Nat.add_assoc]

/-- A static component takes as many octets as its type counts. -/
def Component.Fits (component : Component) : Prop :=
  component.kind.isDynamic = false → component.body.length = component.kind.headSize

theorem Component.Fits.headLength_part {c : Component} (h : c.Fits) : c.part.headLength = c.kind.headSize := by
  rw [Part.headLength, part]
  by_cases hd : c.kind.isDynamic = true
  · rw [if_pos hd, Kind.headSize_of_isDynamic hd]
  · rw [if_neg hd, h (by simpa using hd)]

theorem length_heads_map_part {components : List Component} (h : ∀ c ∈ components, c.Fits) (offset : Nat) :
    (heads offset (components.map part)).length = headSize components := by
  rw [length_heads]
  induction components with
  | nil => simp [headSize, Kind.headSizes]
  | cons c cs ih =>
    obtain ⟨hc, hcs⟩ := List.forall_mem_cons.mp h
    rw [List.map_cons, List.map_cons, List.sum_cons, ih hcs, hc.headLength_part]
    simp [headSize, Kind.headSizes]

theorem length_written {components : List Component} (h : ∀ c ∈ components, c.Fits) :
    (written components).length = headSize components + tailSize components := by
  rw [written, layout, List.length_append, length_heads_map_part h, tailSize_eq]

theorem length_body_le_written {components : List Component} {c : Component} (h : c ∈ components) :
    c.body.length ≤ (written components).length :=
  length_body_le_of_mem _ (List.mem_map_of_mem (f := part) h)

theorem tailSize_of_static {components : List Component} (h : ∀ c ∈ components, c.kind.isDynamic = false) :
    tailSize components = 0 := by
  induction components with
  | nil => rfl
  | cons c cs ih =>
    obtain ⟨hc, hcs⟩ := List.forall_mem_cons.mp h
    rw [tailSize, hc, ih hcs]
    rfl

theorem Kind.anyDynamic_eq_any : ∀ kinds : List Kind, anyDynamic kinds = kinds.any isDynamic
  | [] => rfl
  | kind :: kinds => by rw [anyDynamic, List.any_cons, anyDynamic_eq_any kinds]

theorem dvd_length_written {components : List Component} (hfits : ∀ c ∈ components, c.Fits)
    (h : ∀ c ∈ components, 32 ∣ c.body.length) : 32 ∣ (written components).length := by
  rw [length_written hfits]
  induction components with
  | nil => simp [headSize, Kind.headSizes, tailSize]
  | cons c cs ih =>
    obtain ⟨hc, hcs⟩ := List.forall_mem_cons.mp h
    obtain ⟨hfit, hfits⟩ := List.forall_mem_cons.mp hfits
    have hlater := ih hfits hcs
    have hhead : 32 ∣ c.kind.headSize := by
      by_cases hd : c.kind.isDynamic = true
      · exact ⟨1, Kind.headSize_of_isDynamic hd⟩
      · rw [← hfit (by simpa using hd)]
        exact hc
    have htail : 32 ∣ (if c.kind.isDynamic then c.body.length else 0) := by
      split
      · exact hc
      · exact Nat.dvd_zero 32
    have hsize : headSize (c :: cs) = c.kind.headSize + headSize cs := by
      simp [headSize, Kind.headSizes]
    rw [hsize, tailSize]
    omega

theorem fits_of_elementary {kind : Kind} {value : Value} {body : Bytes} (hkind : kind.isSequence = false)
    (h : encodeValue kind value = .ok body) (hlt : body.length < 2 ^ 64) :
    Fits ⟨kind, value, body⟩ ∧ 32 ∣ body.length := by
  have hfits : Fits ⟨kind, value, body⟩ := by
    intro hstatic
    have hsize := (gives_of_elementary hkind h hlt).headSize
    rw [Part.headLength, if_neg (by simpa using hstatic)] at hsize
    exact hsize.symm
  have hword : kind.isDynamic = false → kind.headSize = 32 → 32 ∣ body.length :=
    fun hstatic hsize => ⟨1, (hfits hstatic).trans hsize⟩
  have hcontent : ∀ content : Bytes, 32 ∣ (withLength content).length := by
    intro content
    have hpadded := Bytes.length_padRight_mod content
    rw [length_withLength]
    omega
  refine ⟨hfits, ?_⟩
  cases hasKind_of_encodeValue h with
  | bytes content =>
    obtain rfl := Except.ok.inj h
    exact hcontent content
  | string content =>
    obtain rfl := Except.ok.inj h
    exact hcontent (Text.octets content)
  | array _ => cases hkind
  | fixedArray _ _ => cases hkind
  | tuple _ _ => cases hkind
  | _ => exact hword rfl rfl

theorem fits_of_written {components : List Component} (hlt : (written components).length < 2 ^ 64)
    (h : ∀ c ∈ components, c.IsWritten ∧ (c.body.length < 2 ^ 64 → c.Fits ∧ 32 ∣ c.body.length)) :
    (∀ c ∈ components, c.Fits) ∧ 32 ∣ (written components).length := by
  have hall : ∀ c ∈ components, c.Fits ∧ 32 ∣ c.body.length := fun c hc =>
    (h c hc).2 (Nat.lt_of_le_of_lt (length_body_le_written hc) hlt)
  have hfits : ∀ c ∈ components, c.Fits := fun c hc => (hall c hc).1
  exact ⟨hfits, dvd_length_written hfits fun c hc => (hall c hc).2⟩

theorem length_written_of_static {components : List Component} (hfits : ∀ c ∈ components, c.Fits)
    (h : ∀ c ∈ components, c.kind.isDynamic = false) : (written components).length = headSize components := by
  rw [length_written hfits, tailSize_of_static h, Nat.add_zero]

/-- A written value consists of whole words, and a static one of as many as its type counts. The count of
an array stops only beyond 2^64 octets. -/
theorem length_body {kind : Kind} {value : Value} {body : Bytes} (h : encodeValue kind value = .ok body)
    (hlt : body.length < 2 ^ 64) : Fits ⟨kind, value, body⟩ ∧ 32 ∣ body.length := by
  revert hlt
  refine written_induction (motive := fun kind value body =>
    body.length < 2 ^ 64 → Fits ⟨kind, value, body⟩ ∧ 32 ∣ body.length) ?elementary ?array ?fixedArray ?tuple h
  case elementary => exact fits_of_elementary
  case array =>
    intro elem items components _ _ _ hcomponents hlt
    rw [List.length_append, length_countWord] at hlt ⊢
    obtain ⟨-, hwhole⟩ := fits_of_written (by omega) hcomponents
    refine ⟨fun hstatic => ?_, (Nat.dvd_add_right ⟨1, rfl⟩).mpr hwhole⟩
    cases hstatic
  case fixedArray =>
    intro elem items components _ hkinds _ hcomponents hlt
    obtain ⟨hfits, hwhole⟩ := fits_of_written hlt hcomponents
    refine ⟨fun hstatic => ?_, hwhole⟩
    simp only [Kind.isDynamic] at hstatic ⊢
    have hsize : (written components).length = items.length * elem.headSize := by
      rw [length_written_of_static hfits fun c hc => ?_, headSize, hkinds, Kind.headSizes_replicate]
      have hmem : c.kind ∈ List.replicate items.length elem := hkinds ▸ List.mem_map_of_mem hc
      rw [List.eq_of_mem_replicate hmem, hstatic]
    rw [Kind.headSize, hstatic, if_neg (by decide), maxCount, Nat.mul_comm]
    omega
  case tuple =>
    intro members items components _ hkinds _ hcomponents hlt
    obtain ⟨hfits, hwhole⟩ := fits_of_written hlt hcomponents
    refine ⟨fun hstatic => ?_, hwhole⟩
    simp only [Kind.isDynamic] at hstatic ⊢
    have hsize : (written components).length = Kind.headSizes members := by
      rw [length_written_of_static hfits fun c hc => ?_, headSize, hkinds]
      have hmem : c.kind ∈ members := hkinds ▸ List.mem_map_of_mem hc
      rw [Kind.anyDynamic_eq_any, List.any_eq_false] at hstatic
      exact Bool.eq_false_iff.mpr (hstatic c.kind hmem)
    rw [Kind.headSize, hstatic, if_neg (by decide), hsize]

theorem fits_of_isWritten {components : List Component} (hlt : (written components).length < 2 ^ 64)
    (h : ∀ c ∈ components, c.IsWritten) : ∀ c ∈ components, c.Fits := fun c hc =>
  (length_body (h c hc) (Nat.lt_of_le_of_lt (length_body_le_written hc) hlt)).1

/-! ### Places -/

theorem heads_append (offset : Nat) (front behind : List Part) :
    heads offset (front ++ behind) = heads offset front ++ heads (offset + (tails front).length) behind := by
  induction front generalizing offset with
  | nil => simp [heads, tails]
  | cons part front ih =>
    obtain ⟨isDynamic, body⟩ := part
    cases isDynamic with
    | false =>
      rw [List.cons_append, heads, ih, heads, tails_cons, List.append_assoc]
      rfl
    | true =>
      rw [List.cons_append, heads, ih, heads, tails_cons, List.append_assoc, if_pos rfl, List.length_append,
        Nat.add_assoc]

theorem tails_append (front behind : List Part) : tails (front ++ behind) = tails front ++ tails behind :=
  List.flatMap_append

theorem countWord_of_lt {n : Nat} (h : n < 2 ^ 64) : countWord n = Word.toBytes (BitVec.ofNat 256 n) := by
  rw [countWord, Nat.mod_eq_of_lt h]

/-- The writer makes the head and the tail of its components. -/
theorem isHeadTail_written {components : List Component} (hlt : (written components).length < 2 ^ 64)
    (hfits : ∀ c ∈ components, c.Fits) (hwhole : 32 ∣ (written components).length) :
    IsHeadTail components (written components) where
  whole_words := hwhole
  length := length_written hfits
  static := by
    rintro front c behind rfl hstatic
    obtain ⟨hfront, hc⟩ := List.forall_mem_append.mp hfits
    refine ⟨hc c List.mem_cons_self hstatic, ?_⟩
    rw [written, layout, List.map_append, List.map_cons, heads_append, part, hstatic, heads]
    simp only [List.append_assoc]
    exact ⟨_, _, rfl, length_heads_map_part hfront _⟩
  dynamic := by
    rintro front c behind rfl hdynamic
    obtain ⟨hfront, -⟩ := List.forall_mem_append.mp hfits
    have htail : (tails (front.map part)).length = tailSize front := (tailSize_eq front).symm
    have hoffset : headSize (front ++ c :: behind) + tailSize front < 2 ^ 64 := by
      refine Nat.lt_of_le_of_lt ?_ hlt
      rw [length_written hfits, tailSize_append]
      omega
    refine ⟨Kind.headSize_of_isDynamic hdynamic, ?_, ?_⟩
    · rw [written, layout, List.map_append, List.map_cons, heads_append, part, hdynamic, heads, htail,
        countWord_of_lt hoffset]
      simp only [List.append_assoc]
      exact ⟨_, _, rfl, length_heads_map_part hfront _⟩
    · have hhead := length_heads_map_part hfits (headSize (front ++ c :: behind))
      rw [written, layout]
      generalize heads (headSize (front ++ c :: behind)) _ = head at hhead ⊢
      rw [List.map_append, List.map_cons, tails_append, tails_cons, part, if_pos hdynamic]
      refine ⟨head ++ tails (front.map part), tails (behind.map part), by simp only [List.append_assoc], ?_⟩
      rw [List.length_append, hhead, htail]

/-- A written sequence below 2^64 octets is the head and the tail of its components, which are laid out by
themselves. -/
theorem isHeadTail_of_components {components : List Component} (hlt : (written components).length < 2 ^ 64)
    (h : ∀ c ∈ components, c.IsWritten ∧ (c.body.length < 2 ^ 64 → LaidOut c.kind c.value c.body)) :
    (∀ c ∈ components, c.IsWritten) ∧ (∀ c ∈ components, LaidOut c.kind c.value c.body) ∧
      IsHeadTail components (written components) := by
  have hwritten : ∀ c ∈ components, c.IsWritten := fun c hc => (h c hc).1
  obtain ⟨hfits, hwhole⟩ := fits_of_written hlt fun c hc => ⟨hwritten c hc, length_body (hwritten c hc)⟩
  refine ⟨hwritten, fun c hc => ?_, isHeadTail_written hlt hfits hwhole⟩
  exact (h c hc).2 (Nat.lt_of_le_of_lt (length_body_le_written hc) hlt)

theorem laidOut_of_encodeValue {kind : Kind} {value : Value} {body : Bytes}
    (h : encodeValue kind value = .ok body) (hlt : body.length < 2 ^ 64) : LaidOut kind value body := by
  revert hlt
  refine written_induction (motive := fun kind value body => body.length < 2 ^ 64 → LaidOut kind value body)
    ?elementary ?array ?fixedArray ?tuple h
  case elementary => exact fun hkind hbody _ => .elementary hkind hbody
  case array =>
    intro elem items components _ hkinds hvalues hcomponents hlt
    rw [List.length_append, length_countWord] at hlt
    obtain ⟨hwritten, hinside, hsequence⟩ := isHeadTail_of_components (by omega) hcomponents
    exact .array hkinds hvalues hwritten hinside hsequence
  case fixedArray =>
    intro elem items components _ hkinds hvalues hcomponents hlt
    obtain ⟨hwritten, hinside, hsequence⟩ := isHeadTail_of_components hlt hcomponents
    exact .fixedArray hkinds hvalues hwritten hinside hsequence
  case tuple =>
    intro members items components _ hkinds hvalues hcomponents hlt
    obtain ⟨hwritten, hinside, hsequence⟩ := isHeadTail_of_components hlt hcomponents
    exact .tuple hkinds hvalues hwritten hinside hsequence

/-- **The values of a parameter list are written as a head and a tail**, and so is every sequence inside of
them, from its own start. Each component is what its value is written as by itself: a static one stands in the
head, and for a dynamic one the head says where in the tail it begins, the dynamic components following each
other up to the end. Octet strings are shorter than 2^64. -/
theorem written_values_are_laid_out {kinds : List Kind} {values : List Value} {data : Bytes}
    (hlen : data.length < 2 ^ 64) (h : encode kinds values = .ok data) :
    ∃ components : List Component, components.map Component.kind = kinds ∧
      components.map Component.value = values ∧
      (∀ c ∈ components, encodeValue c.kind c.value = .ok c.body ∧ LaidOut c.kind c.value c.body) ∧
      IsHeadTail components data := by
  cases laidOut_of_encodeValue (encode_eq_ok_iff.mp h) hlen with
  | elementary hkind _ => cases hkind
  | tuple hkinds hvalues hwritten hinside hsequence =>
    exact ⟨_, hkinds, hvalues, fun c hc => ⟨hwritten c hc, hinside c hc⟩, hsequence⟩

/-- The names between a number and a pair begin behind a head of four words. -/
theorem names_stand_behind_the_head :
    let names : Value := .array [.string "a", .string "bc"]
    let kinds : List Kind := [.uint 8, .array .string, .tuple [.bool, .uint 16]]
    ∃ data body : Bytes, encode kinds [.uint 7, names, .tuple [.bool true, .uint 9]] = .ok data ∧
      data.length = 352 ∧ encodeValue (.array .string) names = .ok body ∧ body.length = 224 ∧
      (Word.toBytes 128).StandsAt 32 data ∧ body.StandsAt 128 data := by
  intro names kinds
  obtain ⟨data, h, hlen⟩ : ∃ data, encode kinds [.uint 7, names, .tuple [.bool true, .uint 9]] = .ok data ∧
      data.length = 352 := ⟨_, rfl, by decide +kernel⟩
  obtain ⟨components, hkinds, hvalues, hall, hsequence⟩ := written_values_are_laid_out (by omega) h
  obtain ⟨c, _, rfl, hc, hothers⟩ := List.map_eq_cons_iff.mp hkinds
  obtain ⟨listed, _, rfl, hlisted, hlast⟩ := List.map_eq_cons_iff.mp hothers
  obtain ⟨pair, _, rfl, hpair, hnone⟩ := List.map_eq_cons_iff.mp hlast
  obtain rfl := List.map_eq_nil_iff.mp hnone
  have hnames : listed.value = names := by simpa using (List.cons.inj (List.cons.inj hvalues).2).1
  obtain ⟨-, hoffset, hbody⟩ := hsequence.dynamic [c] listed [pair] rfl (by rw [hlisted]; rfl)
  have hwritten := (hall listed (by simp)).1
  have hhead : headSize [c, listed, pair] = 128 := by
    simp [headSize, hc, hlisted, hpair, Kind.headSizes, Kind.headSize, Kind.isDynamic, Kind.anyDynamic]
  have hbefore : headSize [c] = 32 := by
    simp [headSize, hc, Kind.headSizes, Kind.headSize]
  have htail : tailSize [c] = 0 := by
    simp [tailSize, hc, Kind.isDynamic]
  have hlength : listed.body.length = 224 := by
    have hwhole := hsequence.length
    have hone : tailSize [c, listed, pair] = listed.body.length := by
      simp [tailSize, hc, hlisted, hpair, Kind.isDynamic, Kind.anyDynamic]
    rw [hhead, hone, hlen] at hwhole
    omega
  rw [hhead, htail, hbefore] at hoffset
  rw [hhead, htail] at hbody
  rw [hlisted, hnames] at hwritten
  exact ⟨data, listed.body, h, hlen, hwritten, hlength, hoffset, hbody⟩

end Abi
end EthWire
