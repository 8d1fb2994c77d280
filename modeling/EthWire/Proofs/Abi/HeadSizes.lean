/-
# Head sizes are exact where sums fit

How many octets a value takes in the head is a number without a bound (`Abi.Kind.exactHeadSize`); it is counted in
64 bits. A fixed array stops at the largest count, and so does the reader's sum over a sequence. The sum over the
members of a tuple, and the writer's over a sequence, have no such stop: beyond 64 bits the count has no result.

So there is a head size exactly where every sum over a tuple fits 64 bits (`Abi.Kind.SumsFit`), and then it is the
exact one, cut off at the largest count (`Abi.Kind.headSize?_eq_some_iff`). The writer and the reader stop at
every other type in a sequence. What is written below 2^64 octets was always counted exactly, since the values
stand there octet by octet (`Abi.headSize_of_encodeValue`).

Key definitions: `Abi.Kind.exactHeadSize`, `Abi.Kind.cappedHeadSize`, `Abi.Kind.SumsFit`.
Key theorems: `Abi.Kind.isCounted_iff`, `Abi.Kind.headSize?_eq_some_iff`, `Abi.headSize_of_encodeValue`,
`Abi.head_sizes_are_exact_where_sums_fit`.
-/
import EthWire.Proofs.Abi.CanonicalText
import EthWire.Proofs.Abi.HeadTail

namespace EthWire
namespace Abi

namespace Kind

mutual

/-- The octets that a value of the type takes in the head of its sequence, counted without a bound. -/
def exactHeadSize : Kind → Nat
  | .fixedArray elem length => if elem.isDynamic then 32 else elem.exactHeadSize * length
  | .tuple members => if anyDynamic members then 32 else exactHeadSizes members
  | _ => 32

/-- The octets that values of the types take in the head, counted without a bound. -/
def exactHeadSizes : List Kind → Nat
  | [] => 0
  | kind :: kinds => kind.exactHeadSize + exactHeadSizes kinds

end

/-- The exact head size, cut off at the largest count. -/
def cappedHeadSize (kind : Kind) : Nat :=
  min kind.exactHeadSize maxCount

/-- The sum of the head sizes, each of which is cut off at the largest count. -/
def cappedHeadSizes (kinds : List Kind) : Nat :=
  (kinds.map cappedHeadSize).sum

/-- Wherever the head size of a type is counted, the sum over the members of a tuple is a count. Inside of a
dynamic type nothing is counted. -/
inductive SumsFit : Kind → Prop where
  | elementary {kind : Kind} (kind_eq : kind.isSequence = false) : SumsFit kind
  | dynamic {kind : Kind} (dynamic : kind.isDynamic = true) : SumsFit kind
  | fixedArray {elem : Kind} {length : Nat} (elem_fits : SumsFit elem) : SumsFit (.fixedArray elem length)
  | tuple {members : List Kind} (each : ∀ member ∈ members, SumsFit member)
      (sum : cappedHeadSizes members ≤ maxCount) : SumsFit (.tuple members)

/-! ### Sums -/

theorem headSizes_eq_sum : ∀ kinds : List Kind, headSizes kinds = (kinds.map headSize).sum
  | [] => by simp [headSizes]
  | kind :: kinds => by rw [headSizes, headSizes_eq_sum kinds, List.map_cons, List.sum_cons]

theorem exactHeadSizes_eq_sum : ∀ kinds : List Kind, exactHeadSizes kinds = (kinds.map exactHeadSize).sum
  | [] => by simp [exactHeadSizes]
  | kind :: kinds => by rw [exactHeadSizes, exactHeadSizes_eq_sum kinds, List.map_cons, List.sum_cons]

theorem headSizes_eq_cappedHeadSizes {kinds : List Kind}
    (h : ∀ kind ∈ kinds, kind.headSize = kind.cappedHeadSize) : headSizes kinds = cappedHeadSizes kinds := by
  rw [headSizes_eq_sum, cappedHeadSizes, List.map_congr_left h]

theorem headSizes_eq_exactHeadSizes {kinds : List Kind}
    (h : ∀ kind ∈ kinds, kind.headSize = kind.exactHeadSize) : headSizes kinds = exactHeadSizes kinds := by
  rw [headSizes_eq_sum, exactHeadSizes_eq_sum, List.map_congr_left h]

/-! ### Cutting off -/

@[simp] theorem cappedHeadSizes_nil : cappedHeadSizes [] = 0 := rfl

@[simp] theorem cappedHeadSizes_cons (kind : Kind) (kinds : List Kind) :
    cappedHeadSizes (kind :: kinds) = kind.cappedHeadSize + cappedHeadSizes kinds :=
  List.sum_cons

/-- A sum is cut off alike whether its terms have been cut off or not. -/
theorem min_cappedHeadSizes (kinds : List Kind) :
    min (cappedHeadSizes kinds) maxCount = min (exactHeadSizes kinds) maxCount := by
  induction kinds with
  | nil => rw [cappedHeadSizes_nil, exactHeadSizes]
  | cons kind kinds ih =>
    rw [cappedHeadSizes_cons, cappedHeadSize, exactHeadSizes]
    omega

theorem min_mul_min (size length : Nat) :
    min (min size maxCount * length) maxCount = min (size * length) maxCount := by
  rcases Nat.le_total size maxCount with h | h
  · rw [Nat.min_eq_left h]
  · rw [Nat.min_eq_right h]
    -- a product with the largest count is cut off again, unless the length is zero
    rcases Nat.eq_zero_or_pos length with rfl | hpos
    · rfl
    · have hbound : maxCount ≤ maxCount * length := Nat.le_mul_of_pos_right _ hpos
      have hmore : maxCount * length ≤ size * length := Nat.mul_le_mul_right _ h
      omega

theorem exactHeadSize_of_isDynamic {kind : Kind} (h : kind.isDynamic = true) : kind.exactHeadSize = 32 := by
  cases kind with
  | fixedArray elem length =>
    rw [isDynamic] at h
    rw [exactHeadSize, if_pos h]
  | tuple members =>
    rw [isDynamic] at h
    rw [exactHeadSize, if_pos h]
  | _ => simp [exactHeadSize]

theorem headSize_of_elementary {kind : Kind} (h : kind.isSequence = false) :
    kind.headSize = 32 ∧ kind.exactHeadSize = 32 := by
  cases kind with
  | array elem => cases h
  | fixedArray elem length => cases h
  | tuple members => cases h
  | _ => simp [headSize, exactHeadSize]

theorem cappedHeadSize_of_word {kind : Kind} (h : kind.exactHeadSize = 32) : kind.cappedHeadSize = 32 := by
  rw [cappedHeadSize, h]
  decide

theorem cappedHeadSize_fixedArray {elem : Kind} (h : elem.isDynamic = false) (length : Nat) :
    (fixedArray elem length).cappedHeadSize = min (elem.cappedHeadSize * length) maxCount := by
  rw [cappedHeadSize, cappedHeadSize, exactHeadSize, h, if_neg (by decide), min_mul_min]

theorem cappedHeadSize_tuple {members : List Kind} (h : anyDynamic members = false) :
    (tuple members).cappedHeadSize = min (cappedHeadSizes members) maxCount := by
  rw [cappedHeadSize, exactHeadSize, h, if_neg (by decide), min_cappedHeadSizes]

/-! ### Sums that fit -/

theorem sumsFit_fixedArray_iff {elem : Kind} {length : Nat} (h : elem.isDynamic = false) :
    (fixedArray elem length).SumsFit ↔ elem.SumsFit := by
  constructor
  · intro hfits
    cases hfits with
    | elementary kind_eq => cases kind_eq
    | dynamic dynamic =>
      rw [isDynamic, h] at dynamic
      cases dynamic
    | fixedArray elem_fits => exact elem_fits
  · exact .fixedArray

theorem sumsFit_tuple_iff {members : List Kind} (h : anyDynamic members = false) :
    (tuple members).SumsFit ↔ (∀ member ∈ members, member.SumsFit) ∧ cappedHeadSizes members ≤ maxCount := by
  constructor
  · intro hfits
    cases hfits with
    | elementary kind_eq => cases kind_eq
    | dynamic dynamic =>
      rw [isDynamic, h] at dynamic
      cases dynamic
    | tuple each sum => exact ⟨each, sum⟩
  · rintro ⟨each, sum⟩
    exact .tuple each sum

theorem headSize_of_isDynamic_eq {kind : Kind} (h : kind.isDynamic = true) : kind.headSize = kind.cappedHeadSize := by
  rw [headSize_of_isDynamic h, cappedHeadSize_of_word (exactHeadSize_of_isDynamic h)]

/-- The head size is the exact one, cut off at the largest count, if all sums fit. -/
theorem SumsFit.headSize_eq {kind : Kind} (h : kind.SumsFit) : kind.headSize = kind.cappedHeadSize := by
  induction h with
  | elementary kind_eq =>
    obtain ⟨hsize, hexact⟩ := headSize_of_elementary kind_eq
    rw [hsize, cappedHeadSize_of_word hexact]
  | dynamic dynamic => exact headSize_of_isDynamic_eq dynamic
  | @fixedArray elem length _ ih =>
    cases hd : elem.isDynamic with
    | true => exact headSize_of_isDynamic_eq (by rw [isDynamic, hd])
    | false => rw [headSize, hd, if_neg (by decide), ih, cappedHeadSize_fixedArray hd]
  | @tuple members _ sum ih =>
    cases hd : anyDynamic members with
    | true => exact headSize_of_isDynamic_eq (by rw [isDynamic, hd])
    | false =>
      rw [headSize, hd, if_neg (by decide), headSizes_eq_cappedHeadSizes ih, cappedHeadSize_tuple hd,
        Nat.min_eq_left sum]

theorem headSizes_eq {kinds : List Kind} (h : ∀ kind ∈ kinds, kind.SumsFit) :
    headSizes kinds = cappedHeadSizes kinds :=
  headSizes_eq_cappedHeadSizes fun kind hkind => (h kind hkind).headSize_eq

mutual

theorem isCounted_iff : ∀ {kind : Kind}, kind.isCounted = true ↔ kind.SumsFit
  | .fixedArray elem length => by
    rw [isCounted, Bool.or_eq_true]
    cases hd : elem.isDynamic with
    | true => exact iff_of_true (.inl rfl) (.dynamic (by rw [isDynamic, hd]))
    | false =>
      rw [sumsFit_fixedArray_iff hd, ← isCounted_iff]
      simp
  | .tuple members => by
    rw [isCounted, Bool.or_eq_true, Bool.and_eq_true, decide_eq_true_eq]
    cases hd : anyDynamic members with
    | true => exact iff_of_true (.inl rfl) (.dynamic (by rw [isDynamic, hd]))
    | false =>
      rw [sumsFit_tuple_iff hd, allCounted_iff_sumsFit, or_iff_right Bool.false_ne_true]
      exact and_congr_right fun hfits => by rw [headSizes_eq hfits]
  | .array elem => iff_of_true rfl (.dynamic rfl)
  | .uint _ | .int _ | .address | .bool | .fixedBytes _ | .bytes | .string => iff_of_true rfl (.elementary rfl)

theorem allCounted_iff_sumsFit : ∀ {kinds : List Kind}, allCounted kinds = true ↔ ∀ kind ∈ kinds, kind.SumsFit
  | [] => by simp [allCounted]
  | kind :: kinds => by
    rw [allCounted, Bool.and_eq_true, isCounted_iff, allCounted_iff_sumsFit, List.forall_mem_cons]

end

/-- There is a head size exactly where all sums fit, and it is the exact one, cut off. -/
theorem headSize?_eq_some_iff {kind : Kind} {size : Nat} :
    kind.headSize? = some size ↔ kind.SumsFit ∧ size = kind.cappedHeadSize := by
  rw [headSize?, Option.ite_none_right_eq_some, isCounted_iff, Option.some.injEq, eq_comm]
  exact and_congr_right fun hfits => by rw [hfits.headSize_eq]

end Kind

/-! ### What is written was counted exactly -/

open Component

/-- The head of a written sequence is counted exactly if those of its components are, and it is a count. -/
theorem headSizes_of_written {components : List Component} (hlt : (written components).length < 2 ^ 64)
    (h : ∀ c ∈ components, c.IsWritten ∧ (c.body.length < 2 ^ 64 → c.kind.headSize = c.kind.exactHeadSize)) :
    Kind.headSizes (components.map kind) = Kind.exactHeadSizes (components.map kind) ∧
      Kind.headSizes (components.map kind) < 2 ^ 64 := by
  have hbody : ∀ c ∈ components, c.body.length < 2 ^ 64 := fun c hc =>
    Nat.lt_of_le_of_lt (length_body_le_written hc) hlt
  have hfits := fits_of_isWritten hlt fun c hc => (h c hc).1
  constructor
  · exact Kind.headSizes_eq_exactHeadSizes (List.forall_mem_map.mpr fun c hc => (h c hc).2 (hbody c hc))
  · rw [length_written hfits, headSize] at hlt
    omega

/-- The head size of a type whose value is written is the exact one: no count has been cut off. -/
theorem headSize_of_encodeValue {kind : Kind} {value : Value} {body : Bytes}
    (h : encodeValue kind value = .ok body) (hlt : body.length < 2 ^ 64) :
    kind.headSize = kind.exactHeadSize := by
  have hdynamic : ∀ {kind : Kind}, kind.isDynamic = true → kind.headSize = kind.exactHeadSize := fun hd => by
    rw [Kind.headSize_of_isDynamic hd, Kind.exactHeadSize_of_isDynamic hd]
  revert hlt
  refine written_induction (motive := fun kind _ body =>
    body.length < 2 ^ 64 → kind.headSize = kind.exactHeadSize) ?elementary ?array ?fixedArray ?tuple h
  case elementary =>
    intro kind value body hkind _ _
    obtain ⟨hsize, hexact⟩ := Kind.headSize_of_elementary hkind
    rw [hsize, hexact]
  case array =>
    intro elem items components _ _ _ _ _
    exact hdynamic rfl
  case fixedArray =>
    intro elem items components _ hkinds _ hcomponents hlt
    cases hd : elem.isDynamic with
    | true => exact hdynamic (by rw [Kind.isDynamic, hd])
    | false =>
      obtain ⟨hexact, hcount⟩ := headSizes_of_written hlt hcomponents
      rw [hkinds, Kind.headSizes_replicate, Nat.mul_comm] at hexact hcount
      rw [Kind.exactHeadSizes_eq_sum, List.map_replicate, List.sum_replicate_nat, Nat.mul_comm _ elem.exactHeadSize]
        at hexact
      -- the elements are all written, so their head sizes stay below the largest count
      have hcapped : min (elem.headSize * items.length) maxCount = elem.headSize * items.length :=
        Nat.min_eq_left (by rw [maxCount]; omega)
      rw [Kind.headSize, Kind.exactHeadSize, hd, if_neg (by decide), if_neg (by decide), hcapped, hexact]
  case tuple =>
    intro members items components _ hkinds _ hcomponents hlt
    cases hd : Kind.anyDynamic members with
    | true => exact hdynamic (by rw [Kind.isDynamic, hd])
    | false =>
      obtain ⟨hexact, -⟩ := headSizes_of_written hlt hcomponents
      rw [hkinds] at hexact
      rw [Kind.headSize, Kind.exactHeadSize, hd, if_neg (by decide), if_neg (by decide), hexact]

theorem headSizes_of_encode {kinds : List Kind} {values : List Value} {data : Bytes}
    (h : encode kinds values = .ok data) (hlt : data.length < 2 ^ 64) :
    Kind.headSizes kinds = Kind.exactHeadSizes kinds ∧ Kind.headSizes kinds < 2 ^ 64 := by
  obtain ⟨hlength, -, parts, hparts, rfl⟩ := encodeValue_tuple_eq_ok_iff.mp (encode_eq_ok_iff.mp h)
  obtain ⟨components, rfl, rfl, rfl, hwritten⟩ := exists_components hlength hparts
  exact headSizes_of_written hlt fun c hc => ⟨hwritten c hc, headSize_of_encodeValue (hwritten c hc)⟩

/-! ### Parameter lists -/

section

variable {kinds : List Kind}

/-- The reader's sum stops where the exact one is cut off. -/
theorem min_headSizes (h : ∀ kind ∈ kinds, kind.SumsFit) :
    min (Kind.headSizes kinds) maxCount = min (Kind.exactHeadSizes kinds) maxCount := by
  rw [Kind.headSizes_eq h, Kind.min_cappedHeadSizes]

/-- The reader refuses exactly the data that are shorter than the exact head, and says how long it is. -/
theorem decode_eq_of_sumsFit (h : ∀ kind ∈ kinds, kind.SumsFit) (hkinds : kinds ≠ []) {data : Bytes}
    (hdata : data ≠ []) (hlt : data.length < maxCount) :
    decode kinds data =
      if data.length < Kind.exactHeadSizes kinds then
        .error (.abiDataSize (min (Kind.exactHeadSizes kinds) maxCount) data.length)
      else readSlots data 0 (slots kinds) := by
  have hsum := min_headSizes h
  have hcounted := Kind.allCounted_iff_sumsFit.mpr h
  rw [decode, if_neg (by simpa using hkinds), if_neg (by simpa using hdata), hcounted]
  by_cases hshort : data.length < Kind.exactHeadSizes kinds
  · have hhead : Bytes.hasAtLeast (Kind.headSizes kinds) data ≠ true := by
      rw [Ne, Bytes.hasAtLeast_iff]
      omega
    rw [if_pos hshort, checkHead, if_neg (by decide), if_neg hhead, hsum]
    rfl
  · have hhead : checkHead true (Kind.headSizes kinds) data = .ok () := by
      rw [checkHead_eq_ok_iff]
      exact ⟨rfl, by omega⟩
    rw [if_neg hshort, hhead]
    rfl

theorem decode_of_not_sumsFit (h : ¬ ∀ kind ∈ kinds, kind.SumsFit) {data : Bytes} (hdata : data ≠ []) :
    decode kinds data = .error .abiHeadSum := by
  have hkinds : kinds ≠ [] := by
    rintro rfl
    exact h (by simp)
  have hcounted : Kind.allCounted kinds = false := by
    rwa [← Bool.not_eq_true, Kind.allCounted_iff_sumsFit]
  rw [decode, if_neg (by simpa using hkinds), if_neg (by simpa using hdata), hcounted]
  rfl

theorem encode_of_not_sumsFit (h : ¬ ∀ kind ∈ kinds, kind.SumsFit) {values : List Value}
    (hlength : kinds.length = values.length) : encode kinds values = .error .abiHeadSum := by
  have hcounted : Kind.allCounted kinds = false := by
    rwa [← Bool.not_eq_true, Kind.allCounted_iff_sumsFit]
  rw [encode, if_neg (not_not_intro hlength), hcounted]
  rfl

/-- The writer's sum has no stop: beyond the largest count nothing is written, for want of as many octets. -/
theorem encode_of_maxCount_lt (h : maxCount < Kind.headSizes kinds) {values : List Value}
    (hlength : kinds.length = values.length) :
    encode kinds values = .error .abiHeadSum ∨ ∃ data, encode kinds values = .ok data ∧ 2 ^ 64 ≤ data.length := by
  cases hencode : encode kinds values with
  | ok data =>
    refine .inr ⟨data, rfl, Nat.le_of_not_lt fun hlt => ?_⟩
    have hcount := (headSizes_of_encode hencode hlt).2
    rw [maxCount] at h
    omega
  | error cause =>
    rw [encode, if_neg (not_not_intro hlength)] at hencode
    rw [eq_abiHeadSum_of_behindHead h (bind_pure_eq_error_iff.mp hencode)]
    exact .inl rfl

end

/-- **Head sizes are exact, cut off at the largest count, as long as no tuple's sum leaves 64 bits.** Where a sum
does, there is no head size, and the reader and the writer of a sequence stop. Of other types the reader refuses
exactly the data shorter than their exact head, cut off alike, but the writer stops again if its own sum, of the
sizes cut off, leaves 64 bits. What it writes was counted exactly. -/
theorem head_sizes_are_exact_where_sums_fit (kinds : List Kind) :
    (∀ (kind : Kind) (size : Nat),
      kind.headSize? = some size ↔ kind.SumsFit ∧ size = min kind.exactHeadSize maxCount) ∧
    (∀ data : Bytes, kinds ≠ [] → data ≠ [] →
      ((¬ ∀ kind ∈ kinds, kind.SumsFit) → decode kinds data = .error .abiHeadSum) ∧
      ((∀ kind ∈ kinds, kind.SumsFit) → data.length < maxCount →
        decode kinds data =
          if data.length < Kind.exactHeadSizes kinds then
            .error (.abiDataSize (min (Kind.exactHeadSizes kinds) maxCount) data.length)
          else readSlots data 0 (slots kinds))) ∧
    (∀ values : List Value, kinds.length = values.length →
      ((¬ ∀ kind ∈ kinds, kind.SumsFit) → encode kinds values = .error .abiHeadSum) ∧
      ((∀ kind ∈ kinds, kind.SumsFit) → maxCount < Kind.cappedHeadSizes kinds →
        encode kinds values = .error .abiHeadSum ∨
          ∃ data, encode kinds values = .ok data ∧ 2 ^ 64 ≤ data.length)) ∧
    ∀ (values : List Value) (data : Bytes), encode kinds values = .ok data → data.length < 2 ^ 64 →
      (∀ kind ∈ kinds, kind.SumsFit) ∧ Kind.headSizes kinds = Kind.exactHeadSizes kinds := by
  refine ⟨fun kind size => Kind.headSize?_eq_some_iff, fun data hkinds hdata => ?reader, fun values hlength => ?writer,
    fun values data h hlt => ?written⟩
  case reader => exact ⟨fun hsums => decode_of_not_sumsFit hsums hdata,
    fun hsums hlt => decode_eq_of_sumsFit hsums hkinds hdata hlt⟩
  case writer =>
    refine ⟨fun hsums => encode_of_not_sumsFit hsums hlength, fun hsums hlarge => ?_⟩
    exact encode_of_maxCount_lt (by rwa [Kind.headSizes_eq hsums]) hlength
  case written =>
    obtain ⟨-, hcounted, -⟩ := encodeValue_tuple_eq_ok_iff.mp (encode_eq_ok_iff.mp h)
    exact ⟨Kind.allCounted_iff_sumsFit.mp hcounted, (headSizes_of_encode h hlt).1⟩

/-- An array of bytes that is as long as arrays can be is cut off; a tuple that has it behind a text is one word,
since what it holds is not counted. -/
theorem longest_array_is_cut_off :
    let longest : Kind := .fixedArray (.uint 8) maxCount
    longest.headSize? = some maxCount ∧ longest.exactHeadSize = 32 * maxCount ∧
      decode [longest, .tuple [.string, longest]] [0x00] = .error (.abiDataSize maxCount 1) ∧
      ∃ data : Bytes, encode [.fixedArray (.uint 8) 2] [.fixedArray [.uint 7, .uint 9]] = .ok data ∧
        Kind.headSizes [.fixedArray (.uint 8) 2] = Kind.exactHeadSizes [.fixedArray (.uint 8) 2] := by
  intro longest
  have hlongest : longest.SumsFit := .fixedArray (.elementary rfl)
  have hexact : longest.exactHeadSize = 32 * maxCount := by decide
  obtain ⟨hsize, hread, -, -⟩ := head_sizes_are_exact_where_sums_fit [longest, .tuple [.string, longest]]
  obtain ⟨-, -, -, hwritten⟩ := head_sizes_are_exact_where_sums_fit [.fixedArray (.uint 8) 2]
  obtain ⟨data, hdata, hlen⟩ : ∃ data, encode [.fixedArray (.uint 8) 2] [.fixedArray [.uint 7, .uint 9]] = .ok data ∧
      data.length < 2 ^ 64 := ⟨_, rfl, by decide +kernel⟩
  refine ⟨(hsize longest maxCount).mpr ⟨hlongest, ?_⟩, hexact, ?reader, data, hdata, (hwritten _ data hdata hlen).2⟩
  · rw [hexact]
    decide
  case reader =>
    have hfits : ∀ kind ∈ [longest, .tuple [.string, longest]], kind.SumsFit :=
      List.forall_mem_cons.mpr ⟨hlongest, List.forall_mem_singleton.mpr (.dynamic rfl)⟩
    have hsum : Kind.exactHeadSizes [longest, .tuple [.string, longest]] = 32 * maxCount + 32 := by decide
    rw [(hread [0x00] (List.cons_ne_nil _ _) (List.cons_ne_nil _ _)).2 hfits (by decide), hsum]
    rfl

/-- One more member behind such an array, and the tuple has no head size, though the exact one is cut off like
that of the array. Neither reader nor writer gets past it, and the writer not past its members in a list. -/
theorem longest_array_and_a_flag_have_no_head_size :
    Kind.parse "(uint8[18446744073709551615],bool)".toList = .ok uncountedPair ∧
      uncountedPair.headSize? = none ∧ min uncountedPair.exactHeadSize maxCount = maxCount ∧
      decode [uncountedPair] [0x00] = .error .abiHeadSum ∧
      encode [uncountedPair] [.tuple [.fixedArray [], .bool true]] = .error .abiHeadSum ∧
      encode [.fixedArray (.uint 8) maxCount, .bool] [.fixedArray [], .bool true] = .error .abiHeadSum :=
  ⟨(spells_text isAdmitted_uncountedPair).parse_eq, by decide, by decide, rfl, rfl, rfl⟩

end Abi
end EthWire
