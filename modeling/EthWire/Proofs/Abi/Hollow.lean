/-
# Hollow parts are read back with octets behind them

A tuple without members and an array of length zero are written as no octets. The writer takes them at every
place, the reader does not. An offset must point at an octet, so an array of length zero whose elements are
dynamic needs one behind it. The elements of an array count for at least one octet each, so an array whose
elements take none needs as many octets behind it as it has elements. And a parameter list is never read from no
octets.

These are the only demands (`Abi.isBacked`) on values whose lists can be counted. Behind a part stand the dynamic
parts that follow it in its own sequence, and what stands behind that sequence. The induction is along the writer,
over all that can follow: a written value is read exactly if it is backed there (`Abi.reads_written_iff`), since
the reader comes to every part of a tail with the octets that are counted behind it (`Abi.readFromTail_iff`).

Key definitions: `Abi.tailLength`, `Abi.isBacked`, `Abi.areBacked`, `Abi.ReadIffBacked`.
Key theorems: `Abi.readFromTail_iff`, `Abi.readSlots_written_iff`, `Abi.reads_written_iff`,
`Abi.hollow_parts_are_read_back_iff`.
-/
import EthWire.Proofs.Abi.CanonicalText
import EthWire.Proofs.Abi.HeadTail

namespace EthWire
namespace Abi

open Component

/-! ### What the reader asks for behind a part -/

/-- The octets of the tail that the values are written with. -/
def tailLength (kinds : List Kind) (values : List Value) : Nat :=
  match encodeParts kinds values with
  | .ok parts => (tails parts).length
  | .error _ => 0

mutual

/-- Whether every part of a value has the octets behind it that the reader asks for, where `behind` octets stand
behind the value itself. -/
def isBacked : Kind → Value → (behind : Nat) → Bool
  | .array elem, .array items, behind =>
    (elem.headSize != 0 || decide (items.length ≤ behind)) &&
      areBacked (List.replicate items.length elem) items behind
  | .fixedArray elem _, .fixedArray items, behind =>
    (!elem.isDynamic || !items.isEmpty || decide (0 < behind)) &&
      areBacked (List.replicate items.length elem) items behind
  | .tuple members, .tuple items, behind => areBacked members items behind
  | _, _, _ => true

/-- Whether this holds of the dynamic values of a sequence, each of which has the later ones behind it. -/
def areBacked : List Kind → List Value → (behind : Nat) → Bool
  | kind :: kinds, value :: values, behind =>
    (!kind.isDynamic || isBacked kind value (tailLength kinds values + behind)) && areBacked kinds values behind
  | _, _, _ => true

end

theorem tailLength_components {components : List Component} (h : ∀ c ∈ components, c.IsWritten) :
    tailLength (components.map kind) (components.map value) = tailSize components := by
  have hparts : encodeParts (components.map kind) (components.map value) = .ok (components.map part) := by
    induction components with
    | nil => rfl
    | cons c cs ih =>
      obtain ⟨hc, hcs⟩ := List.forall_mem_cons.mp h
      exact encodeParts_cons_eq_ok_iff.mpr ⟨c.body, cs.map part, hc, ih hcs, rfl⟩
  rw [tailLength, hparts, tailSize_eq]

theorem areBacked_of_static : ∀ {kinds : List Kind}, Kind.anyDynamic kinds = false →
    ∀ (values : List Value) (behind : Nat), areBacked kinds values behind = true
  | [], _, _, _ => by simp [areBacked]
  | _ :: _, _, [], _ => by simp [areBacked]
  | kind :: kinds, h, value :: values, behind => by
    rw [Kind.anyDynamic, Bool.or_eq_false_iff] at h
    rw [areBacked, h.1, areBacked_of_static h.2]
    rfl

theorem isBacked_of_elementary {kind : Kind} (h : kind.isSequence = false) (value : Value) (behind : Nat) :
    isBacked kind value behind = true := by
  cases kind with
  | array elem => cases h
  | fixedArray elem length => cases h
  | tuple members => cases h
  | _ => simp [isBacked]

theorem anyDynamic_replicate_iff {elem : Kind} {n : Nat} :
    Kind.anyDynamic (List.replicate n elem) = true ↔ n ≠ 0 ∧ elem.isDynamic = true := by
  rw [Kind.anyDynamic_eq_any, List.any_replicate]
  by_cases hn : n = 0 <;> simp [hn]

theorem isBacked_of_static {kind : Kind} (h : kind.isDynamic = false) (value : Value) (behind : Nat) :
    isBacked kind value behind = true := by
  cases kind with
  | array elem => cases h
  | fixedArray elem length =>
    rw [Kind.isDynamic] at h
    cases value with
    | fixedArray items =>
      have hstatic : Kind.anyDynamic (List.replicate items.length elem) = false := by
        rw [← Bool.not_eq_true, anyDynamic_replicate_iff, h]
        simp
      rw [isBacked, h, areBacked_of_static hstatic]
      rfl
    | _ => simp [isBacked]
  | tuple members =>
    cases value with
    | tuple items =>
      rw [isBacked]
      exact areBacked_of_static h items behind
    | _ => simp [isBacked]
  | _ => simp [isBacked]

/-! ### Sequences -/

/-- A written value is read in front of other octets exactly if it is backed there. If it is dynamic, there must
also be an octet that an offset can point to. -/
def ReadIffBacked (kind : Kind) (value : Value) (body : Bytes) : Prop :=
  ∀ rest : Bytes, (kind.isDynamic = true → body.length + rest.length < 2 ^ 64) →
    (((kind.isDynamic = true → body ++ rest ≠ []) ∧ decodeValue kind (body ++ rest) = .ok value) ↔
      isBacked kind value rest.length = true)

section

variable {components : List Component}

theorem allFit_components (hfits : ∀ c ∈ components, c.Fits)
    (h : ∀ c ∈ components, ReadIffBacked c.kind c.value c.body) :
    AllFit (slots (components.map kind)) (components.map part) (components.map value) := by
  induction components with
  | nil =>
    rw [List.map_nil, slots]
    exact .nil
  | cons c cs ih =>
    obtain ⟨hfit, hfits⟩ := List.forall_mem_cons.mp hfits
    obtain ⟨hc, hcs⟩ := List.forall_mem_cons.mp h
    rw [List.map_cons, slots]
    refine .cons ⟨rfl, hfit.headLength_part.symm, fun hstatic rest => ?_⟩ (ih hfits hcs)
    have hstatic : c.kind.isDynamic = false := hstatic
    have hread := (hc rest (by simp [hstatic])).mpr (isBacked_of_static hstatic c.value rest.length)
    exact hread.2

/-- Behind a part of the tail stand the later ones and what follows the sequence. -/
theorem readFromTail_iff (hwritten : ∀ c ∈ components, c.IsWritten)
    (h : ∀ c ∈ components, ReadIffBacked c.kind c.value c.body) (rest : Bytes)
    (hlt : ∀ c ∈ components, c.kind.isDynamic = true → tailSize components + rest.length < 2 ^ 64) :
    ReadFromTail rest (slots (components.map kind)) (components.map part) (components.map value) ↔
      areBacked (components.map kind) (components.map value) rest.length = true := by
  induction components with
  | nil => simp [slots, ReadFromTail, areBacked]
  | cons c cs ih =>
    obtain ⟨-, hwritten⟩ := List.forall_mem_cons.mp hwritten
    obtain ⟨hc, hcs⟩ := List.forall_mem_cons.mp h
    have hlater : ∀ c' ∈ cs, c'.kind.isDynamic = true → tailSize cs + rest.length < 2 ^ 64 := by
      intro c' hc' hd
      have hsum := hlt c' (List.mem_cons_of_mem _ hc') hd
      rw [tailSize] at hsum
      omega
    rw [List.map_cons, List.map_cons, List.map_cons, slots, ReadFromTail, areBacked, Bool.and_eq_true,
      ih hwritten hcs hlater, tailLength_components hwritten]
    refine and_congr_left fun _ => ?_
    cases hd : c.kind.isDynamic with
    | false => exact iff_of_true (by simp [part, hd]) rfl
    | true =>
      have hbehind : (tails (cs.map part) ++ rest).length = tailSize cs + rest.length := by
        rw [List.length_append, tailSize_eq]
      have hsum := hlt c List.mem_cons_self hd
      rw [tailSize, if_pos hd] at hsum
      have hread := hc (tails (cs.map part) ++ rest) (fun _ => by omega)
      rw [hd, hbehind] at hread
      simpa [part, hd, Slot.ofKind] using hread

/-- A written sequence is read exactly if its parts are backed, and its head always lies within it. -/
theorem readSlots_written_iff (hlen : (written components).length < 2 ^ 64)
    (h : ∀ c ∈ components, c.IsWritten ∧ (c.body.length < 2 ^ 64 → ReadIffBacked c.kind c.value c.body))
    (rest : Bytes)
    (hlt : Kind.anyDynamic (components.map kind) = true → (written components).length + rest.length < 2 ^ 64) :
    Kind.headSizes (components.map kind) ≤ (written components ++ rest).length ∧
      (readSlots (written components ++ rest) 0 (slots (components.map kind)) = .ok (components.map value) ↔
        areBacked (components.map kind) (components.map value) rest.length = true) := by
  have hbody : ∀ c ∈ components, c.body.length < 2 ^ 64 := fun c hc =>
    Nat.lt_of_le_of_lt (length_body_le_written hc) hlen
  have hfits := fits_of_isWritten hlen fun c hc => (h c hc).1
  have hread : ∀ c ∈ components, ReadIffBacked c.kind c.value c.body := fun c hc => (h c hc).2 (hbody c hc)
  have hsize := length_written hfits
  have hsum : Kind.headSizes (components.map kind) = ((components.map part).map Part.headLength).sum := by
    rw [← length_heads 0, length_heads_map_part hfits, headSize]
  constructor
  · rw [List.length_append, hsize, headSize]
    omega
  · rw [written, headSize, readSlots_layout_iff (allFit_components hfits hread) hsum hlen rest]
    refine readFromTail_iff (fun c hc => (h c hc).1) hread rest fun c hc hd => ?_
    have hany : Kind.anyDynamic (components.map kind) = true := by
      rw [Kind.anyDynamic_eq_any, List.any_eq_true]
      exact ⟨c.kind, List.mem_map_of_mem hc, hd⟩
    have htotal := hlt hany
    omega

end

/-! ### All values -/

theorem readIffBacked_of_elementary {kind : Kind} {value : Value} {body : Bytes} (hkind : kind.isSequence = false)
    (h : encodeValue kind value = .ok body) (hlen : body.length < 2 ^ 64) : ReadIffBacked kind value body := by
  intro rest _
  have hgives := gives_of_elementary hkind h hlen
  exact iff_of_true ⟨fun _ => List.append_ne_nil_of_left_ne_nil hgives.body_ne_nil rest, hgives.read rest⟩
    (isBacked_of_elementary hkind value rest.length)

theorem thirtyTwo_le_headSizes {kinds : List Kind} (h : Kind.anyDynamic kinds = true) :
    32 ≤ Kind.headSizes kinds := by
  induction kinds with
  | nil => cases h
  | cons kind kinds ih =>
    rw [Kind.anyDynamic, Bool.or_eq_true] at h
    rw [Kind.headSizes]
    rcases h with hkind | hkinds
    · rw [Kind.headSize_of_isDynamic hkind]
      omega
    · have hle := ih hkinds
      omega

theorem append_ne_nil_of_headSizes_le {components : List Component} {rest : Bytes}
    (hhead : Kind.headSizes (components.map kind) ≤ (written components ++ rest).length)
    (h : Kind.anyDynamic (components.map kind) = true) : written components ++ rest ≠ [] := by
  have hpos := thirtyTwo_le_headSizes h
  exact List.ne_nil_of_length_pos (by omega)

theorem length_written_replicate {elem : Kind} {n : Nat} {components : List Component}
    (hkinds : components.map kind = List.replicate n elem) (hfits : ∀ c ∈ components, c.Fits) :
    (written components).length = n * elem.headSize + tailSize components := by
  rw [length_written hfits, headSize, hkinds, Kind.headSizes_replicate]

/-- The reader asks for an octet for each element. Elements that take octets are there, the others need what
follows. -/
theorem needed_le_iff {elem : Kind} {items : List Value} {components : List Component}
    (hkinds : components.map kind = List.replicate items.length elem) (hfits : ∀ c ∈ components, c.Fits)
    (hn : items.length < 2 ^ 64) (rest : Bytes) :
    min (items.length * max elem.headSize 1) maxCount ≤ (written components ++ rest).length ↔
      elem.headSize ≠ 0 ∨ items.length ≤ rest.length := by
  have hsize := length_written_replicate hkinds hfits
  rw [List.length_append]
  by_cases hzero : elem.headSize = 0
  · have hstatic : ∀ c ∈ components, c.kind.isDynamic = false := by
      intro c hc
      have hmem : c.kind ∈ List.replicate items.length elem := hkinds ▸ List.mem_map_of_mem hc
      refine Bool.eq_false_iff.mpr fun hd => ?_
      rw [List.eq_of_mem_replicate hmem] at hd
      rw [Kind.headSize_of_isDynamic hd] at hzero
      cases hzero
    rw [tailSize_of_static hstatic, hzero] at hsize
    have hmax : max elem.headSize 1 = 1 := by omega
    rw [hsize, hmax, maxCount]
    omega
  · have hmax : max elem.headSize 1 = elem.headSize := by omega
    rw [hmax]
    exact iff_of_true (by omega) (.inl hzero)

/-- A count of 2^64 or more is not read as it is. Elements so many take no octets, and as many do not follow. -/
theorem decodeValue_ne_of_count {elem : Kind} {items : List Value} (hn : 2 ^ 64 ≤ items.length) (data : Bytes) :
    decodeValue (.array elem) (countWord items.length ++ data) ≠ .ok (.array items) := by
  intro hread
  have hcount : countWord items.length = countWord (items.length % 2 ^ 64) := by
    rw [countWord, countWord, Nat.mod_mod]
  have hlt : items.length % 2 ^ 64 < 2 ^ 64 := Nat.mod_lt _ (by decide)
  rw [hcount, decodeValue_array_iff hlt, slots_replicate] at hread
  obtain ⟨hlength, -⟩ := exists_read_of_readSlots_replicate hread.2.2.2
  omega

theorem readIffBacked_array {elem : Kind} {items : List Value} {components : List Component}
    (hcounted : elem.isCounted = true) (hkinds : components.map kind = List.replicate items.length elem)
    (hvalues : components.map value = items)
    (hcomponents : ∀ c ∈ components, c.IsWritten ∧ (c.body.length < 2 ^ 64 → ReadIffBacked c.kind c.value c.body))
    (hlen : (countWord items.length ++ written components).length < 2 ^ 64) :
    ReadIffBacked (.array elem) (.array items) (countWord items.length ++ written components) := by
  intro rest hlt
  have hlt := hlt rfl
  have hne : countWord items.length ++ written components ++ rest ≠ [] := by
    refine List.ne_nil_of_length_pos ?_
    rw [List.length_append, List.length_append, length_countWord]
    omega
  rw [List.length_append, length_countWord] at hlen hlt
  have hfits := fits_of_isWritten (by omega) fun c hc => (hcomponents c hc).1
  rw [and_iff_right fun _ => hne, List.append_assoc, isBacked, Bool.and_eq_true, Bool.or_eq_true, bne_iff_ne,
    decide_eq_true_eq]
  by_cases hn : items.length < 2 ^ 64
  · -- what the reader asks for in front of the elements is the first demand, and the elements are the second
    obtain ⟨hhead, hread⟩ := readSlots_written_iff (by omega) hcomponents rest fun _ => by omega
    rw [hkinds, Kind.headSizes_replicate] at hhead
    rw [hkinds, hvalues] at hread
    rw [decodeValue_array_iff hn, needed_le_iff hkinds hfits hn, hread, and_iff_right hcounted, and_iff_right hhead]
  · have hsize := length_written_replicate hkinds hfits
    -- so many elements are below 2^64 octets only if they take none
    have hzero : elem.headSize = 0 := by
      refine Nat.eq_zero_of_not_pos fun hpos => ?_
      have hle := Nat.le_mul_of_pos_right items.length hpos
      omega
    refine iff_of_false (decodeValue_ne_of_count (by omega) _) ?_
    rintro ⟨hpos | hle, -⟩
    · exact hpos hzero
    · omega

/-- In a sequence without an empty list that cannot be counted, no component has one. -/
theorem readIffBacked_of_components {components : List Component}
    (hlists : ListsCounted (components.map kind) (components.map value))
    (h : ∀ c ∈ components, c.IsWritten ∧
      (¬ c.value.HasUncountedList c.kind → c.body.length < 2 ^ 64 → ReadIffBacked c.kind c.value c.body)) :
    ∀ c ∈ components, c.IsWritten ∧ (c.body.length < 2 ^ 64 → ReadIffBacked c.kind c.value c.body) := by
  rw [ListsCounted, List.zip_map', List.forall_mem_map] at hlists
  exact fun c hc => (h c hc).imp_right fun hread => hread (hlists c hc)

/-- A written value is read exactly if it is backed, whatever follows it below 2^64 octets. -/
theorem reads_written_iff {kind : Kind} {value : Value} {body : Bytes} (h : encodeValue kind value = .ok body)
    (hlists : ¬ value.HasUncountedList kind) (hlen : body.length < 2 ^ 64) : ReadIffBacked kind value body := by
  revert hlists hlen
  refine written_induction (motive := fun kind value body =>
    ¬ value.HasUncountedList kind → body.length < 2 ^ 64 → ReadIffBacked kind value body)
    ?elementary ?array ?fixedArray ?tuple h
  case elementary => exact fun hkind hbody _ => readIffBacked_of_elementary hkind hbody
  case array =>
    intro elem items components hcounted hkinds hvalues hcomponents hlists hlen
    obtain ⟨hempty, heach⟩ := Value.not_hasUncountedList_array_iff.mp hlists
    have hinside : ListsCounted (components.map Component.kind) (components.map Component.value) := by
      rw [hkinds, hvalues]
      exact forall_mem_zip_replicate_iff.mpr heach
    have helem : elem.isCounted = true := by
      by_cases hnil : items = []
      · exact hempty hnil
      · exact hcounted hnil
    exact readIffBacked_array helem hkinds hvalues (readIffBacked_of_components hinside hcomponents) hlen
  case fixedArray =>
    intro elem items components hcounted hkinds hvalues hcomponents hlists hlen rest hlt
    have hinside : ListsCounted (components.map Component.kind) (components.map Component.value) := by
      rw [hkinds, hvalues]
      exact forall_mem_zip_replicate_iff.mpr (Value.not_hasUncountedList_fixedArray_iff.mp hlists)
    have hany : Kind.anyDynamic (components.map Component.kind) = true ↔
        items.length ≠ 0 ∧ elem.isDynamic = true := by
      rw [hkinds, anyDynamic_replicate_iff]
    obtain ⟨hhead, hread⟩ := readSlots_written_iff hlen (readIffBacked_of_components hinside hcomponents) rest
      fun h => hlt (hany.mp h).2
    have hne := append_ne_nil_of_headSizes_le hhead
    rw [hkinds, Kind.headSizes_replicate] at hhead
    rw [hkinds, hvalues, slots_replicate] at hread
    have hcounted : items.length ≠ 0 → elem.isCounted = true := fun hlength =>
      hcounted (List.ne_nil_of_length_pos (Nat.pos_of_ne_zero hlength))
    rw [decodeValue_fixedArray_eq_ok_iff, and_iff_right hcounted, and_iff_right hhead]
    simp only [Value.fixedArray.injEq, exists_eq_right]
    rw [hread, isBacked, Bool.and_eq_true, Kind.isDynamic]
    refine and_congr_left fun _ => ?_
    -- only an array of dynamic elements has to begin at an octet, and only without elements may there be none
    cases hd : elem.isDynamic with
    | false => exact iff_of_true (fun h => absurd h Bool.false_ne_true) rfl
    | true =>
      cases items with
      | nil =>
        obtain rfl := List.map_eq_nil_iff.mp hvalues
        simp [written, headSize, Kind.headSizes, layout, heads, tails, List.length_pos_iff]
      | cons item items => exact iff_of_true (fun _ => hne (hany.mpr ⟨Nat.succ_ne_zero _, hd⟩)) rfl
  case tuple =>
    intro members items components hcounted hkinds hvalues hcomponents hlists hlen rest hlt
    have hinside : ListsCounted (components.map Component.kind) (components.map Component.value) := by
      rw [hkinds, hvalues]
      exact Value.not_hasUncountedList_tuple_iff.mp hlists
    obtain ⟨hhead, hread⟩ := readSlots_written_iff hlen (readIffBacked_of_components hinside hcomponents) rest
      fun hany => hlt (by rwa [hkinds] at hany)
    have hne := append_ne_nil_of_headSizes_le hhead
    rw [hkinds] at hhead hne
    rw [hkinds, hvalues] at hread
    rw [decodeValue_tuple_eq_ok_iff, and_iff_right hcounted, and_iff_right hhead]
    simp only [Value.tuple.injEq, exists_eq_right]
    rw [hread, isBacked, Kind.isDynamic]
    exact and_iff_right hne

theorem decode_append_iff {kinds : List Kind} {values : List Value} {data junk : Bytes} (hkinds : kinds ≠ [])
    (hlists : ListsCounted kinds values) (hlen : data.length + junk.length < 2 ^ 64)
    (h : encode kinds values = .ok data) :
    decode kinds (data ++ junk) = .ok values ↔ data ++ junk ≠ [] ∧ areBacked kinds values junk.length = true := by
  have hread := reads_written_iff (encode_eq_ok_iff.mp h) (Value.not_hasUncountedList_tuple_iff.mpr hlists) (by omega)
    junk fun _ => hlen
  rw [isBacked] at hread
  rw [decode_eq_ok_iff, ← hread]
  constructor
  · rintro (⟨hnil, -⟩ | ⟨-, hdata, hvalues⟩)
    · exact absurd hnil hkinds
    · exact ⟨hdata, fun _ => hdata, hvalues⟩
  · rintro ⟨hdata, -, hvalues⟩
    exact .inr ⟨hkinds, hdata, hvalues⟩

/-- **Hollow parts are read back exactly where octets stand behind them.** The values of a list of types, in which
every list can be counted, are read from what they were written as, unless that is no octets at all, or an array
of length zero with dynamic elements stands behind all others, or an array of any length whose elements take no
octets has more of them than octets behind it. Octet strings are shorter than 2^64. -/
theorem hollow_parts_are_read_back_iff {kinds : List Kind} {values : List Value} {data : Bytes}
    (hkinds : kinds ≠ []) (hlists : ListsCounted kinds values) (hlen : data.length < 2 ^ 64)
    (h : encode kinds values = .ok data) :
    decode kinds data = .ok values ↔ data ≠ [] ∧ areBacked kinds values 0 = true := by
  have hread := @decode_append_iff kinds values data [] hkinds hlists hlen h
  rwa [List.append_nil] at hread

/-- Octets behind them back an array of no texts and a list of two empty tuples; a tuple asks for nothing. -/
theorem octets_back_hollow_parts :
    let kinds : List Kind := [.fixedArray .string 0, .array (.tuple []), .bytes, .tuple []]
    let values : List Value := [.fixedArray [], .array [.tuple [], .tuple []], .bytes [0x2a], .tuple []]
    ∃ data : Bytes, encode kinds values = .ok data ∧ data.length = 192 ∧ decode kinds data = .ok values := by
  intro kinds values
  obtain ⟨data, h, hlen⟩ : ∃ data, encode kinds values = .ok data ∧ data.length = 192 :=
    ⟨_, rfl, by decide +kernel⟩
  have hdata : data ≠ [] := List.ne_nil_of_length_pos (by omega)
  have hlists : ListsCounted kinds values := listsCounted_of_countedThroughout (by decide) values
  have hread := hollow_parts_are_read_back_iff (List.cons_ne_nil _ _) hlists (by omega) h
  exact ⟨data, h, hlen, hread.mpr ⟨hdata, by decide⟩⟩

/-- With nothing behind them an empty tuple, an array of no texts and a list of one empty tuple are written and
not read. -/
theorem hollow_parts_at_the_end_are_not_read :
    (Kind.parse "()".toList = .ok (.tuple []) ∧ encode [.tuple []] [.tuple []] = .ok [] ∧
      decode [.tuple []] [] = .error .abiNoData) ∧
    (Kind.parse "string[0]".toList = .ok (.fixedArray .string 0) ∧
      encode [.fixedArray .string 0] [.fixedArray []] = .ok (countWord 32) ∧
      decode [.fixedArray .string 0] (countWord 32) = .error (.abiOffset 32 32)) ∧
    (Kind.parse "()[]".toList = .ok (.array (.tuple [])) ∧
      encode [.array (.tuple [])] [.array [.tuple []]] = .ok (countWord 32 ++ countWord 1) ∧
      decode [.array (.tuple [])] (countWord 32 ++ countWord 1) = .error (.abiDataSize 33 32)) := by
  have hnone : (Kind.tuple []).IsAdmitted := .tuple (by simp)
  refine ⟨⟨?_, rfl, rfl⟩, ⟨?_, rfl, rfl⟩, ⟨?_, rfl, rfl⟩⟩
  · exact (spells_text hnone).parse_eq
  · exact (spells_text (.fixedArray .string (Nat.zero_le _))).parse_eq
  · exact (spells_text (.array hnone)).parse_eq

end Abi
end EthWire
