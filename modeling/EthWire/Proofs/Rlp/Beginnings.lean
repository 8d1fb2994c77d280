/-
# The beginning of an item is told from what is no item

An item says in front how long it is. So the reader of an item that is cut off, wherever that is, misses octets
and nothing else: the length octets that the first octet announces, or the payload that the header announces
(`readHeader_take_frame`). What it says is missing takes it no further than the end of the item.

Octets can also be missing inside of a list that is all there, where an item goes on behind the end of the list. No
further octets can mend this, and the reader reports it in the same words. But it then counts only octets
behind the header of the list (`readItem_eq_truncated`), so who has the input can tell the two apart by how
many octets are said to be there (`Rlp.CountsInput`).

Key definitions: `Rlp.hasLengthOctets`, `Rlp.CountsInput`, `Rlp.HoldsFrame`.
Key theorems: `Rlp.readHeader_take_frame`, `Rlp.readItem_eq_truncated`, `Rlp.beginnings_of_items_are_told`.
-/
import EthWire.Proofs.Rlp.RoundTrip

namespace EthWire
namespace Rlp

/-- Whether a first octet says how many length octets follow it. -/
def hasLengthOctets (first : UInt8) : Bool :=
  (0xb8 ≤ first && first < 0xc0) || 0xf8 ≤ first

/-- The octets said to be there are all of the input, or all behind the octet that announces length octets. -/
def CountsInput (input : Bytes) (available : Nat) : Prop :=
  available = input.length ∨ (available + 1 = input.length ∧ input.head?.any hasLengthOctets = true)

/-- The input starts with a header and all of the payload that it announces. -/
def HoldsFrame (input : Bytes) : Prop :=
  ∃ isList payload rest, payload.length < 2 ^ 64 ∧ input = frame isList payload ++ rest

/-! ### First octets -/

theorem hasLengthOctets_of_lt {first : UInt8} (h : first < 0x80) : hasLengthOctets first = false := by
  simp only [UInt8.lt_iff_toNat_lt, UInt8.reduceToNat] at h
  simp only [hasLengthOctets, Bool.or_eq_false_iff, Bool.and_eq_false_iff, decide_eq_false_iff_not,
    UInt8.le_iff_toNat_le, UInt8.lt_iff_toNat_lt, UInt8.reduceToNat]
  omega

theorem hasLengthOctets_short (isList : Bool) {n : Nat} (h : n ≤ 55) :
    hasLengthOctets (baseOctet isList + UInt8.ofNat n) = false := by
  have hfirst : (baseOctet isList + UInt8.ofNat n).toNat = (baseOctet isList).toNat + n :=
    toNat_add_ofNat (by cases isList <;> simp [baseOctet] <;> omega)
  simp only [hasLengthOctets, Bool.or_eq_false_iff, Bool.and_eq_false_iff, decide_eq_false_iff_not,
    UInt8.le_iff_toNat_le, UInt8.lt_iff_toNat_lt, UInt8.reduceToNat, hfirst]
  cases isList <;> simp only [baseOctet, Bool.false_eq_true, if_true, if_false, UInt8.reduceToNat] <;> omega

theorem hasLengthOctets_long (isList : Bool) {n : Nat} (h0 : 0 < n) (h : n ≤ 8) :
    hasLengthOctets (baseOctet isList + 55 + UInt8.ofNat n) = true := by
  have hfirst : (baseOctet isList + 55 + UInt8.ofNat n).toNat = (baseOctet isList + 55).toNat + n :=
    toNat_add_ofNat (by cases isList <;> simp [baseOctet] <;> omega)
  simp only [hasLengthOctets, Bool.or_eq_true, Bool.and_eq_true, decide_eq_true_eq,
    UInt8.le_iff_toNat_le, UInt8.lt_iff_toNat_lt, UInt8.reduceToNat, hfirst]
  cases isList <;>
    simp only [baseOctet, Bool.false_eq_true, if_true, if_false, show (0x80 + 55 : UInt8).toNat = 183 from rfl,
      show (0xc0 + 55 : UInt8).toNat = 247 from rfl] <;> omega

/-- A length in the first octet is the header, unless one octet below 0x80 follows that is written without a
header. -/
theorem headerAt_short_cases (isList : Bool) {n : Nat} (h : n ≤ 55) (rest : Bytes) :
    headerAt (baseOctet isList + UInt8.ofNat n) rest = .ok ⟨isList, 1, n⟩ ∨
      headerAt (baseOctet isList + UInt8.ofNat n) rest = .error .rlpNotCanonical := by
  by_cases hbare : isList = false ∧ n = 1 ∧ rest.head?.any (· < 0x80) = true
  · obtain ⟨rfl, rfl, hbare⟩ := hbare
    exact .inr (by simp [headerAt, baseOctet, hbare])
  · exact .inl (headerAt_of_short h fun hl h1 => hbare ⟨hl, h1⟩)

theorem offset_of_headerAt {first : UInt8} {rest : Bytes} {header : Header}
    (h : headerAt first rest = .ok header) :
    (header.isList = true → 1 ≤ header.offset) ∧ (hasLengthOctets first = true → 2 ≤ header.offset) := by
  rcases octet_cases first with hlow | ⟨isList, n, hn, rfl⟩ | ⟨isList, n, hpos, hn, rfl⟩
  · simp only [headerAt, hlow, if_true, Except.ok.injEq] at h
    rw [← h, hasLengthOctets_of_lt hlow]
    exact ⟨fun hlist => absurd hlist Bool.false_ne_true, fun hlong => absurd hlong Bool.false_ne_true⟩
  · rcases headerAt_short_cases isList hn rest with hat | hat
    · rw [hat, Except.ok.injEq] at h
      rw [← h, hasLengthOctets_short isList hn]
      exact ⟨fun _ => Nat.le_refl 1, fun hlong => absurd hlong Bool.false_ne_true⟩
    · rw [hat] at h
      cases h
  · rw [headerAt_of_long hpos hn, map_eq_ok_iff] at h
    obtain ⟨length, -, rfl⟩ := h
    exact ⟨fun _ => Nat.le_add_right 1 n, fun _ => Nat.add_le_add_left hpos 1⟩

theorem headerAt_eq_truncated {first : UInt8} {rest : Bytes} {needed available : Nat}
    (h : headerAt first rest = .error (.rlpTruncated needed available)) :
    available = rest.length ∧ hasLengthOctets first = true := by
  rcases octet_cases first with hlow | ⟨isList, n, hn, rfl⟩ | ⟨isList, n, hpos, hn, rfl⟩
  · simp [headerAt, hlow] at h
  · rcases headerAt_short_cases isList hn rest with hat | hat <;> rw [hat] at h <;> cases h
  · rw [headerAt_of_long hpos hn] at h
    refine ⟨?_, hasLengthOctets_long isList hpos hn⟩
    unfold readLength at h
    split at h
    · dsimp only at h
      split at h <;> cases h
    · cases h
      rfl

/-! ### Octets that are missing -/

theorem readLength_of_missing {count : Nat} {input : Bytes} (h : input.length < count) :
    readLength count input = .error (.rlpTruncated count input.length) := by
  rw [readLength, if_neg (by rw [Bytes.hasAtLeast_iff]; omega)]

theorem readHeader_of_missing {first : UInt8} {rest : Bytes} {header : Header}
    (h : headerAt first rest = .ok header) (hmissing : rest.length + 1 < header.offset + header.length) :
    readHeader (first :: rest)
      = .error (.rlpTruncated (min (header.offset + header.length) (2 ^ 64 - 1)) (rest.length + 1)) := by
  have hless : Bytes.hasAtLeast (header.offset + header.length) (first :: rest) = false := by
    rw [Bool.eq_false_iff, ne_eq, Bytes.hasAtLeast_iff, List.length_cons]
    omega
  rw [readHeader, h]
  simp only [bind, Except.bind, hless]
  rfl

/-- Where the header reader misses octets, it has counted all that there are. -/
theorem countsInput_of_readHeader {input : Bytes} {needed available : Nat}
    (h : readHeader input = .error (.rlpTruncated needed available)) : CountsInput input available := by
  cases input with
  | nil =>
    cases h
    exact .inl rfl
  | cons first rest =>
    cases hat : headerAt first rest with
    | error cause =>
      rw [readHeader, hat] at h
      obtain rfl : cause = .rlpTruncated needed available := Except.error.inj h
      obtain ⟨rfl, hlong⟩ := headerAt_eq_truncated hat
      exact .inr ⟨rfl, hlong⟩
    | ok header =>
      by_cases hneed : header.offset + header.length ≤ rest.length + 1
      · rw [readHeader_cons_eq_ok_iff.mpr ⟨hat, hneed⟩] at h
        cases h
      · rw [readHeader_of_missing hat (by omega)] at h
        cases h
        exact .inl rfl

theorem CountsInput.le {input : Bytes} {available : Nat} (h : CountsInput input available) :
    available ≤ input.length := by
  rcases h with h | h <;> omega

theorem readRun_eq_truncated {read : Bytes → Except Error (Item × Nat)} {needed available : Nat}
    (hread : ∀ input, read input = .error (.rlpTruncated needed available) → available ≤ input.length) :
    ∀ {input : Bytes}, readRun read input = .error (.rlpTruncated needed available) → available ≤ input.length
  | [], h => by
    rw [readRun] at h
    cases h
  | b :: rest, h => by
    rw [readRun, bind_eq_error_iff] at h
    rcases h with h | ⟨⟨item, used⟩, -, h⟩
    · exact hread _ h
    · cases used with
      | zero => cases h
      | succ used =>
        rw [bind_eq_error_iff] at h
        rcases h with h | ⟨items, -, h⟩
        · have hle := readRun_eq_truncated hread h
          rw [List.length_drop] at hle
          rw [List.length_cons]
          omega
        · cases h
termination_by input => input.length
decreasing_by simp only [List.length_drop, List.length_cons]; omega

/-- Octets are missing at the header, or behind it. What is counted behind a header does not include the
header. -/
theorem readItem_eq_truncated : ∀ {levels : Nat} {input : Bytes} {needed available : Nat},
    readItem levels input = .error (.rlpTruncated needed available) →
    readHeader input = .error (.rlpTruncated needed available) ∨
      ∃ header, readHeader input = .ok header ∧ header.isList = true ∧ available + header.offset ≤ input.length
  | 0, _, _, _, h => by cases h
  | levels + 1, input, needed, available, h => by
    rw [readItem, bind_eq_error_iff] at h
    rcases h with h | ⟨header, hheader, h⟩
    · exact .inl h
    · right
      by_cases hlist : header.isList = true
      · rw [if_pos hlist, bind_eq_error_iff] at h
        rcases h with h | ⟨items, -, h⟩
        · have hinside : ∀ inside, readItem levels inside = .error (.rlpTruncated needed available) →
              available ≤ inside.length := by
            intro inside h
            rcases readItem_eq_truncated h with h | ⟨_, -, -, hle⟩
            · exact (countsInput_of_readHeader h).le
            · omega
          have hle := readRun_eq_truncated hinside h
          rw [List.length_take, List.length_drop] at hle
          obtain ⟨payload, rest, hpayload, hinput⟩ := exists_frame_of_readHeader hheader
          rw [hinput, readHeader_frame hpayload, Except.ok.injEq] at hheader
          refine ⟨header, by rw [hinput, readHeader_frame hpayload, hheader], hlist, ?_⟩
          have hoffset : header.offset ≤ (frame header.isList payload).length := by
            rw [← hheader]
            exact Nat.sub_le _ _
          rw [hinput, List.length_append] at hle ⊢
          omega
        · cases h
      · rw [if_neg hlist] at h
        cases h

theorem holdsFrame_iff {input : Bytes} : HoldsFrame input ↔ ∃ header, readHeader input = .ok header := by
  constructor
  · rintro ⟨isList, payload, rest, hpayload, rfl⟩
    exact ⟨_, readHeader_frame hpayload rest⟩
  · rintro ⟨header, h⟩
    obtain ⟨payload, rest, hpayload, hinput⟩ := exists_frame_of_readHeader h
    exact ⟨header.isList, payload, rest, hpayload, hinput⟩

theorem decodeFront_eq_error_iff {input : Bytes} {cause : Error} :
    decodeFront input = .error cause ↔ readItem maxLevels input = .error cause := by
  rw [decodeFront]
  cases readItem maxLevels input <;> simp [bind, Except.bind, pure, Except.pure]

/-- Who has the input can tell whether the octets that are missing are those of its first item or of one
inside: in the first case all of the input was counted. -/
theorem countsInput_iff {input : Bytes} {needed available : Nat}
    (h : decodeFront input = .error (.rlpTruncated needed available)) :
    CountsInput input available ↔ ¬ HoldsFrame input := by
  rw [holdsFrame_iff]
  rcases readItem_eq_truncated (decodeFront_eq_error_iff.mp h) with hcut | ⟨header, hheader, hlist, hle⟩
  · refine iff_of_true (countsInput_of_readHeader hcut) ?_
    rintro ⟨header, hheader⟩
    rw [hcut] at hheader
    cases hheader
  · refine iff_of_false ?_ (not_not_intro ⟨header, hheader⟩)
    cases input with
    | nil => cases hheader
    | cons first rest =>
      obtain ⟨hat, -⟩ := readHeader_cons_eq_ok_iff.mp hheader
      obtain ⟨hoffset, hlonger⟩ := offset_of_headerAt hat
      have hpos := hoffset hlist
      rintro (hall | ⟨hbehind, hlong⟩)
      · omega
      · have := hlonger hlong
        omega

/-! ### Beginnings -/

section

variable {isList : Bool} {payload : Bytes}

theorem readHeader_take_short {k : Nat} (hs : payload.length ≤ 55) (hbare : ¬ IsBare isList payload)
    (hk : k < payload.length) :
    readHeader ((baseOctet isList + UInt8.ofNat payload.length) :: payload.take k)
      = .error (.rlpTruncated (1 + payload.length) (k + 1)) := by
  have hcount : (payload.take k).length = k := List.length_take_of_le (Nat.le_of_lt hk)
  have hat : headerAt (baseOctet isList + UInt8.ofNat payload.length) (payload.take k)
      = .ok ⟨isList, 1, payload.length⟩ := by
    refine headerAt_of_short hs fun hl hlow => hbare ⟨hl, ?_⟩
    -- the payload is one octet, so nothing of it is there
    have hnone : k = 0 := by omega
    simp [hnone] at hlow
  rw [readHeader_of_missing hat (by simp only; omega), hcount, Nat.min_eq_left (by simp only; omega)]

/-- Where a header has length octets, the cut is among them, and the rest of them is missing, or it is behind them,
and then it is octets of the payload that are missing. -/
theorem readHeader_take_long {k : Nat} (hl : 55 < payload.length)
    (hlen : (lengthOctets payload.length).length + payload.length < 2 ^ 64 - 1)
    (hk : k < (lengthOctets payload.length).length + payload.length) :
    readHeader ((baseOctet isList + 55 + UInt8.ofNat (lengthOctets payload.length).length) ::
        (lengthOctets payload.length ++ payload).take k)
      = .error (if k < (lengthOctets payload.length).length
          then .rlpTruncated (lengthOctets payload.length).length k
          else .rlpTruncated (1 + (lengthOctets payload.length).length + payload.length) (k + 1)) := by
  have hpos := length_lengthOctets_pos (show 0 < payload.length by omega) (by omega)
  have hle := length_lengthOctets_le payload.length
  by_cases hinside : k < (lengthOctets payload.length).length
  · have hthere : (lengthOctets payload.length ++ payload).take k = (lengthOctets payload.length).take k :=
      List.take_append_of_le_length (Nat.le_of_lt hinside)
    have hcount : ((lengthOctets payload.length).take k).length = k :=
      List.length_take_of_le (Nat.le_of_lt hinside)
    rw [if_pos hinside, hthere, readHeader, headerAt_of_long hpos hle,
      readLength_of_missing (by rw [hcount]; exact hinside), hcount]
    rfl
  · have hthere : (lengthOctets payload.length ++ payload).take k
        = lengthOctets payload.length ++ payload.take (k - (lengthOctets payload.length).length) := by
      rw [List.take_append, List.take_of_length_le (by omega)]
    have hcount : ((lengthOctets payload.length ++ payload).take k).length = k :=
      List.length_take_of_le (by rw [List.length_append]; omega)
    have hat : headerAt (baseOctet isList + 55 + UInt8.ofNat (lengthOctets payload.length).length)
        ((lengthOctets payload.length ++ payload).take k)
        = .ok ⟨isList, 1 + (lengthOctets payload.length).length, payload.length⟩ := by
      rw [hthere, headerAt_of_long hpos hle, (readLength_eq_ok_iff hle).mpr ⟨hl, by omega, rfl, _, rfl⟩]
      rfl
    rw [if_neg hinside, readHeader_of_missing hat (by simp only; omega), hcount,
      Nat.min_eq_left (by simp only; omega)]

/-- A frame that is cut off misses octets, as many as its header or its payload goes on. -/
theorem readHeader_take_frame {n : Nat} (hlen : (frame isList payload).length < 2 ^ 64)
    (hn : n < (frame isList payload).length) :
    ∃ needed available, readHeader ((frame isList payload).take n) = .error (.rlpTruncated needed available) ∧
      available < needed ∧ n + needed ≤ available + (frame isList payload).length := by
  by_cases hbare : IsBare isList payload
  · obtain ⟨rfl, b, rfl, hb⟩ := hbare
    rw [frame_of_bare hb] at hn ⊢
    obtain rfl : n = 0 := by simpa using hn
    exact ⟨1, 0, rfl, by decide, by simp⟩
  rw [frame_of_not_bare hbare] at hlen hn ⊢
  cases n with
  | zero => exact ⟨1, 0, rfl, by decide, by omega⟩
  | succ k =>
    by_cases hs : payload.length ≤ 55
    · rw [header_short hs, List.singleton_append, List.length_cons] at hn ⊢
      rw [List.take_succ_cons, readHeader_take_short hs hbare (by omega)]
      exact ⟨_, _, rfl, by omega, by omega⟩
    · have hl : 55 < payload.length := by omega
      rw [header_long hl, List.cons_append, List.length_cons, List.length_append] at hlen hn ⊢
      rw [List.take_succ_cons, readHeader_take_long hl (by omega) (by omega)]
      split
      · exact ⟨_, _, rfl, by omega, by omega⟩
      · exact ⟨_, _, rfl, by omega, by omega⟩

end

theorem decode_eq_error_of_decodeFront {input : Bytes} {cause : Error} (h : decodeFront input = .error cause) :
    decode input = .error cause := by
  rw [decode, h]
  rfl

/-- **The beginning of an item is told from what is no item.** Octets are missing in each beginning, for the
reader of one item and for the reader of an item in front of others; they are more than are counted as being
there, and no more are asked for than the item has. Where the reader says that octets are missing, who has the
input can tell whether the item goes on behind it: this is so exactly if all of the input was counted. -/
theorem beginnings_of_items_are_told :
    (∀ item : Item, (encode item).length < 2 ^ 64 →
      ∀ front : Bytes, front <+: encode item → front ≠ encode item →
        ∃ needed available, available < needed ∧ decodeFront front = .error (.rlpTruncated needed available) ∧
          decode front = .error (.rlpTruncated needed available) ∧
          front.length + needed ≤ available + (encode item).length ∧ CountsInput front available) ∧
    ∀ (input : Bytes) (needed available : Nat), decodeFront input = .error (.rlpTruncated needed available) →
      (CountsInput input available ↔ ¬ HoldsFrame input) := by
  refine ⟨fun item hlen front hfront hne => ?_, fun input needed available h => countsInput_iff h⟩
  have hshorter : front.length < (encode item).length :=
    Nat.lt_of_le_of_ne hfront.length_le fun heq => hne (hfront.eq_of_length heq)
  have hcut : front = (encode item).take front.length := List.prefix_iff_eq_take.mp hfront
  rw [encode_eq_frame] at hlen hshorter hcut ⊢
  obtain ⟨needed, available, hheader, hless, hmore⟩ := readHeader_take_frame hlen hshorter
  rw [← hcut] at hheader
  have hread : decodeFront front = .error (.rlpTruncated needed available) := by
    rw [decodeFront_eq_error_iff, maxLevels, readItem, hheader]
    rfl
  exact ⟨needed, available, hless, hread, decode_eq_error_of_decodeFront hread, hmore,
    countsInput_of_readHeader hheader⟩

/-- Of a list with a long header only the first octet, and a list that ends inside of its only item. -/
theorem long_header_is_cut_off :
    let item : Item := .list [.bytes (List.replicate 60 0x61)]
    ([0xf8] : Bytes) <+: encode item ∧ ([0xf8] : Bytes) ≠ encode item ∧ (encode item).length < 2 ^ 64 ∧
      (∃ needed available, available < needed ∧ decodeFront [0xf8] = .error (.rlpTruncated needed available) ∧
        decode [0xf8] = .error (.rlpTruncated needed available) ∧
        1 + needed ≤ available + (encode item).length ∧ CountsInput [0xf8] available) ∧
      decodeFront [0xc1, 0x82] = .error (.rlpTruncated 3 1) ∧ ¬ CountsInput [0xc1, 0x82] 1 := by
  intro item
  have hfront : ([0xf8] : Bytes) <+: encode item := ⟨_, rfl⟩
  have hne : ([0xf8] : Bytes) ≠ encode item := by decide
  have hlen : (encode item).length < 2 ^ 64 := by decide
  have hinside : decodeFront [0xc1, 0x82] = .error (.rlpTruncated 3 1) := by cbv
  have hframe : HoldsFrame [0xc1, 0x82] := ⟨true, [0x82], [], by decide, rfl⟩
  exact ⟨hfront, hne, hlen, beginnings_of_items_are_told.1 item hlen _ hfront hne, hinside,
    fun hcounts => (beginnings_of_items_are_told.2 _ _ _ hinside).mp hcounts hframe⟩

end Rlp
end EthWire
