/-
# Payloads behind their headers

Every encoding is a frame: a payload of a kind behind the header that announces it, or one octet below
0x80 that stands for itself (`encode_eq_frame`). The header reader accepts frames and nothing else, and
tells where the payload lies (`readHeader_frame`, `exists_frame_of_readHeader`). Every other spelling of
a length differs from the frame of its payload, so the two hold all that the reader checks about canonical
form.

Lengths are read from at most eight octets, so a frame that is read holds fewer than 2^64 octets.

Key definitions: `Rlp.frame`, `Rlp.Item.isList`, `Rlp.Item.payload`.
Key theorems: `Rlp.readLength_eq_ok_iff`, `Rlp.readHeader_frame`, `Rlp.exists_frame_of_readHeader`.
-/
import EthWire.Proofs.Bytes.BigEndian
import EthWire.Proofs.Outcome
import EthWire.Rlp.Decoding
import EthWire.Rlp.Encoding

namespace EthWire
namespace Rlp

/-- A payload of a kind behind its header. -/
def frame (isList : Bool) (payload : Bytes) : Bytes :=
  if isList then header 0xc0 payload.length ++ payload else encodeBytes payload

namespace Item

def isList : Item → Bool
  | bytes _ => false
  | list _ => true

/-- What stands behind the header of an item. -/
def payload : Item → Bytes
  | bytes content => content
  | list items => encodeAll items

end Item

theorem encode_eq_frame (item : Item) : encode item = frame item.isList item.payload := by
  cases item <;> simp [encode, frame, Item.isList, Item.payload]

/-! ### Headers -/

/-- The octets in which a length beyond 55 is written. -/
def lengthOctets (length : Nat) : Bytes :=
  Bytes.significant (Bytes.toBigEndian 8 length)

theorem header_short {base : UInt8} {length : Nat} (h : length ≤ 55) :
    header base length = [base + UInt8.ofNat length] := by
  rw [header, if_pos h]

theorem header_long {base : UInt8} {length : Nat} (h : 55 < length) :
    header base length
      = (base + 55 + UInt8.ofNat (lengthOctets length).length) :: lengthOctets length := by
  rw [header, if_neg (by omega)]
  rfl

theorem ofBigEndian_lengthOctets {length : Nat} (h : length < 2 ^ 64) :
    Bytes.ofBigEndian (lengthOctets length) = length :=
  Bytes.ofBigEndian_significant_toBigEndian (by omega)

theorem length_lengthOctets_le (length : Nat) : (lengthOctets length).length ≤ 8 := by
  simpa [lengthOctets] using Bytes.length_significant_le (Bytes.toBigEndian 8 length)

theorem length_lengthOctets_pos {length : Nat} (h : 0 < length) (hl : length < 2 ^ 64) :
    0 < (lengthOctets length).length := by
  rw [List.length_pos_iff]
  intro h0
  have := ofBigEndian_lengthOctets hl
  rw [h0, Bytes.ofBigEndian_nil] at this
  omega

/-- Length octets are read only in their shortest form, and only where it is needed. -/
theorem readLength_eq_ok_iff {count length : Nat} {input : Bytes} (hc : count ≤ 8) :
    readLength count input = .ok length ↔
      55 < length ∧ length < 2 ^ 64 ∧ (lengthOctets length).length = count ∧
        ∃ rest, input = lengthOctets length ++ rest := by
  unfold readLength
  refine ⟨fun h => ?_, fun h => ?_⟩
  · by_cases hlen : Bytes.hasAtLeast count input = true
    · rw [if_pos hlen] at h
      rw [Bytes.hasAtLeast_iff] at hlen
      have htake : (input.take count).length = count := List.length_take_of_le hlen
      by_cases hbad : (input.take count).head? = some 0 ∨ Bytes.ofBigEndian (input.take count) ≤ 55
      · simp [hbad] at h
      · simp only [hbad, if_false, Except.ok.injEq] at h
        rw [not_or] at hbad
        have hoct : lengthOctets length = input.take count := by
          rw [← h]
          exact Bytes.significant_toBigEndian_ofBigEndian (by omega) hbad.1
        have hlt := Bytes.ofBigEndian_lt (input.take count)
        have hpow : 256 ^ count ≤ 256 ^ 8 := Nat.pow_le_pow_right (by decide) hc
        rw [htake] at hlt
        refine ⟨by omega, by omega, by rw [hoct, htake], input.drop count, ?_⟩
        rw [hoct, List.take_append_drop]
    · simp [hlen] at h
  · obtain ⟨hl, hl', hcount, rest, rfl⟩ := h
    have hlen : Bytes.hasAtLeast count (lengthOctets length ++ rest) = true := by
      rw [Bytes.hasAtLeast_iff, List.length_append]
      omega
    have htake : (lengthOctets length ++ rest).take count = lengthOctets length := by
      rw [← hcount, List.take_left]
    rw [if_pos hlen]
    simp only [htake, ofBigEndian_lengthOctets hl']
    rw [if_neg]
    intro h
    rcases h with h0 | h0
    · exact Bytes.head?_significant _ h0
    · omega

/-! ### Frames -/

/-- The first octet of a short header without the length in it. -/
def baseOctet (isList : Bool) : UInt8 :=
  if isList then 0xc0 else 0x80

/-- A payload that is written without a header: one octet below 0x80, as a string. -/
def IsBare (isList : Bool) (payload : Bytes) : Prop :=
  isList = false ∧ ∃ b : UInt8, payload = [b] ∧ b < 0x80

theorem frame_of_bare {b : UInt8} (h : b < 0x80) : frame false [b] = [b] := by
  simp [frame, encodeBytes, h]

theorem frame_of_not_bare {isList : Bool} {payload : Bytes} (h : ¬ IsBare isList payload) :
    frame isList payload = header (baseOctet isList) payload.length ++ payload := by
  cases isList with
  | true => rfl
  | false =>
    simp only [frame, encodeBytes, Bool.false_eq_true, if_false, baseOctet]
    split
    · rename_i b
      rw [if_neg fun hb => h ⟨rfl, b, rfl, hb⟩]
      rfl
    · rfl

theorem toNat_add_ofNat {b : UInt8} {n : Nat} (h : b.toNat + n < 256) :
    (b + UInt8.ofNat n).toNat = b.toNat + n := by
  rw [UInt8.toNat_add, UInt8.toNat_ofNat', Nat.mod_eq_of_lt (show n < 2 ^ 8 by omega),
    Nat.mod_eq_of_lt (by omega)]

theorem toNat_add_ofNat_sub {b : UInt8} {n : Nat} (h : n < 256) : (b + UInt8.ofNat n - b).toNat = n := by
  rw [UInt8.add_comm, UInt8.add_sub_cancel, UInt8.toNat_ofNat', Nat.mod_eq_of_lt (by omega)]

theorem headerAt_of_short {isList : Bool} {length : Nat} {rest : Bytes} (h : length ≤ 55)
    (hbare : isList = false → ¬ (length = 1 ∧ rest.head?.any (· < 0x80))) :
    headerAt (baseOctet isList + UInt8.ofNat length) rest = .ok ⟨isList, 1, length⟩ := by
  cases isList with
  | true =>
    have hb : (0xc0 + UInt8.ofNat length).toNat = 192 + length := toNat_add_ofNat (by simp; omega)
    have hs : (0xc0 + UInt8.ofNat length - 0xc0).toNat = length := toNat_add_ofNat_sub (by omega)
    simp only [headerAt, baseOctet, if_true, UInt8.lt_iff_toNat_lt, hb, hs, UInt8.reduceToNat]
    rw [if_neg (by omega), if_neg (by omega), if_neg (by omega), if_pos (by omega)]
  | false =>
    have hb : (0x80 + UInt8.ofNat length).toNat = 128 + length := toNat_add_ofNat (by simp; omega)
    have hs : (0x80 + UInt8.ofNat length - 0x80).toNat = length := toNat_add_ofNat_sub (by omega)
    have h1 : ¬ 0x80 + UInt8.ofNat length < 0x80 := by
      simp only [UInt8.lt_iff_toNat_lt, hb, UInt8.reduceToNat]
      omega
    have h2 : 0x80 + UInt8.ofNat length < 0xb8 := by
      simp only [UInt8.lt_iff_toNat_lt, hb, UInt8.reduceToNat]
      omega
    simp only [headerAt, baseOctet, Bool.false_eq_true, if_false, hs]
    rw [if_neg h1, if_pos h2, if_neg (hbare rfl)]

theorem headerAt_of_long {isList : Bool} {count : Nat} {rest : Bytes} (h0 : 0 < count) (h : count ≤ 8) :
    headerAt (baseOctet isList + 55 + UInt8.ofNat count) rest
      = (readLength count rest).map fun length => ⟨isList, 1 + count, length⟩ := by
  cases isList with
  | true =>
    have hb : (0xf7 + UInt8.ofNat count).toNat = 247 + count := toNat_add_ofNat (by simp; omega)
    have hs : (0xf7 + UInt8.ofNat count - 0xf7).toNat = count := toNat_add_ofNat_sub (by omega)
    simp only [headerAt, baseOctet, if_true, show (0xc0 + 55 : UInt8) = 0xf7 from rfl,
      UInt8.lt_iff_toNat_lt, hb, hs, UInt8.reduceToNat]
    rw [if_neg (by omega), if_neg (by omega), if_neg (by omega), if_neg (by omega)]
  | false =>
    have hb : (0xb7 + UInt8.ofNat count).toNat = 183 + count := toNat_add_ofNat (by simp; omega)
    have hs : (0xb7 + UInt8.ofNat count - 0xb7).toNat = count := toNat_add_ofNat_sub (by omega)
    simp only [headerAt, baseOctet, Bool.false_eq_true, if_false,
      show (0x80 + 55 : UInt8) = 0xb7 from rfl, UInt8.lt_iff_toNat_lt, hb, hs, UInt8.reduceToNat]
    rw [if_neg (by omega), if_neg (by omega), if_pos (by omega)]

/-- A first octet stands for itself, or holds a length, or says how many length octets follow. -/
theorem octet_cases (b : UInt8) :
    b < 0x80 ∨ (∃ isList n, n ≤ 55 ∧ b = baseOctet isList + UInt8.ofNat n) ∨
      ∃ isList n, 0 < n ∧ n ≤ 8 ∧ b = baseOctet isList + 55 + UInt8.ofNat n := by
  have hb := b.toNat_lt
  have hof : ∀ (base : UInt8) (n : Nat), base.toNat + n < 256 → b.toNat = base.toNat + n →
      b = base + UInt8.ofNat n := fun base n hn h => UInt8.toNat_inj.mp (by rw [h, toNat_add_ofNat hn])
  by_cases h1 : b.toNat < 128
  · exact .inl (UInt8.lt_iff_toNat_lt.mpr h1)
  right
  by_cases h2 : b.toNat ≤ 183
  · exact .inl ⟨false, b.toNat - 128, by omega, hof 0x80 _ (by simp; omega) (by simp; omega)⟩
  by_cases h3 : b.toNat ≤ 191
  · exact .inr ⟨false, b.toNat - 183, by omega, by omega, hof 0xb7 _ (by simp; omega) (by simp; omega)⟩
  by_cases h4 : b.toNat ≤ 247
  · exact .inl ⟨true, b.toNat - 192, by omega, hof 0xc0 _ (by simp; omega) (by simp; omega)⟩
  · exact .inr ⟨true, b.toNat - 247, by omega, by omega, hof 0xf7 _ (by simp; omega) (by simp; omega)⟩

theorem readHeader_cons_eq_ok_iff {first : UInt8} {rest : Bytes} {h : Header} :
    readHeader (first :: rest) = .ok h ↔
      headerAt first rest = .ok h ∧ h.offset + h.length ≤ rest.length + 1 := by
  simp only [readHeader, bind_eq_ok_iff]
  refine ⟨fun h => ?_, fun h => ?_⟩
  · obtain ⟨h', hat, hr⟩ := h
    by_cases hneed : Bytes.hasAtLeast (h'.offset + h'.length) (first :: rest) = true
    · rw [if_pos hneed, pure_eq_ok_iff] at hr
      subst hr
      exact ⟨hat, by simpa [Bytes.hasAtLeast_iff] using hneed⟩
    · rw [if_neg hneed] at hr
      exact absurd hr throw_ne_ok
  · obtain ⟨hat, hneed⟩ := h
    refine ⟨h, hat, ?_⟩
    rw [if_pos (by simpa [Bytes.hasAtLeast_iff] using hneed), pure_eq_ok_iff]

theorem readHeader_frame {isList : Bool} {payload : Bytes} (h : payload.length < 2 ^ 64) (rest : Bytes) :
    readHeader (frame isList payload ++ rest)
      = .ok ⟨isList, (frame isList payload).length - payload.length, payload.length⟩ := by
  by_cases hbare : IsBare isList payload
  · obtain ⟨rfl, b, rfl, hb⟩ := hbare
    rw [frame_of_bare hb, List.singleton_append, readHeader_cons_eq_ok_iff]
    simp [headerAt, hb]
  rw [frame_of_not_bare hbare, List.length_append, Nat.add_sub_cancel, List.append_assoc]
  by_cases hs : payload.length ≤ 55
  · rw [header_short hs, List.singleton_append, readHeader_cons_eq_ok_iff]
    constructor
    · refine headerAt_of_short hs fun hl hlow => hbare ⟨hl, ?_⟩
      obtain ⟨b, hb⟩ := List.length_eq_one_iff.mp hlow.1
      exact ⟨b, hb, by simpa [hb] using hlow.2⟩
    · simp only [List.length_singleton, List.length_append]
      omega
  · have hl : 55 < payload.length := by omega
    have hpos := length_lengthOctets_pos (by omega) h
    have hle := length_lengthOctets_le payload.length
    rw [header_long hl, List.cons_append, readHeader_cons_eq_ok_iff]
    constructor
    · rw [headerAt_of_long hpos hle, (readLength_eq_ok_iff hle).mpr ⟨hl, h, rfl, _, rfl⟩,
        List.length_cons, Nat.add_comm]
      rfl
    · simp only [List.length_cons, List.length_append]
      omega

/-- The header reader finds frames only. Whatever it accepts starts with a frame of the kind that the
header says. -/
theorem exists_frame_of_readHeader {input : Bytes} {h : Header} (hr : readHeader input = .ok h) :
    ∃ payload rest, payload.length < 2 ^ 64 ∧ input = frame h.isList payload ++ rest := by
  cases input with
  | nil => simp [readHeader] at hr
  | cons first tail =>
    obtain ⟨hat, hneed⟩ := readHeader_cons_eq_ok_iff.mp hr
    rcases octet_cases first with hb | ⟨isList, n, hn, rfl⟩ | ⟨isList, n, hn, hn8, rfl⟩
    · simp only [headerAt, hb, if_true, Except.ok.injEq] at hat
      subst hat
      exact ⟨[first], tail, by simp, by simp [frame_of_bare hb]⟩
    · by_cases hlow : isList = false ∧ n = 1 ∧ tail.head?.any (· < 0x80) = true
      · obtain ⟨rfl, rfl, hlow⟩ := hlow
        simp [headerAt, baseOctet, hlow] at hat
      · rw [headerAt_of_short hn fun hl h1 => hlow ⟨hl, h1⟩, Except.ok.injEq] at hat
        subst hat
        have hlen : (tail.take n).length = n := List.length_take_of_le (by simp only at hneed; omega)
        have hbare : ¬ IsBare isList (tail.take n) := by
          intro h
          obtain ⟨hl, b, hb, hb'⟩ := h
          have h1 : n = 1 := by rw [← hlen, hb]; rfl
          have hh : tail.head? = some b := by
            have := congrArg List.head? hb
            rwa [h1, List.head?_take, if_neg (by decide)] at this
          exact hlow ⟨hl, h1, by simpa [hh] using hb'⟩
        refine ⟨tail.take n, tail.drop n, by omega, ?_⟩
        rw [frame_of_not_bare hbare, hlen, header_short hn]
        simp
    · rw [headerAt_of_long hn hn8, map_eq_ok_iff] at hat
      obtain ⟨length, hlength, rfl⟩ := hat
      obtain ⟨hl, hl', hcount, rest, rfl⟩ := (readLength_eq_ok_iff hn8).mp hlength
      simp only [List.length_append, hcount] at hneed
      have hlen : (rest.take length).length = length := List.length_take_of_le (by omega)
      have hbare : ¬ IsBare isList (rest.take length) := by
        intro h
        obtain ⟨-, b, hb, -⟩ := h
        rw [hb, List.length_singleton] at hlen
        omega
      refine ⟨rest.take length, rest.drop length, by omega, ?_⟩
      rw [frame_of_not_bare hbare, hlen, header_long hl, hcount]
      simp

end Rlp
end EthWire
