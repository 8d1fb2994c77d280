/-
# The numbers that digits denote

A run of digits denotes a number by its places: each digit counts its value times a power of the base
(`Numeral.number`). The reader of numerals takes the digits from the left, one at a time, and comes to the
same number (`Numeral.read?_eq_number`); a number written in decimal is the number of its digits
(`Numeral.number_toDigits`).

Hex text is no numeral. It is cut from the left into pairs of digits, each an octet (`Hex.ofPairs`), so an odd
digit that is left over is an octet of its own. Read as one number, the octets of whole pairs are the number
of the digits (`Hex.ofBigEndian_ofPairs`), and an odd last digit moves the digits in front of it one place too
far (`Hex.ofBigEndian_ofPairs_append`).

Key definitions: `Numeral.digitValue`, `Numeral.number`, `Numeral.isHexDigit`, `Hex.ofPairs`.
Key theorems: `Numeral.read?_eq_number`, `Numeral.number_toDigits`,
`Numeral.read?_toDigits`, `Hex.decode_digits`, `Hex.ofBigEndian_ofPairs`, `Hex.ofBigEndian_ofPairs_append`.
-/
import EthWire.Proofs.Bytes.Blocks
import EthWire.Proofs.Outcome
import EthWire.Proofs.Text.Basic
import EthWire.Text.HexReader

namespace EthWire

/-! ### Numerals -/

namespace Numeral

/-- The value of a digit: letters of either case count from ten on. -/
def digitValue (c : Char) : Nat :=
  if c.isDigit then c.toNat - 48 else if c.isLower then c.toNat - 87 else c.toNat - 55

/-- The hexadecimal digits. -/
def isHexDigit (c : Char) : Bool :=
  "0123456789abcdefABCDEF".toList.contains c

/-- The number that digits denote: each counts its value times the power of the base that its place has. -/
def number (base : Nat) : List Char → Nat
  | [] => 0
  | c :: rest => digitValue c * base ^ rest.length + number base rest

variable {base : Nat}

theorem number_append (front back : List Char) :
    number base (front ++ back) = number base front * base ^ back.length + number base back := by
  induction front with
  | nil => simp [number]
  | cons c front ih =>
    rw [List.cons_append, number, number, ih, List.length_append, Nat.add_mul, Nat.pow_add, Nat.mul_assoc,
      Nat.add_assoc]

theorem number_singleton (c : Char) : number base [c] = digitValue c := by
  simp [number]

/-! ### Digits that are read -/

theorem digitValue?_of_isDigit {c : Char} (h : c.isDigit = true) : digitValue? 10 c = some (digitValue c) := by
  have hrange : 48 ≤ c.toNat ∧ c.toNat ≤ 57 := by
    simpa [Char.isDigit, UInt32.le_iff_toNat_le] using h
  rw [digitValue?, digitValue, if_pos h]
  simp only [if_pos hrange]
  rw [if_pos (by omega)]

theorem digitValue?_of_isHexDigit {c : Char} (h : isHexDigit c = true) : digitValue? 16 c = some (digitValue c) := by
  have hall : "0123456789abcdefABCDEF".toList.all (fun c => digitValue? 16 c == some (digitValue c)) = true := by
    decide
  exact eq_of_beq (List.all_eq_true.mp hall c (List.contains_iff_mem.mp h))

theorem lt_of_digitValue? {c : Char} {d : Nat} (h : digitValue? base c = some d) : d < base := by
  simp only [digitValue?, Option.ite_none_right_eq_some, Option.some.injEq] at h
  obtain ⟨hlt, rfl⟩ := h
  exact hlt

theorem number_lt {digits : List Char} (h : ∀ c ∈ digits, digitValue? base c = some (digitValue c)) :
    number base digits < base ^ digits.length := by
  induction digits with
  | nil => simp [number]
  | cons c rest ih =>
    obtain ⟨hc, hrest⟩ := List.forall_mem_cons.mp h
    have hdigit := lt_of_digitValue? hc
    have hlater := ih hrest
    rw [number, List.length_cons, Nat.pow_succ]
    calc digitValue c * base ^ rest.length + number base rest
        < digitValue c * base ^ rest.length + base ^ rest.length := by omega
      _ = (digitValue c + 1) * base ^ rest.length := by rw [Nat.add_mul, Nat.one_mul]
      _ ≤ base * base ^ rest.length := Nat.mul_le_mul_right _ hdigit
      _ = base ^ rest.length * base := Nat.mul_comm _ _

theorem readMore?_eq {digits : List Char} (h : ∀ c ∈ digits, digitValue? base c = some (digitValue c))
    (value : Nat) : readMore? base value digits = some (value * base ^ digits.length + number base digits) := by
  induction digits generalizing value with
  | nil => simp [readMore?, number]
  | cons c rest ih =>
    obtain ⟨hc, hrest⟩ := List.forall_mem_cons.mp h
    rw [readMore?, hc]
    simp only
    rw [ih hrest, number, List.length_cons, Nat.add_mul, Nat.pow_succ, Nat.mul_assoc, Nat.mul_comm base,
      Nat.add_assoc]

/-- Digits are read as the number that they denote. -/
theorem read?_eq_number {digits : List Char} (hne : digits ≠ [])
    (h : ∀ c ∈ digits, digitValue? base c = some (digitValue c)) : read? base digits = some (number base digits) := by
  obtain ⟨c, rest, rfl⟩ := List.exists_cons_of_ne_nil hne
  have hread : readDigits? base (c :: rest) = some (number base (c :: rest)) := by
    rw [readDigits?, readMore?_eq h, Nat.zero_mul, Nat.zero_add]
  unfold read?
  split
  · -- a plus sign is no digit
    rename_i others hplus
    obtain ⟨rfl, -⟩ := List.cons.inj hplus
    have hsign : digitValue? base '+' = none := by simp [digitValue?]
    rw [(List.forall_mem_cons.mp h).1] at hsign
    cases hsign
  · exact hread

theorem number_eq_ofDigitChars {digits : List Char} (h : ∀ c ∈ digits, c.isDigit = true) :
    number 10 digits = Nat.ofDigitChars 10 digits 0 := by
  induction digits with
  | nil => rfl
  | cons c rest ih =>
    obtain ⟨hc, hrest⟩ := List.forall_mem_cons.mp h
    rw [Nat.ofDigitChars_cons, Nat.ofDigitChars_eq_ofDigitChars_zero, number, ih hrest, digitValue, if_pos hc,
      Nat.mul_zero, Nat.zero_add, Nat.mul_comm]
    rfl

theorem head?_toDigits_ne {n : Nat} (hpos : 0 < n) : (Nat.toDigits 10 n).head? ≠ some '0' := by
  induction n using Nat.strongRecOn with
  | ind n ih =>
    by_cases hsmall : n < 10
    · rw [Nat.toDigits_of_lt_base hsmall, List.head?_cons, ne_eq, Option.some.injEq, Nat.digitChar_eq_zero]
      omega
    · have hfront := ih (n / 10) (by omega) (by omega)
      obtain ⟨c, rest, hdigits⟩ := List.exists_cons_of_ne_nil (Nat.toDigits_ne_nil (b := 10) (n := n / 10))
      rw [hdigits] at hfront
      rw [Nat.toDigits_of_base_le (by decide) (by omega), hdigits]
      exact hfront

/-- A number in decimal is the number of its digits. -/
theorem number_toDigits (n : Nat) : number 10 (Nat.toDigits 10 n) = n := by
  rw [number_eq_ofDigitChars fun c hc => Nat.isDigit_of_mem_toDigits (by decide) (by decide) hc,
    Nat.ofDigitChars_ten_toDigits]

/-- A number in decimal is read again. -/
theorem read?_toDigits (n : Nat) : read? 10 (Nat.toDigits 10 n) = some n := by
  have hdigits : ∀ c ∈ Nat.toDigits 10 n, digitValue? 10 c = some (digitValue c) :=
    fun c hc => digitValue?_of_isDigit (Nat.isDigit_of_mem_toDigits (by decide) (by decide) hc)
  rw [read?_eq_number Nat.toDigits_ne_nil hdigits, number_toDigits]

end Numeral

/-! ### Pairs of hexadecimal digits -/

namespace Hex

open Numeral (digitValue number isHexDigit digitValue?_of_isHexDigit)

/-- The octets of digits, two digits each from the left; an odd last digit is an octet of its own. -/
def ofPairs : List Char → Bytes
  | [] => []
  | [c] => [UInt8.ofNat (digitValue c)]
  | c :: d :: rest => UInt8.ofNat (digitValue c * 16 + digitValue d) :: ofPairs rest

theorem length_ofPairs : ∀ digits : List Char, (ofPairs digits).length = (digits.length + 1) / 2
  | [] => rfl
  | [c] => by simp [ofPairs]
  | _ :: _ :: rest => by
    rw [ofPairs, List.length_cons, length_ofPairs rest, List.length_cons, List.length_cons]
    omega

theorem toNat_lt_of_isHexDigit {c : Char} (h : isHexDigit c = true) : c.toNat < 128 := by
  have hall : "0123456789abcdefABCDEF".toList.all (fun c => decide (c.toNat < 128)) = true := by decide
  exact of_decide_eq_true (List.all_eq_true.mp hall c (List.contains_iff_mem.mp h))

theorem isUtf8Pair_of_ascii : ∀ {pair : Bytes}, pair ≠ [] → pair.length ≤ 2 → (∀ b ∈ pair, b < 0x80) →
    isUtf8Pair pair = true
  | [a], _, _, h => by simpa [isUtf8Pair] using h
  | [a, b], _, _, h => by
    have hboth : a < 0x80 ∧ b < 0x80 := by simpa using h
    simp [isUtf8Pair, hboth]

theorem readPair_digits {digits : List Char} (hne : digits ≠ []) (hlength : digits.length ≤ 2)
    (h : ∀ c ∈ digits, isHexDigit c = true) :
    readPair (digits.map fun c => UInt8.ofNat c.toNat) = .ok (UInt8.ofNat (number 16 digits)) := by
  have hcode : ∀ c ∈ digits, (UInt8.ofNat c.toNat).toNat = c.toNat := by
    intro c hc
    have hlt := toNat_lt_of_isHexDigit (h c hc)
    rw [UInt8.toNat_ofNat', Nat.mod_eq_of_lt (by omega)]
  have hutf8 : isUtf8Pair (digits.map fun c => UInt8.ofNat c.toNat) = true := by
    refine isUtf8Pair_of_ascii (by simpa using hne) (by simpa using hlength) fun b hb => ?_
    obtain ⟨c, hc, rfl⟩ := List.mem_map.mp hb
    rw [UInt8.lt_iff_toNat_lt, hcode c hc]
    exact toNat_lt_of_isHexDigit (h c hc)
  have hchars : (digits.map fun c => UInt8.ofNat c.toNat).map (fun b => Char.ofNat b.toNat) = digits := by
    have hback : ∀ c ∈ digits, Char.ofNat (UInt8.ofNat c.toNat).toNat = c := fun c hc => by
      rw [hcode c hc, Char.ofNat_toNat]
    rw [List.map_map]
    exact (List.map_congr_left hback).trans (List.map_id digits)
  rw [readPair, if_pos hutf8, hchars, Numeral.read?_eq_number hne fun c hc => digitValue?_of_isHexDigit (h c hc)]

theorem decodeOctets_digits : ∀ {digits : List Char}, (∀ c ∈ digits, isHexDigit c = true) →
    decodeOctets (digits.map fun c => UInt8.ofNat c.toNat) = .ok (ofPairs digits)
  | [], _ => by simp [decodeOctets, Bytes.blocks, ofPairs, pure_eq_ok_iff]
  | [c], h => by
    have hread := readPair_digits (List.cons_ne_nil c []) (by simp) h
    rw [Numeral.number_singleton] at hread
    rw [decodeOctets, List.map_singleton, Bytes.blocks_of_length_le (Nat.zero_le 1)]
    exact mapM_cons_eq_ok_iff.mpr ⟨_, [], hread, rfl, rfl⟩
  | c :: d :: rest, h => by
    obtain ⟨hc, hd, hrest⟩ : isHexDigit c = true ∧ isHexDigit d = true ∧ ∀ c ∈ rest, isHexDigit c = true := by
      simpa using h
    have hread := readPair_digits (List.cons_ne_nil c [d]) (by simp) (by simp [hc, hd])
    have hnumber : number 16 [c, d] = digitValue c * 16 + digitValue d := by simp [number]
    rw [hnumber] at hread
    rw [decodeOctets, List.map_cons, Bytes.blocks_cons]
    exact mapM_cons_eq_ok_iff.mpr ⟨_, _, hread, decodeOctets_digits hrest, rfl⟩

/-- Hex text is read as the octets of its digits, two by two. -/
theorem decode_digits {digits : List Char} (h : ∀ c ∈ digits, isHexDigit c = true) :
    decode ("0x" ++ String.ofList digits) = .ok (ofPairs digits) := by
  have htext : ("0x" ++ String.ofList digits).toList = '0' :: 'x' :: digits := by
    simp
  rw [decode, htext, Text.after0x, Text.octets_of_ascii fun c hc => toNat_lt_of_isHexDigit (h c hc),
    decodeOctets_digits h]

/-! ### The number of the octets -/

/-- The octets of whole pairs are the number of the digits. -/
theorem ofBigEndian_ofPairs : ∀ {digits : List Char}, digits.length % 2 = 0 →
    (∀ c ∈ digits, isHexDigit c = true) → Bytes.ofBigEndian (ofPairs digits) = number 16 digits
  | [], _, _ => rfl
  | c :: d :: rest, heven, h => by
    obtain ⟨hc, hd, hrest⟩ : isHexDigit c = true ∧ isHexDigit d = true ∧ ∀ c ∈ rest, isHexDigit c = true := by
      simpa using h
    rw [List.length_cons, List.length_cons] at heven
    have hpairs : 2 * (ofPairs rest).length = rest.length := by
      rw [length_ofPairs]
      omega
    have hpower : 256 ^ (ofPairs rest).length = 16 ^ rest.length := by
      rw [← hpairs, Nat.pow_mul]
    have hc16 := Numeral.lt_of_digitValue? (digitValue?_of_isHexDigit hc)
    have hd16 := Numeral.lt_of_digitValue? (digitValue?_of_isHexDigit hd)
    rw [ofPairs, Bytes.ofBigEndian_cons, ofBigEndian_ofPairs (by omega) hrest, hpower, UInt8.toNat_ofNat',
      Nat.mod_eq_of_lt (by omega), number, number, List.length_cons, Nat.pow_succ, Nat.add_mul, Nat.mul_assoc,
      Nat.mul_comm 16, Nat.add_assoc]

theorem ofPairs_append_singleton : ∀ {digits : List Char}, digits.length % 2 = 0 → ∀ c : Char,
    ofPairs (digits ++ [c]) = ofPairs digits ++ [UInt8.ofNat (digitValue c)]
  | [], _, _ => rfl
  | _ :: _ :: rest, heven, c => by
    rw [List.length_cons, List.length_cons] at heven
    rw [List.cons_append, List.cons_append, ofPairs, ofPairs, ofPairs_append_singleton (by omega) c,
      List.cons_append]

/-- A digit behind whole pairs moves them two places up, though it takes one place. -/
theorem ofBigEndian_ofPairs_append {digits : List Char} (heven : digits.length % 2 = 0) {c : Char}
    (h : ∀ d ∈ digits ++ [c], isHexDigit d = true) :
    Bytes.ofBigEndian (ofPairs (digits ++ [c])) = number 16 digits * 256 + digitValue c := by
  obtain ⟨hdigits, hc⟩ : (∀ d ∈ digits, isHexDigit d = true) ∧ isHexDigit c = true := by
    rw [List.forall_mem_append, List.forall_mem_singleton] at h
    exact h
  have hlt := Numeral.lt_of_digitValue? (digitValue?_of_isHexDigit hc)
  rw [ofPairs_append_singleton heven, Bytes.ofBigEndian_append, ofBigEndian_ofPairs heven hdigits,
    List.length_singleton, Nat.pow_one, Bytes.ofBigEndian_cons, UInt8.toNat_ofNat', Nat.mod_eq_of_lt (by omega)]
  simp

/-- Digits that pairs from the left do not tear: they are even in number, or the last one has only zeros in
front. -/
def IsPaired (digits : List Char) : Prop :=
  digits.length % 2 = 0 ∨ number 16 digits.dropLast = 0

instance (digits : List Char) : Decidable (IsPaired digits) :=
  inferInstanceAs (Decidable (_ ∨ _))

/-- The octets of hex text are the number of its digits exactly if no pair is torn. -/
theorem ofBigEndian_ofPairs_eq_iff {digits : List Char} (h : ∀ c ∈ digits, isHexDigit c = true) :
    Bytes.ofBigEndian (ofPairs digits) = number 16 digits ↔ IsPaired digits := by
  rcases Nat.mod_two_eq_zero_or_one digits.length with heven | hodd
  · exact iff_of_true (ofBigEndian_ofPairs heven h) (.inl heven)
  · have hne : digits ≠ [] := by
      rintro rfl
      cases hodd
    obtain ⟨front, last, rfl⟩ : ∃ front last, digits = front ++ [last] :=
      ⟨_, _, (List.dropLast_concat_getLast hne).symm⟩
    have hfront : front.length % 2 = 0 := by
      rw [List.length_append, List.length_singleton] at hodd
      omega
    rw [ofBigEndian_ofPairs_append hfront h, Numeral.number_append, Numeral.number_singleton,
      List.length_singleton, IsPaired, List.dropLast_concat]
    omega

end Hex
end EthWire
