/-
# Integer types: their names and their ranges

An integer type has a width of whole octets from 8 to 256 bits. The width stands in decimal behind the word
`uint` or `int`, and no other number is admitted there (`Abi.Kind.parse_uint_eq_ok_iff`,
`Abi.Kind.parse_int_eq_ok_iff`).

Whether a word fits a width is decided on its octets: those above the width are zeros for an unsigned integer,
and for a signed one they repeat the sign. Both say that the number is in range (`Abi.fitsUint_iff`,
`Abi.fitsInt_iff`). For the word is `front * 2^bits + back` with the octets above the width as `front`, and
these are all zeros, or all ones, exactly if `front` is the least, or the greatest, number of its size.

Key definitions: `Abi.IsBitWidth`, `Abi.InIntRange`.
Key theorems: `Abi.Kind.parse_uint_eq_ok_iff`, `Abi.Kind.parse_int_eq_ok_iff`, `Abi.fitsUint_iff`,
`Abi.fitsInt_iff`.
-/
import EthWire.Abi.Value
import EthWire.Proofs.Abi.AtomicNames
import EthWire.Proofs.Abi.Definition
import EthWire.Proofs.Bytes.BigEndian
import EthWire.Proofs.Text.Numeral

namespace EthWire

/-! ### Octets that are all alike -/

namespace Bytes

theorem ofBigEndian_replicate_zero (n : Nat) : ofBigEndian (List.replicate n 0) = 0 := by
  have h := ofBigEndian_replicate_append n []
  rwa [List.append_nil, ofBigEndian_nil] at h

theorem ofBigEndian_replicate_ones : ∀ n : Nat, ofBigEndian (List.replicate n 0xff) + 1 = 256 ^ n
  | 0 => rfl
  | n + 1 => by
    have hrest := ofBigEndian_replicate_ones n
    rw [List.replicate_succ, ofBigEndian_cons, List.length_replicate, Nat.pow_succ]
    have hones : (0xff : UInt8).toNat = 255 := rfl
    rw [hones]
    omega

theorem all_beq_iff {octet : UInt8} {bytes : Bytes} :
    bytes.all (· == octet) = true ↔ ofBigEndian bytes = ofBigEndian (List.replicate bytes.length octet) := by
  have hall : bytes.all (· == octet) = true ↔ bytes = List.replicate bytes.length octet := by
    rw [List.eq_replicate_iff, List.all_eq_true]
    simp
  rw [hall]
  exact ⟨congrArg ofBigEndian, ofBigEndian_inj List.length_replicate.symm⟩

end Bytes

namespace Abi

/-- The widths of integer types in bits. -/
structure IsBitWidth (bits : Nat) : Prop where
  whole : bits % 8 = 0
  least : 8 ≤ bits
  greatest : bits ≤ 256

instance (bits : Nat) : Decidable (IsBitWidth bits) :=
  decidable_of_iff (bits % 8 = 0 ∧ 8 ≤ bits ∧ bits ≤ 256)
    ⟨fun h => ⟨h.1, h.2.1, h.2.2⟩, fun h => ⟨h.whole, h.least, h.greatest⟩⟩

/-- The integers of a signed type: from minus 2^(bits - 1) on, and below 2^(bits - 1). -/
def InIntRange (bits : Nat) (v : Int) : Prop :=
  -((2 ^ (bits - 1) : Nat) : Int) ≤ v ∧ v < (2 ^ (bits - 1) : Nat)

instance (bits : Nat) (v : Int) : Decidable (InIntRange bits v) :=
  inferInstanceAs (Decidable (_ ∧ _))

theorem inIntRange_256 {bits : Nat} (hle : bits ≤ 256) {v : Int} (h : InIntRange bits v) : InIntRange 256 v := by
  have hpower : 2 ^ (bits - 1) ≤ 2 ^ 255 := Nat.pow_le_pow_right (by decide) (Nat.sub_le_sub_right hle 1)
  rw [InIntRange] at h ⊢
  omega

/-! ### Names -/

namespace Kind

/-- A number in decimal is read as a width exactly if it passes the test; zero, the only one with a zero in
front, must fail it. -/
theorem width?_toDigits_eq_some_iff {valid : Nat → Bool} (hzero : valid 0 = false)
    (hbound : ∀ n, valid n = true → n < 2 ^ 64) {n width : Nat} :
    width? valid (Nat.toDigits 10 n) = some width ↔ n = width ∧ valid n = true := by
  rw [width?]
  rcases Nat.eq_zero_or_pos n with rfl | hpos
  · have hhead : (Nat.toDigits 10 0).head? = some '0' := rfl
    rw [if_pos hhead, hzero]
    simp
  · rw [if_neg (Numeral.head?_toDigits_ne hpos), Numeral.readCount?, Numeral.readBelow?, Numeral.read?_toDigits]
    simp only [Option.filter_eq_some_iff, Option.some.injEq, decide_eq_true_eq]
    constructor
    · rintro ⟨⟨rfl, -⟩, hvalid⟩
      exact ⟨rfl, hvalid⟩
    · rintro ⟨rfl, hvalid⟩
      exact ⟨⟨rfl, hbound n hvalid⟩, hvalid⟩

theorem bitWidth?_toDigits_eq_some_iff {n bits : Nat} :
    bitWidth? (Nat.toDigits 10 n) = some bits ↔ n = bits ∧ IsBitWidth bits := by
  have hsome : ¬ (Nat.toDigits 10 n).isEmpty = true := by simp
  have hbound : ∀ n, (n % 8 == 0 && 8 ≤ n && n ≤ 256) = true → n < 2 ^ 64 := by
    intro n hvalid
    simp only [Bool.and_eq_true, decide_eq_true_eq] at hvalid
    omega
  rw [bitWidth?, if_neg hsome, width?_toDigits_eq_some_iff rfl hbound]
  simp only [Bool.and_eq_true, beq_iff_eq, decide_eq_true_eq]
  constructor
  · rintro ⟨rfl, ⟨hwhole, hleast⟩, hgreatest⟩
    exact ⟨rfl, hwhole, hleast, hgreatest⟩
  · rintro ⟨rfl, hwhole, hleast, hgreatest⟩
    exact ⟨rfl, ⟨hwhole, hleast⟩, hgreatest⟩

theorem valid_of_width? {valid : Nat → Bool} {digits : List Char} {width : Nat}
    (h : width? valid digits = some width) : valid width = true := by
  rw [width?] at h
  split at h
  · cases h
  · exact (Option.filter_eq_some_iff.mp h).2

theorem isBitWidth_of_bitWidth? {digits : List Char} {bits : Nat} (h : bitWidth? digits = some bits) :
    IsBitWidth bits := by
  rw [bitWidth?] at h
  split at h
  · obtain rfl := Option.some.inj h
    decide
  · have hvalid := valid_of_width? h
    simp only [Bool.and_eq_true, beq_iff_eq, decide_eq_true_eq] at hvalid
    exact ⟨hvalid.1.1, hvalid.1.2, hvalid.2⟩

theorem parse_eq_ok_iff_of_word {name : List Char} {kind : Kind} (hchars : ∀ c ∈ name, isNameChar c = true) :
    parse name = .ok kind ↔ ofName? name = some kind := by
  have htrim : Text.trim name = name := Text.trim_of_not_isBlank fun c hc => isBlank_of_isNameChar (hchars c hc)
  have hlast : (Text.trim name).getLast? ≠ some ']' := by
    rw [htrim]
    intro hlast
    cases hchars _ (List.mem_of_getLast? hlast)
  have hfirst : (afterTuple (Text.trim name)).head? ≠ some '(' := by
    rw [htrim]
    intro hfirst
    have hparen := List.mem_of_mem_head? hfirst
    rw [afterTuple, Text.afterFront?] at hparen
    have hmem : '(' ∈ name := by
      split at hparen
      · exact List.mem_of_mem_drop hparen
      · exact hparen
    cases hchars _ hmem
  constructor
  · intro h
    rw [parse] at h
    simp only [if_neg hlast] at h
    split at h
    · rename_i rest hrest
      rw [hrest] at hfirst
      exact absurd rfl hfirst
    · rw [htrim] at h
      cases hname : ofName? name with
      | none =>
        rw [hname] at h
        cases h
      | some named =>
        rw [hname] at h
        exact congrArg some (Except.ok.inj h)
  · intro hname
    exact parse_of_name hlast hfirst (htrim.symm ▸ hname)

theorem parse_width_eq_ok_iff {front : String} {make : Nat → Kind}
    (hfront : ∀ c ∈ front.toList, isNameChar c = true)
    (hname : ∀ digits, ofName? (front.toList ++ digits) = (bitWidth? digits).map make) {n : Nat} {kind : Kind} :
    parse (front ++ toString n).toList = .ok kind ↔ make n = kind ∧ IsBitWidth n := by
  have htext : (front ++ toString n).toList = front.toList ++ Nat.toDigits 10 n := by
    rw [String.toList_append, Nat.toString_eq_repr, Nat.toList_repr]
  have hchars : ∀ c ∈ front.toList ++ Nat.toDigits 10 n, isNameChar c = true := by
    refine List.forall_mem_append.mpr ⟨hfront, fun c hc => ?_⟩
    have hdigit : c.isDigit = true := Nat.isDigit_of_mem_toDigits (by decide) (by decide) hc
    rw [isNameChar, Numeral.digitValue?_of_isDigit hdigit]
    exact Bool.or_true _
  rw [htext, parse_eq_ok_iff_of_word hchars, hname, Option.map_eq_some_iff]
  simp only [bitWidth?_toDigits_eq_some_iff]
  constructor
  · rintro ⟨_, ⟨rfl, hwidth⟩, hkind⟩
    exact ⟨hkind, hwidth⟩
  · rintro ⟨hkind, hwidth⟩
    exact ⟨n, ⟨rfl, hwidth⟩, hkind⟩

/-- The unsigned types are those of the widths, and behind their name stands the width. -/
theorem parse_uint_eq_ok_iff {n : Nat} {kind : Kind} :
    parse ("uint" ++ toString n).toList = .ok kind ↔ uint n = kind ∧ IsBitWidth n :=
  parse_width_eq_ok_iff (List.all_eq_true.mp (by decide)) ofName?_uint

/-- The signed types are those of the widths, and behind their name stands the width. -/
theorem parse_int_eq_ok_iff {n : Nat} {kind : Kind} :
    parse ("int" ++ toString n).toList = .ok kind ↔ int n = kind ∧ IsBitWidth n :=
  parse_width_eq_ok_iff (List.all_eq_true.mp (by decide)) ofName?_int

end Kind

/-! ### Ranges -/

/-- A word is cut at a width into the number above it and the number below it. The octet that repeats the
sign above the width is the one that the number below asks for. -/
structure CutAt (word : Word) (bits front back : Nat) : Prop where
  front_eq : front = Bytes.ofBigEndian (highOctets word bits)
  length_highOctets : (highOctets word bits).length = 32 - bits / 8
  toNat_eq : word.toNat = front * 2 ^ bits + back
  back_lt : back < 2 ^ bits
  signFill_eq : signFill word bits = if 2 ^ (bits - 1) ≤ back then 0xff else 0

/-- The highest bit of an octet tells whether it is 128 at least. -/
theorem and_ne_zero_iff (octet : UInt8) : octet &&& 0x80 ≠ 0 ↔ 128 ≤ octet.toNat := by
  have hall : ∀ n : Fin 256, UInt8.ofFin n &&& 0x80 ≠ 0 ↔ 128 ≤ n.val := by decide +kernel
  exact hall octet.toFin

/-- The low octets of a word for a width are its number modulo the width. -/
theorem ofBigEndian_drop_toBytes {bits : Nat} (hwhole : bits % 8 = 0) (hle : bits ≤ 256) (word : Word) :
    Bytes.ofBigEndian (word.toBytes.drop (32 - bits / 8)) = word.toNat % 2 ^ bits := by
  have hlength : (word.toBytes.drop (32 - bits / 8)).length = bits / 8 := by
    rw [List.length_drop, Word.length_toBytes]
    omega
  have hpower : 256 ^ (bits / 8) = 2 ^ bits := by
    rw [show 256 = 2 ^ 8 from rfl, ← Nat.pow_mul, Nat.mul_div_cancel' (Nat.dvd_of_mod_eq_zero hwhole)]
  have hlt := Bytes.ofBigEndian_lt (word.toBytes.drop (32 - bits / 8))
  rw [hlength, hpower] at hlt
  rw [← word.ofBigEndian_toBytes, ← List.take_append_drop (32 - bits / 8) word.toBytes, Bytes.ofBigEndian_append,
    hlength, hpower, List.take_append_drop, Nat.mul_add_mod', Nat.mod_eq_of_lt hlt]

theorem two_pow_pred {bits : Nat} (h : 0 < bits) : 2 ^ bits = 2 ^ (bits - 1) * 2 := by
  rw [← Nat.pow_succ, Nat.succ_eq_add_one, Nat.sub_add_cancel h]

section

variable {bits : Nat} {word : Word}

theorem exists_cutAt (h : IsBitWidth bits) (word : Word) : ∃ front back, CutAt word bits front back := by
  obtain ⟨hwhole, hleast, hgreatest⟩ := h
  have hlength := word.length_toBytes
  have hfront : (highOctets word bits).length = 32 - bits / 8 := by
    rw [highOctets, List.length_take, hlength]
    omega
  -- the octets of the number below the width start with the one that holds the sign
  obtain ⟨top, rest, hback⟩ : ∃ top rest, word.toBytes.drop (32 - bits / 8) = top :: rest :=
    List.exists_cons_of_length_pos (by rw [List.length_drop, hlength]; omega)
  have hrest : rest.length + 1 = bits / 8 := by
    rw [← List.length_cons (a := top), ← hback, List.length_drop, hlength]
    omega
  have hoctets : word.toBytes = highOctets word bits ++ top :: rest := by
    rw [highOctets, ← hback, List.take_append_drop]
  have htop : word.toBytes.getD (32 - bits / 8) 0 = top := by
    rw [hoctets, ← hfront, List.getD_eq_getElem?_getD, List.getElem?_append_right (Nat.le_refl _), Nat.sub_self]
    rfl
  have hpower : 2 ^ bits = 256 ^ (rest.length + 1) := by
    rw [hrest, show 256 = 2 ^ 8 from rfl, ← Nat.pow_mul, Nat.mul_div_cancel' (Nat.dvd_of_mod_eq_zero hwhole)]
  have hhalf : 2 ^ (bits - 1) = 128 * 256 ^ rest.length := by
    have hdouble := two_pow_pred (show 0 < bits by omega)
    rw [hpower, Nat.pow_succ] at hdouble
    omega
  have hsign : 128 ≤ top.toNat ↔ 2 ^ (bits - 1) ≤ Bytes.ofBigEndian (top :: rest) := by
    have hlow := Bytes.ofBigEndian_lt rest
    have hpos : 0 < 256 ^ rest.length := Nat.pow_pos (by decide)
    rw [Bytes.ofBigEndian_cons, hhalf, ← Nat.le_div_iff_mul_le hpos, Nat.mul_comm top.toNat,
      Nat.mul_add_div hpos, Nat.div_eq_of_lt hlow, Nat.add_zero]
  refine ⟨_, Bytes.ofBigEndian (top :: rest), rfl, hfront, ?_, ?_, ?_⟩
  · rw [← word.ofBigEndian_toBytes, hoctets, Bytes.ofBigEndian_append, List.length_cons, hpower]
  · rw [hpower]
    exact Bytes.ofBigEndian_lt _
  · simp only [signFill, htop, and_ne_zero_iff, hsign]

/-- A word fits an unsigned type exactly if its number does. -/
theorem fitsUint_iff (h : IsBitWidth bits) : fitsUint word bits = true ↔ word.toNat < 2 ^ bits := by
  obtain ⟨front, back, hcut⟩ := exists_cutAt h word
  have hback := hcut.back_lt
  rw [fitsUint, Bytes.all_beq_iff, Bytes.ofBigEndian_replicate_zero, ← hcut.front_eq, hcut.toNat_eq]
  constructor
  · rintro rfl
    omega
  · intro hlt
    rcases Nat.eq_zero_or_pos front with hzero | hpos
    · exact hzero
    · have hle := Nat.le_mul_of_pos_left (2 ^ bits) hpos
      omega

/-- The number above a width is the greatest of its size, or there is room for another one of the width. -/
theorem CutAt.front_cases {front back : Nat} (hcut : CutAt word bits front back) (h : IsBitWidth bits) :
    front + 1 = 256 ^ (32 - bits / 8) ∧ front * 2 ^ bits + 2 ^ bits = 2 ^ 256 ∨
      front + 1 ≠ 256 ^ (32 - bits / 8) ∧ front * 2 ^ bits + 2 ^ bits + 2 ^ bits ≤ 2 ^ 256 := by
  obtain ⟨hwhole, -, hgreatest⟩ := h
  have hlt : front < 256 ^ (32 - bits / 8) := by
    rw [hcut.front_eq, ← hcut.length_highOctets]
    exact Bytes.ofBigEndian_lt _
  have hall : 256 ^ (32 - bits / 8) * 2 ^ bits = 2 ^ 256 := by
    rw [show 256 = 2 ^ 8 from rfl, ← Nat.pow_mul, ← Nat.pow_add]
    congr 1
    omega
  rcases Nat.lt_or_eq_of_le hlt with hless | heq
  · refine .inr ⟨Nat.ne_of_lt hless, ?_⟩
    have hle := Nat.mul_le_mul_right (2 ^ bits) hless
    rw [hall, Nat.succ_mul, Nat.succ_mul] at hle
    exact hle
  · refine .inl ⟨heq, ?_⟩
    rw [← hall, ← heq, Nat.succ_mul]

/-- A word fits a signed type exactly if its two's complement number does. -/
theorem fitsInt_iff (h : IsBitWidth bits) : fitsInt word bits = true ↔ InIntRange bits word.toInt := by
  obtain ⟨front, back, hcut⟩ := exists_cutAt h word
  have hback := hcut.back_lt
  have hdouble := two_pow_pred (Nat.lt_of_lt_of_le (by decide) h.least)
  have hzeros : 0 < front → 2 ^ bits ≤ front * 2 ^ bits := Nat.le_mul_of_pos_left (2 ^ bits)
  have hcases := hcut.front_cases h
  have hones := Bytes.ofBigEndian_replicate_ones (32 - bits / 8)
  rw [fitsInt, Bytes.all_beq_iff, ← hcut.front_eq, hcut.signFill_eq, hcut.length_highOctets, InIntRange,
    BitVec.toInt_eq_toNat_cond, hcut.toNat_eq]
  generalize 2 ^ (bits - 1) = half at *
  by_cases hsign : half ≤ back
  · rw [if_pos hsign]
    split <;> omega
  · rw [if_neg hsign, Bytes.ofBigEndian_replicate_zero]
    have hnone : front = 0 → front * 2 ^ bits = 0 := by
      rintro rfl
      exact Nat.zero_mul _
    split <;> omega

end

end Abi
end EthWire
