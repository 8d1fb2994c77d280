/-
# Signatures that are written down are read again

A signature is written as 65 octets, with its parity in an octet of its own, or as 64, with the parity in
the top bit of `s`. The longer form takes any two scalars. In the shorter one the bit has to be free, which
it is for every signature that passes the check, because half the group order is below 2^255
(`Signature.msb_of_check`). No 64 octets are left over: each of them are the short form of the signature
that is read from them (`Signature.toCompact_of_ofCompact`).

One reader takes the texts of both forms and tells them apart by the number of their octets
(`Signature.parse_of_mem_spellings`).

Key theorems: `Signature.ofBytes_toBytes`, `Signature.ofCompact_toCompact`, `Signature.toCompact_of_ofCompact`,
`Signature.parse_of_mem_spellings`, `Signature.written_forms_are_read_again`.
-/
import EthWire.Proofs.Signing.Recovery
import EthWire.Proofs.Signing.RecoveryValue
import EthWire.Proofs.Text.Hex

namespace EthWire
namespace Signature

variable {signature : Signature}

/-! ### 65 octets -/

theorem length_toBytes (signature : Signature) : signature.toBytes.length = 65 := by
  rw [toBytes, List.length_append, List.length_append, Word.length_toBytes, Word.length_toBytes,
    List.length_singleton]

theorem parseV_v (signature : Signature) : parseV (Word.ofBytes [signature.v]) = .ok (signature.yParity, none) := by
  rw [v]
  cases signature.yParity <;> rfl

/-- The 65 octets of a signature are read as it, whatever its scalars are. -/
theorem ofBytes_toBytes (signature : Signature) : ofBytes signature.toBytes = .ok signature := by
  have hr : signature.toBytes.take 32 = signature.r.toBytes := by
    rw [toBytes, List.append_assoc, List.take_left' (Word.length_toBytes _)]
  have hrest : signature.toBytes.drop 32 = signature.s.toBytes ++ [signature.v] := by
    rw [toBytes, List.append_assoc, List.drop_left' (Word.length_toBytes _)]
  have hs : (signature.toBytes.drop 32).take 32 = signature.s.toBytes := by
    rw [hrest, List.take_left' (Word.length_toBytes _)]
  have hv : signature.toBytes.drop 64 = [signature.v] := by
    have hfront : (signature.r.toBytes ++ signature.s.toBytes).length = 64 := by
      rw [List.length_append, Word.length_toBytes, Word.length_toBytes]
    rw [toBytes, List.drop_left' hfront]
  rw [ofBytes, hr, hs, hv, parseV_v, Word.ofBytes_toBytes, Word.ofBytes_toBytes]
  exact guard_eq_ok_iff.mpr ⟨not_not_intro signature.length_toBytes, rfl⟩

/-! ### The top bit -/

theorem getLsbD_topBit (i : Nat) : topBit.getLsbD i = decide (i = 255) := by
  rw [topBit, BitVec.getLsbD_twoPow]
  simp [eq_comm]

theorem clear_topBit {s : Word} (h : s.msb = false) : s &&& ~~~topBit = s := by
  apply BitVec.eq_of_getLsbD_eq
  intro i hi
  rw [BitVec.msb_eq_getLsbD_last] at h
  rw [BitVec.getLsbD_and, BitVec.getLsbD_not, getLsbD_topBit]
  by_cases hlast : i = 255
  · subst hlast
    rw [h, Bool.false_and]
  · simp [hi, hlast]

theorem clear_set_topBit (s : Word) : (s ||| topBit) &&& ~~~topBit = s &&& ~~~topBit := by
  apply BitVec.eq_of_getLsbD_eq
  intro i hi
  simp only [BitVec.getLsbD_and, BitVec.getLsbD_or, BitVec.getLsbD_not, getLsbD_topBit]
  cases decide (i = 255) <;> simp

theorem set_clear_topBit {s : Word} (h : s.msb = true) : s &&& ~~~topBit ||| topBit = s := by
  apply BitVec.eq_of_getLsbD_eq
  intro i hi
  rw [BitVec.msb_eq_getLsbD_last] at h
  simp only [BitVec.getLsbD_and, BitVec.getLsbD_or, BitVec.getLsbD_not, getLsbD_topBit]
  by_cases hlast : i = 255
  · subst hlast
    simp [h]
  · simp [hi, hlast]

theorem msb_of_check (h : signature.check = .ok ()) : signature.s.msb = false := by
  obtain ⟨-, -, -, hlow⟩ := check_eq_ok_iff.mp h
  have hhalf : halfOrder.toNat < 2 ^ 255 := by decide
  rw [BitVec.le_def] at hlow
  rw [BitVec.msb_eq_decide, decide_eq_false_iff_not]
  omega

/-! ### 64 octets -/

theorem length_toCompact (signature : Signature) : signature.toCompact.length = 64 := by
  rw [toCompact, List.length_append, Word.length_toBytes, Word.length_toBytes]

theorem ofCompact_append (r s : Word) :
    ofCompact (r.toBytes ++ s.toBytes) = .ok ⟨s.msb, r, s &&& ~~~topBit⟩ := by
  have hlength : (r.toBytes ++ s.toBytes).length = 64 := by
    rw [List.length_append, Word.length_toBytes, Word.length_toBytes]
  rw [ofCompact, if_neg (not_not_intro hlength), List.take_left' (Word.length_toBytes r),
    List.drop_left' (Word.length_toBytes r), Word.ofBytes_toBytes, Word.ofBytes_toBytes]

/-- The 64 octets of a signature are read as it if the top bit of its `s` is free. -/
theorem ofCompact_toCompact (h : signature.s.msb = false) : ofCompact signature.toCompact = .ok signature := by
  obtain ⟨yParity, r, s⟩ := signature
  cases yParity with
  | false => rw [toCompact, if_neg Bool.false_ne_true, ofCompact_append, clear_topBit h, h]
  | true =>
    have hset : (s ||| topBit).msb = true := by
      rw [BitVec.msb_or, show topBit.msb = true by decide, Bool.or_true]
    rw [toCompact, if_pos rfl, ofCompact_append, hset, clear_set_topBit, clear_topBit h]

/-- Any 64 octets are the short form of the signature that is read from them. -/
theorem toCompact_of_ofCompact {bytes : Bytes} (h : bytes.length = 64) :
    ∃ read, ofCompact bytes = .ok read ∧ read.toCompact = bytes := by
  obtain ⟨r, s, rfl⟩ : ∃ r s : Word, bytes = r.toBytes ++ s.toBytes := by
    have hr : (bytes.take 32).length = 32 := by
      rw [List.length_take, h]
      rfl
    have hs : (bytes.drop 32).length = 32 := by
      rw [List.length_drop, h]
    exact ⟨Word.ofBytes (bytes.take 32), Word.ofBytes (bytes.drop 32), by
      rw [Word.toBytes_ofBytes hr, Word.toBytes_ofBytes hs, List.take_append_drop]⟩
  refine ⟨_, ofCompact_append r s, ?_⟩
  cases hs : s.msb with
  | false => rw [toCompact, if_neg Bool.false_ne_true, clear_topBit hs]
  | true => rw [toCompact, if_pos rfl, set_clear_topBit hs]

/-! ### Texts -/

/-- Texts of 64 octets are read in the short form, and all others in the long one. -/
theorem parse_of_mem_spellings {bytes : Bytes} {spelling : String} (h : spelling ∈ Hex.spellings bytes) :
    parse spelling = if bytes.length = 64 then ofCompact bytes else ofBytes bytes := by
  rw [parse, Hex.decode_after0x_of_mem_spellings h]
  rfl

/-- **Signatures that are written down are read again.** From its 65 octets a signature is read with whatever
scalars it has, and from all texts of them. If it passes the check, it is read as well from its 64 octets and
from their texts. And any 64 octets are those of the signature that they are read as, so there are no two
short forms of one. -/
theorem written_forms_are_read_again (signature : Signature) :
    ofBytes signature.toBytes = .ok signature ∧
    parse signature.text = .ok signature ∧
    (∀ spelling ∈ Hex.spellings signature.toBytes, parse spelling = .ok signature) ∧
    (signature.check = .ok () → ofCompact signature.toCompact = .ok signature ∧
      ∀ spelling ∈ Hex.spellings signature.toCompact, parse spelling = .ok signature) ∧
    (∀ bytes : Bytes, bytes.length = 64 → ∃ read, ofCompact bytes = .ok read ∧ read.toCompact = bytes) := by
  have hlong : ∀ spelling ∈ Hex.spellings signature.toBytes, parse spelling = .ok signature := by
    intro spelling hspelling
    rw [parse_of_mem_spellings hspelling, length_toBytes, if_neg (by decide), ofBytes_toBytes]
  have hdisplayed : signature.text ∈ Hex.spellings signature.toBytes := List.mem_cons_of_mem _ List.mem_cons_self
  refine ⟨ofBytes_toBytes signature, hlong _ hdisplayed, hlong, fun hcheck => ?_, fun _ => toCompact_of_ofCompact⟩
  have hcompact : ofCompact signature.toCompact = .ok signature := ofCompact_toCompact (msb_of_check hcheck)
  refine ⟨hcompact, fun spelling hspelling => ?_⟩
  rw [parse_of_mem_spellings hspelling, length_toCompact, if_pos rfl, hcompact]

/-- A signature whose parity sets the top bit of the short form. -/
def oddSignature : Signature :=
  ⟨true, 0x9328da16089fcba9bececa81663203989f2df5fe1faa6291a45381c81bd17f76,
    0x139c6d6b623b42da56557e5e734a43dc83345ddfadec52cbe24d0cc64f550793⟩

/-- Its short form, in which the first digit of `s` is 9 and no longer 1. -/
def oddSignatureOctets : Bytes :=
  Word.toBytes 0x9328da16089fcba9bececa81663203989f2df5fe1faa6291a45381c81bd17f76 ++
    Word.toBytes 0x939c6d6b623b42da56557e5e734a43dc83345ddfadec52cbe24d0cc64f550793

/-- It is read from both forms, and from a text of the short one with capital letters. -/
theorem odd_signature_is_read_again :
    oddSignature.check = .ok () ∧ oddSignature.toCompact = oddSignatureOctets ∧
      parse (Hex.data oddSignature.toBytes) = .ok oddSignature ∧
      ofCompact oddSignatureOctets = .ok oddSignature ∧
      parse (Hex.upper (Hex.text oddSignatureOctets)) = .ok oddSignature ∧
      oddSignatureOctets.length = 64 ∧
      ∃ read, ofCompact oddSignatureOctets = .ok read ∧ read.toCompact = oddSignatureOctets := by
  obtain ⟨-, -, hlong, hshort, hoctets⟩ := written_forms_are_read_again oddSignature
  have hcheck : oddSignature.check = .ok () := check_eq_ok_iff.mpr (by decide)
  have hcompact : oddSignature.toCompact = oddSignatureOctets := by decide
  have hlength : oddSignatureOctets.length = 64 := rfl
  obtain ⟨hread, hspelled⟩ := hshort hcheck
  rw [hcompact] at hread hspelled
  exact ⟨hcheck, hcompact, hlong _ (by simp [Hex.spellings]), hread, hspelled _ (by simp [Hex.spellings]), hlength,
    hoctets _ hlength⟩

end Signature
end EthWire
