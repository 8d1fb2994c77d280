/-
# A key's signature points back to the key's account

A scheme may give either of the two values of `s` that sign a digest. A key passes to the one that is at
most half the group order, and flips the parity along with it (`Signature.normalize`); the group order
is odd, so exactly one of the two is that small. The laws of a scheme say that both forms point back to
the signer, so whichever it was, what comes out of a key passes the check and is recovered.

Key theorems: `Signature.check_eq_ok_iff`, `Signature.recoverWord_eq_ok_iff`, `PrivateKey.check_signWord`,
`PrivateKey.recoverWord_signWord`.
-/
import EthWire.Proofs.Outcome
import EthWire.Signing.PrivateKey

namespace EthWire

theorem toNat_groupOrder : groupOrder.toNat = 2 * halfOrder.toNat + 1 := by
  decide

namespace Signature

/-- The signature with the other value of `s`. -/
def negated (signature : Signature) : Signature :=
  ⟨!signature.yParity, signature.r, groupOrder - signature.s⟩

theorem check_eq_ok_iff {signature : Signature} :
    signature.check = .ok () ↔
      0 < signature.r ∧ signature.r < groupOrder ∧ 0 < signature.s ∧ signature.s ≤ halfOrder := by
  rw [check, ite_error_eq_ok_iff, ite_error_eq_ok_iff, isLowS]
  simp only [not_or, Bool.not_eq_true', decide_eq_false_iff_not, Decidable.not_not, and_true]
  bv_omega

theorem toNat_negated_s {signature : Signature} (hs : signature.s < groupOrder) :
    signature.negated.s.toNat = groupOrder.toNat - signature.s.toNat := by
  rw [BitVec.lt_def] at hs
  rw [negated, BitVec.toNat_sub]
  omega

theorem negated_s_le {signature : Signature} (hs : signature.s < groupOrder)
    (hhigh : ¬ signature.s ≤ halfOrder) :
    0 < signature.negated.s ∧ signature.negated.s ≤ halfOrder := by
  have horder := toNat_groupOrder
  have hsub := toNat_negated_s hs
  have hzero : (0 : Word).toNat = 0 := rfl
  rw [BitVec.lt_def] at hs
  rw [BitVec.le_def] at hhigh
  rw [BitVec.lt_def, BitVec.le_def, hsub, hzero]
  omega

theorem normalize_cases {signature : Signature} (hs : signature.s < groupOrder) :
    (signature.s ≤ halfOrder ∧ signature.normalize = signature) ∨
      (¬ signature.s ≤ halfOrder ∧ signature.normalize = signature.negated) := by
  by_cases hlow : signature.s ≤ halfOrder
  · exact .inl ⟨hlow, if_pos (.inl (decide_eq_true hlow))⟩
  · refine .inr ⟨hlow, if_neg (not_or.mpr ⟨?_, BitVec.not_le.mpr hs⟩)⟩
    rw [isLowS, decide_eq_true_iff]
    exact hlow

theorem check_normalize {signature : Signature} (hr : 0 < signature.r ∧ signature.r < groupOrder)
    (hs : 0 < signature.s ∧ signature.s < groupOrder) : signature.normalize.check = .ok () := by
  rw [check_eq_ok_iff]
  rcases normalize_cases hs.2 with ⟨hlow, hself⟩ | ⟨hhigh, hother⟩
  · rw [hself]
    exact ⟨hr.1, hr.2, hs.1, hlow⟩
  · rw [hother]
    exact ⟨hr.1, hr.2, negated_s_le hs.2 hhigh⟩

/-- An address is recovered from scalars below the group order for which the scheme has a key. -/
theorem recoverWord_eq_ok_iff {scheme : Scheme} {signature : Signature} {digest : Word} {address : Address} :
    signature.recoverWord scheme digest = .ok address ↔
      signature.r < groupOrder ∧ signature.s < groupOrder ∧
        ∃ key, scheme.recover digest signature = some key ∧ Address.ofPublicKey key = .ok address := by
  rw [recoverWord]
  simp only [guard_eq_ok_iff, not_or, BitVec.not_le, and_assoc]
  refine and_congr_right fun _ => and_congr_right fun _ => ?_
  cases scheme.recover digest signature with
  | none => simp [throw_ne_ok]
  | some key => simp

theorem recoverWord_eq_ok {scheme : Scheme} {signature : Signature} {digest : Word} {key : Bytes}
    {address : Address} (hcheck : signature.check = .ok ())
    (hrecover : scheme.recover digest signature = some key) (hkey : Address.ofPublicKey key = .ok address) :
    signature.recoverWord scheme digest = .ok address := by
  obtain ⟨-, hr, -, hs⟩ := check_eq_ok_iff.mp hcheck
  have hlt : signature.s < groupOrder := by
    have horder := toNat_groupOrder
    bv_omega
  exact recoverWord_eq_ok_iff.mpr ⟨hr, hlt, key, hrecover, hkey⟩

end Signature

namespace PrivateKey

variable {scheme : Scheme} {key : PrivateKey}

theorem ofPublicKey_of_ofWord {secret : Word} (h : ofWord scheme secret = .ok key) :
    Address.ofPublicKey (scheme.publicKey key.secret) = .ok (key.address scheme) := by
  unfold ofWord at h
  split at h
  · simp only [bind_eq_ok_iff, pure_eq_ok_iff] at h
    obtain ⟨account, haccount, rfl⟩ := h
    rw [haccount]
    rw [Address.ofPublicKey, ite_error_eq_ok_iff, Except.ok.injEq] at haccount
    rw [address, ← haccount.2]
  · exact absurd h throw_ne_ok

/-- What a key signs passes the check. -/
theorem check_signWord (hs : scheme.Lawful) (digest : Word) :
    (key.signWord scheme digest).check = .ok () := by
  obtain ⟨hr0, hr, hs0, hs⟩ := hs.inRange digest key.secret key.pos key.lt
  exact Signature.check_normalize ⟨hr0, hr⟩ ⟨hs0, hs⟩

/-- What a key signs points back to its account. -/
theorem recoverWord_signWord (hs : scheme.Lawful) {secret : Word}
    (hkey : ofWord scheme secret = .ok key) (digest : Word) :
    (key.signWord scheme digest).recoverWord scheme digest = .ok (key.address scheme) := by
  have hcheck : (key.signWord scheme digest).check = .ok () := check_signWord hs digest
  have haddress := ofPublicKey_of_ofWord hkey
  have hrange := (hs.inRange digest key.secret key.pos key.lt).2.2.2
  rw [signWord] at hcheck ⊢
  rcases Signature.normalize_cases hrange with ⟨-, hself⟩ | ⟨-, hother⟩
  · rw [hself] at hcheck ⊢
    exact Signature.recoverWord_eq_ok hcheck (hs.recover_sign _ _ key.pos key.lt) haddress
  · rw [hother] at hcheck ⊢
    exact Signature.recoverWord_eq_ok hcheck (hs.recover_negated _ _ key.pos key.lt) haddress

end PrivateKey
end EthWire
