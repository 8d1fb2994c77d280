/-
# Authorities are recovered without the check

The authority of a signed authorization is recovered from any scalars below the group order. Nothing checks
the signature first, as is done before a transaction has a sender or an address verifies a digest. So where a
scheme recovers one key from both values of `s`, an authority has two signatures for each of its
authorizations (`SignedAuthorization.authority_negated`), of which only one passes the check. What the check
would ask beyond the recovery is that neither scalar is zero and that `s` is at most half the group order
(`SignedAuthorization.check_of_authority_iff`); verifying the digest asks for just that
(`SignedAuthorization.verify_digest_iff`).

The curve that transactions use is such a scheme: an authorization with a large `s` is written and read like
any other, and its authority is the one of the small `s` (`SignedAuthorization.large_s_has_the_same_authority`).

Key definitions: `SignedAuthorization.negated`, `SignedAuthorization.HasAuthority`.
Key theorems: `Signature.recoverWord_negated`, `SignedAuthorization.check_of_authority_iff`,
`SignedAuthorization.authority_negated`, `SignedAuthorization.authority_is_recovered_without_the_check`.
-/
import EthWire.Curve.Ecdsa
import EthWire.Proofs.Signing.Malleability

namespace EthWire

/-- Where a scheme has one key for both values of `s`, both point to one account or fail alike. -/
theorem Signature.recoverWord_negated {scheme : Scheme} {signature : Signature} {digest : Word}
    (hpos : 0 < signature.s) (hlt : signature.s < groupOrder)
    (hsame : scheme.recover digest signature.negated = scheme.recover digest signature) :
    signature.negated.recoverWord scheme digest = signature.recoverWord scheme digest := by
  have hr : signature.negated.r = signature.r := rfl
  have hself : ¬ groupOrder ≤ signature.s := BitVec.not_le.mpr hlt
  have hother : ¬ groupOrder ≤ signature.negated.s := BitVec.not_le.mpr (negated_s_lt hpos hlt)
  rw [recoverWord, recoverWord, hsame, hr]
  simp only [hself, hother, or_false]

namespace SignedAuthorization

/-- The authorization with the other value of `s` in its signature. -/
def negated (signed : SignedAuthorization) : SignedAuthorization :=
  { signed with signature := signed.signature.negated }

/-- Whether an authority is recovered. -/
def HasAuthority (scheme : Scheme) (signed : SignedAuthorization) : Prop :=
  ∃ account, signed.authority scheme = .ok account

variable {scheme : Scheme} {signed : SignedAuthorization} {account : Address}

/-- What the recovery leaves to the check: zeros, and an `s` of more than half the group order. -/
theorem check_of_authority_iff (h : signed.authority scheme = .ok account) :
    signed.signature.check = .ok () ↔
      0 < signed.signature.r ∧ 0 < signed.signature.s ∧ signed.signature.s ≤ halfOrder := by
  obtain ⟨hr, -⟩ := Signature.recoverWord_eq_ok_iff.mp h
  rw [Signature.check_eq_ok_iff]
  exact ⟨fun hcheck => ⟨hcheck.1, hcheck.2.2⟩, fun hbeyond => ⟨hbeyond.1, hr, hbeyond.2⟩⟩

/-- The other signature has the same authority, or fails in the same way. -/
theorem authority_negated (hpos : 0 < signed.signature.s) (hlt : signed.signature.s < groupOrder)
    (hsame : scheme.recover signed.authorization.digest signed.signature.negated
      = scheme.recover signed.authorization.digest signed.signature) :
    signed.negated.authority scheme = signed.authority scheme :=
  Signature.recoverWord_negated hpos hlt hsame

theorem not_hasAuthority_negated (h : signed.signature.s = 0) : ¬ signed.negated.HasAuthority scheme := by
  rintro ⟨account, haccount⟩
  obtain ⟨-, hlt, -⟩ := Signature.recoverWord_eq_ok_iff.mp haccount
  have hother : signed.negated.signature.s = groupOrder := by
    change groupOrder - signed.signature.s = groupOrder
    rw [h]
    rfl
  rw [hother] at hlt
  exact absurd hlt (by decide)

theorem verify_digest_iff :
    verify scheme account signed.authorization.digest.toBytes signed.signature = true ↔
      signed.authority scheme = .ok account ∧
        0 < signed.signature.r ∧ 0 < signed.signature.s ∧ signed.signature.s ≤ halfOrder := by
  rw [verify_toBytes_iff, and_comm]
  exact and_congr_right check_of_authority_iff

/-- **Authorities are recovered without the check.** Let a scheme recover one key from both values of `s`.
When an authority has been recovered, the check is passed exactly if no scalar is zero and `s` is at most half
the group order. The other signature has the same authority, so that at most one of the two has any is true
only where none has, or where `s` is zero. Verifying the digest accepts the one with the smaller `s` alone. -/
theorem authority_is_recovered_without_the_check {scheme : Scheme} {signed : SignedAuthorization}
    (hsame : scheme.recover signed.authorization.digest signed.signature.negated
      = scheme.recover signed.authorization.digest signed.signature) :
    (∀ account, signed.authority scheme = .ok account → (signed.signature.check = .ok () ↔
      0 < signed.signature.r ∧ 0 < signed.signature.s ∧ signed.signature.s ≤ halfOrder)) ∧
    (0 < signed.signature.s → signed.signature.s < groupOrder →
      signed.negated.authority scheme = signed.authority scheme) ∧
    (¬ (signed.HasAuthority scheme ∧ signed.negated.HasAuthority scheme) ↔
      ¬ signed.HasAuthority scheme ∨ signed.signature.s = 0) ∧
    (∀ account, verify scheme account signed.authorization.digest.toBytes signed.signature = true ↔
      signed.authority scheme = .ok account ∧
        0 < signed.signature.r ∧ 0 < signed.signature.s ∧ signed.signature.s ≤ halfOrder) := by
  refine ⟨fun _ => check_of_authority_iff, fun hpos hlt => authority_negated hpos hlt hsame, ?_,
    fun _ => verify_digest_iff⟩
  constructor
  · intro hone
    by_cases hzero : signed.signature.s = 0
    · exact .inr hzero
    · refine .inl fun hself => hone ⟨hself, ?_⟩
      obtain ⟨account, haccount⟩ := hself
      obtain ⟨-, hlt, -⟩ := Signature.recoverWord_eq_ok_iff.mp haccount
      exact ⟨account, (authority_negated (by bv_omega) hlt hsame).trans haccount⟩
  · rintro (hnone | hzero) ⟨hself, hother⟩
    · exact hnone hself
    · exact not_hasAuthority_negated hzero hother

/-! ### On the curve -/

/-- The authorization of an address on the first chain by the key whose octets are all 0x46. -/
def sampleAuthorization : SignedAuthorization :=
  ⟨⟨1, ⟨0x3535353535353535353535353535353535353535⟩, 0⟩,
    ⟨false, 0x62ffd2b09baa5c561d162560dba5b8eac35ddd822fc9b57ae9c358a1f6d028c3,
      0x69658643036aed4250120760ec386e4a488ea511bc8b9c3bac098f1bc825b13e⟩⟩

/-- The account of that key. -/
def sampleAuthority : Address := ⟨0x9d8a62f656a8d1615c1294fd71e9cfb3e4855a4f⟩

theorem digest_sampleAuthorization :
    sampleAuthorization.authorization.digest
      = 0x1bba64ab4ed4ac51c6e13f89f4103d7c415ddb01a35e206b9cd8162c00df8d81 := by
  decide +kernel

theorem recover_sampleAuthorization :
    secp256k1.recover sampleAuthorization.authorization.digest sampleAuthorization.signature
        = some Transaction.samplePublicKey ∧
      secp256k1.recover sampleAuthorization.authorization.digest sampleAuthorization.signature.negated
        = some Transaction.samplePublicKey := by
  rw [digest_sampleAuthorization]
  decide +kernel

theorem ofPublicKey_samplePublicKey : Address.ofPublicKey Transaction.samplePublicKey = .ok sampleAuthority := by
  have hlow : Address.ofLowBits (keccak256 Transaction.samplePublicKey) = sampleAuthority := by decide +kernel
  rw [Address.ofPublicKey, if_neg (by decide), hlow]

theorem authority_sampleAuthorization : sampleAuthorization.authority secp256k1 = .ok sampleAuthority :=
  Signature.recoverWord_eq_ok_iff.mpr
    ⟨by decide, by decide, _, recover_sampleAuthorization.1, ofPublicKey_samplePublicKey⟩

/-- Both signatures of the key have its account as their authority, and a digest is verified with one. -/
theorem sampleAuthorization_is_recovered_twice :
    secp256k1.recover sampleAuthorization.authorization.digest sampleAuthorization.signature.negated
        = secp256k1.recover sampleAuthorization.authorization.digest sampleAuthorization.signature ∧
      sampleAuthorization.signature.check = .ok () ∧
      sampleAuthorization.negated.authority secp256k1 = .ok sampleAuthority ∧
      (sampleAuthorization.HasAuthority secp256k1 ∧ sampleAuthorization.negated.HasAuthority secp256k1) ∧
      verify secp256k1 sampleAuthority sampleAuthorization.authorization.digest.toBytes
        sampleAuthorization.signature = true := by
  have hsame := recover_sampleAuthorization.2.trans recover_sampleAuthorization.1.symm
  obtain ⟨hcheck, hother, hone, hverify⟩ := authority_is_recovered_without_the_check hsame
  have hsmall : 0 < sampleAuthorization.signature.r ∧ 0 < sampleAuthorization.signature.s ∧
      sampleAuthorization.signature.s ≤ halfOrder := by
    decide
  refine ⟨hsame, (hcheck _ authority_sampleAuthorization).mpr hsmall,
    (hother (by decide) (by decide)).trans authority_sampleAuthorization, ?_,
    (hverify _).mpr ⟨authority_sampleAuthorization, hsmall⟩⟩
  by_contra hnot
  rcases hone.mp hnot with hnone | hzero
  · exact hnone ⟨_, authority_sampleAuthorization⟩
  · exact absurd hzero (by decide)

/-- The signature with the large `s` is written and read, and its authority is recovered, though it does not
pass the check. -/
theorem large_s_has_the_same_authority :
    SignedAuthorization.ofItem sampleAuthorization.negated.toItem = .ok sampleAuthorization.negated ∧
      sampleAuthorization.authority secp256k1 = .ok sampleAuthority ∧
      sampleAuthorization.negated.authority secp256k1 = .ok sampleAuthority ∧
      sampleAuthorization.negated.signature.check = .error .signatureS := by
  refine ⟨ofItem_eq_ok_iff.mpr rfl, authority_sampleAuthorization, ?_, rfl⟩
  exact Signature.recoverWord_eq_ok_iff.mpr
    ⟨by decide, by decide, _, recover_sampleAuthorization.2, ofPublicKey_samplePublicKey⟩

end SignedAuthorization
end EthWire
