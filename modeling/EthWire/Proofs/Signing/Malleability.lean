/-
# Accepted signatures are not malleable

Of a signature and the one with the other value of `s`, exactly one has an `s` of at most half the group
order, because the order is odd (`Signature.negated_s_le_iff`). Whatever accepts a signature checks it
first, so of the two at most one is accepted, by all entry points taken together and for all addresses,
digests and transactions: nobody can turn an accepted signature into another one without the key.

Normalizing passes to the smaller `s`, so it does not tell the two apart, and what is small already, or
outside the group order, stays as it is.

Key definitions: `Signature.Accepted`.
Key theorems: `verify_iff`, `Signature.Accepted.check_eq_ok`, `Signature.normalize_negated`,
`accepted_signatures_are_not_malleable`.
-/
import EthWire.Chain.Basic
import EthWire.Proofs.Signing.Recovery
import EthWire.Proofs.Transaction.Signing
import EthWire.Signing.Message
import EthWire.TypedData.Payload

namespace EthWire

/-! ### What accepts a signature -/

theorem verify_iff {scheme : Scheme} {address : Address} {digest : Bytes} {signature : Signature} :
    verify scheme address digest signature = true ↔
      signature.check = .ok () ∧ signature.recover scheme digest = .ok address := by
  unfold verify
  cases hcheck : signature.check with
  | error cause => simp
  | ok _ =>
    cases hrecover : signature.recover scheme digest with
    | error cause => simp
    | ok signer => simp

theorem verify_toBytes_iff {scheme : Scheme} {address : Address} {digest : Word} {signature : Signature} :
    verify scheme address digest.toBytes signature = true ↔
      signature.check = .ok () ∧ signature.recoverWord scheme digest = .ok address := by
  rw [verify_iff, Signature.recover, if_pos (Word.length_toBytes digest), Word.ofBytes_toBytes]

namespace Signature

/-- Whether a signature is accepted: an address verifies it over a digest, a message or typed data, or a
transaction that carries it has a sender, by itself or on a chain. -/
inductive Accepted (scheme : Scheme) (signature : Signature) : Prop where
  | digest {address : Address} {digest : Bytes} (h : verify scheme address digest signature = true)
  | message {address : Address} {message : Bytes} (h : Message.verify scheme address message signature = true)
  | typedData {address : Address} {payload : TypedData.Payload}
      (h : payload.verify scheme address signature = .ok true)
  | transaction {tx : Transaction} {address : Address} (carried : tx.signature = some signature)
      (h : tx.sender scheme = .ok address)
  | chain {chain : Chain} {tx : ChainTransaction} {address : Address} (carried : tx.signature? = some signature)
      (h : chain.sender scheme tx = .ok address)

variable {scheme : Scheme} {signature : Signature}

theorem check_eq_ok_of_sender {tx : Transaction} {address : Address} (carried : tx.signature = some signature)
    (h : tx.sender scheme = .ok address) : signature.check = .ok () := by
  simp only [Transaction.sender, carried, check_bind_eq_ok_iff] at h
  exact h.1

/-- What is accepted passes the check. -/
theorem Accepted.check_eq_ok (h : signature.Accepted scheme) : signature.check = .ok () := by
  cases h with
  | digest hverify => exact (verify_iff.mp hverify).1
  | message hverify => exact (verify_iff.mp hverify).1
  | typedData hverify =>
    rw [TypedData.Payload.verify] at hverify
    simp only [bind_eq_ok_iff, pure_eq_ok_iff] at hverify
    obtain ⟨digest, -, hdigest⟩ := hverify
    exact (verify_iff.mp hdigest).1
  | transaction carried hsender => exact check_eq_ok_of_sender carried hsender
  | @chain chain tx address carried hsender =>
    cases tx with
    | standard tx => exact check_eq_ok_of_sender carried hsender
    | custom typeByte fields attached =>
      obtain rfl : attached = some signature := carried
      simp only [Chain.sender, check_bind_eq_ok_iff] at hsender
      exact hsender.1

/-! ### The two values of `s` -/

theorem negated_negated (signature : Signature) : signature.negated.negated = signature := by
  have hback : groupOrder - (groupOrder - signature.s) = signature.s := by bv_omega
  rw [negated, negated, Bool.not_not, hback]

theorem negated_s_lt (hpos : 0 < signature.s) (hlt : signature.s < groupOrder) :
    signature.negated.s < groupOrder := by
  have hsub := toNat_negated_s hlt
  have hzero : (0 : Word).toNat = 0 := rfl
  rw [BitVec.lt_def, hzero] at hpos
  rw [BitVec.lt_def] at hlt
  rw [BitVec.lt_def, hsub]
  omega

/-- Exactly one of the two is at most half the group order. -/
theorem negated_s_le_iff (hlt : signature.s < groupOrder) :
    signature.negated.s ≤ halfOrder ↔ ¬ signature.s ≤ halfOrder := by
  constructor
  · intro hother hself
    have horder := toNat_groupOrder
    have hsub := toNat_negated_s hlt
    rw [BitVec.le_def] at hother hself
    omega
  · intro hhigh
    exact (negated_s_le hlt hhigh).2

/-- If a signature is accepted, the other one is not. Nothing is asked of `s`: what is accepted is in
range. -/
theorem not_accepted_negated (h : signature.Accepted scheme) : ¬ signature.negated.Accepted scheme := by
  intro hother
  obtain ⟨-, -, -, hlow⟩ := check_eq_ok_iff.mp h.check_eq_ok
  obtain ⟨-, -, -, hotherLow⟩ := check_eq_ok_iff.mp hother.check_eq_ok
  have hlt : signature.s < groupOrder := by
    have horder := toNat_groupOrder
    rw [BitVec.le_def] at hlow
    rw [BitVec.lt_def]
    omega
  exact (negated_s_le_iff hlt).mp hotherLow hlow

/-! ### Normalizing -/

theorem normalize_of_le (h : signature.s ≤ halfOrder ∨ groupOrder ≤ signature.s) :
    signature.normalize = signature := by
  exact if_pos (h.imp_left decide_eq_true)

/-- Both values of `s` normalize to the same signature. -/
theorem normalize_negated (hpos : 0 < signature.s) (hlt : signature.s < groupOrder) :
    signature.negated.normalize = signature.normalize := by
  have hiff := negated_s_le_iff hlt
  rcases normalize_cases hlt with ⟨hlow, hself⟩ | ⟨hhigh, hother⟩
  · have hotherHigh : ¬ signature.negated.s ≤ halfOrder := fun h => hiff.mp h hlow
    rcases normalize_cases (negated_s_lt hpos hlt) with ⟨hotherLow, -⟩ | ⟨-, hback⟩
    · exact absurd hotherLow hotherHigh
    · rw [hback, negated_negated, hself]
  · rw [hother]
    exact normalize_of_le (.inl (hiff.mpr hhigh))

theorem normalize_normalize (signature : Signature) : signature.normalize.normalize = signature.normalize := by
  by_cases hlt : signature.s < groupOrder
  · rcases normalize_cases hlt with ⟨-, hself⟩ | ⟨hhigh, hother⟩
    · rw [hself, hself]
    · rw [hother]
      exact normalize_of_le (.inl (negated_s_le hlt hhigh).2)
  · have hself := normalize_of_le (.inr (BitVec.not_lt.mp hlt))
    rw [hself, hself]

end Signature

/-- A key's signature is verified. -/
theorem PrivateKey.verify_signWord {scheme : Scheme} (hs : scheme.Lawful) {secret : Word} {key : PrivateKey}
    (hkey : ofWord scheme secret = .ok key) (digest : Word) :
    verify scheme (key.address scheme) digest.toBytes (key.signWord scheme digest) = true :=
  verify_toBytes_iff.mpr ⟨check_signWord hs digest, recoverWord_signWord hs hkey digest⟩

/-- **Accepted signatures are not malleable.** Of a signature and the one with the other value of `s` at
most one is accepted, whoever signed whatever with them. Both normalize to the same signature; what
normalizing gives it leaves alone, and so it does a zero and any `s` outside the group order. -/
theorem accepted_signatures_are_not_malleable (scheme : Scheme) (signature : Signature) :
    ¬ (signature.Accepted scheme ∧ signature.negated.Accepted scheme) ∧
      (0 < signature.s → signature.s < groupOrder → signature.negated.normalize = signature.normalize) ∧
      signature.normalize.normalize = signature.normalize ∧
      (signature.s = 0 ∨ groupOrder ≤ signature.s → signature.normalize = signature) := by
  refine ⟨?_, Signature.normalize_negated, signature.normalize_normalize, ?_⟩
  · rintro ⟨hself, hother⟩
    exact Signature.not_accepted_negated hself hother
  · rintro (hzero | hlarge)
    · have hlow : signature.s ≤ halfOrder := by
        rw [hzero]
        decide
      exact Signature.normalize_of_le (.inl hlow)
    · exact Signature.normalize_of_le (.inr hlarge)

/-- Of the signature of a transfer and the other one, only the first is accepted, and both normalize to
it. -/
theorem sampleSignature_is_accepted_alone :
    let signature := Transaction.sampleSignature
    signature.Accepted Transaction.sampleScheme ∧ ¬ signature.negated.Accepted Transaction.sampleScheme ∧
      signature.negated.normalize = signature := by
  intro signature
  obtain ⟨hone, hboth, -, -⟩ := accepted_signatures_are_not_malleable Transaction.sampleScheme signature
  have hkey : PrivateKey.ofWord Transaction.sampleScheme Transaction.sampleSecret
      = .ok ⟨Transaction.sampleSecret, by decide, by decide⟩ := rfl
  have haccepted : signature.Accepted Transaction.sampleScheme := by
    have hverify := PrivateKey.verify_signWord Transaction.lawful_sampleScheme hkey Transaction.sampleDigest
    rw [Transaction.signWord_sampleDigest rfl] at hverify
    exact .digest hverify
  have hself : signature.normalize = signature := Signature.normalize_of_le (.inl (by decide))
  refine ⟨haccepted, fun hother => hone ⟨haccepted, hother⟩, ?_⟩
  rw [hboth (by decide) (by decide), hself]

end EthWire
