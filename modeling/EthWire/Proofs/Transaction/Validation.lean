/-
# The rules decide what is written

Whatever is written of a transaction, be it the plain form, the one for peers or the one to be signed, the
rules of its envelope are asked first, and a form fails with what they say. Behind them nothing else can fail:
the one step that could is the number in which a legacy signature holds its chain id, and the rules bound that
id (`Transaction.exists_toItem`). So each form ends as the check of the rules does
(`Transaction.encode_eq_map_validate`), and so do the digests of the forms and the signature over one of them.

Key theorems: `Transaction.exists_toItem`, `Transaction.encode_eq_map_validate`,
`Transaction.toNetworkBytes_eq_map_validate`, `Transaction.written_forms_end_as_validate`.
-/
import EthWire.Chain.Basic
import EthWire.Curve.Ecdsa
import EthWire.Proofs.Transaction.Canonical

namespace EthWire
namespace Transaction

variable {tx : Transaction}

/-! ### Behind the rules -/

theorem exists_legacyV {chainId : Option Word} (hc : ∀ c, chainId = some c → c.toNat < maxChainId)
    (signature : Signature) : ∃ v, legacyV chainId signature = .ok v := by
  cases chainId with
  | none => exact ⟨_, rfl⟩
  | some c => exact ⟨_, if_neg (Nat.not_le.mpr (hc c rfl))⟩

/-- A transaction that keeps its rules has its list of fields, with whatever signature. -/
theorem exists_toItem (hv : tx.validate = .ok ()) (signature : Option Signature) :
    ∃ item, tx.toItem signature = .ok item := by
  suffices h : ∃ behind, trailer tx.envelope signature = .ok behind by
    obtain ⟨behind, hbehind⟩ := h
    exact ⟨_, toItem_eq_ok_iff.mpr ⟨behind, hbehind, rfl⟩⟩
  obtain ⟨envelope, nonce, gasLimit, value, data, own⟩ := tx
  cases envelope with
  | legacy chainId gasPrice recipient =>
    cases signature with
    | none => cases chainId <;> exact ⟨_, rfl⟩
    | some signature =>
      obtain ⟨v, hnumber⟩ := exists_legacyV (chainId_lt_of_check hv) signature
      exact ⟨_, bind_eq_ok_iff.mpr ⟨v, hnumber, rfl⟩⟩
  | _ => exact ⟨_, trailer_of_ne_legacy (by rintro ⟨⟩) signature⟩

/-! ### Forms -/

theorem encode_eq_map_validate (tx : Transaction) (signature : Option Signature) :
    ∃ bytes, tx.encode signature = tx.validate.map fun _ => bytes := by
  cases hv : tx.validate with
  | error cause => exact ⟨[], by rw [encode, hv]; rfl⟩
  | ok _ =>
    obtain ⟨item, hitem⟩ := exists_toItem hv signature
    exact ⟨_, by rw [encode, hv, hitem]; rfl⟩

theorem toNetworkBytes_eq_map_validate (tx : Transaction) :
    ∃ bytes, tx.toNetworkBytes = tx.validate.map fun _ => bytes := by
  unfold toNetworkBytes
  split
  · cases hv : tx.validate with
    | error cause => exact ⟨[], rfl⟩
    | ok _ =>
      obtain ⟨item, hitem⟩ := exists_toItem hv tx.signature
      exact ⟨_, by rw [hitem]; rfl⟩
  · exact encode_eq_map_validate tx tx.signature

theorem sign_none (scheme : Scheme) (key : PrivateKey) (tx : Transaction) :
    tx.sign scheme key none = tx.signingPayload.map fun payload =>
      { tx with signature := some (key.signWord scheme (keccak256 payload)) } := by
  simp only [sign, forNetwork?, bind, Except.bind, signingHash]
  cases tx.signingPayload <;> rfl

/-- **Every written form ends as the check of the rules.** A transaction that breaks them is neither written,
sent nor signed, and the failure is always that of the check; one that keeps them, signed or not, has all of its
forms and digests, also on a chain without types of its own. -/
theorem written_forms_end_as_validate (scheme : Scheme) (key : PrivateKey) (id : UInt64) (name : String)
    (tx : Transaction) :
    (∀ cause, tx.validate = .error cause →
      tx.toBytes = .error cause ∧ tx.toNetworkBytes = .error cause ∧ tx.signingPayload = .error cause ∧
        tx.signingHash = .error cause ∧ tx.hash = .error cause ∧
        (⟨id, name, none⟩ : Chain).toBytes (.standard tx) = .error cause ∧
        tx.sign scheme key none = .error cause) ∧
    (tx.validate = .ok () → ∃ bytes sent payload,
      tx.toBytes = .ok bytes ∧ tx.toNetworkBytes = .ok sent ∧ tx.signingPayload = .ok payload ∧
        tx.signingHash = .ok (keccak256 payload) ∧ tx.hash = .ok (keccak256 bytes) ∧
        (⟨id, name, none⟩ : Chain).toBytes (.standard tx) = .ok bytes ∧
        tx.sign scheme key none
          = .ok { tx with signature := some (key.signWord scheme (keccak256 payload)) }) := by
  obtain ⟨bytes, hbytes⟩ := encode_eq_map_validate tx tx.signature
  obtain ⟨sent, hsent⟩ := toNetworkBytes_eq_map_validate tx
  obtain ⟨payload, hpayload⟩ := encode_eq_map_validate tx none
  have hchain : (⟨id, name, none⟩ : Chain).toBytes (.standard tx) = tx.encode tx.signature := rfl
  rw [sign_none, signingHash, signingPayload, hash, toBytes, hchain, hsent, hbytes, hpayload]
  constructor
  · intro cause hv
    rw [hv]
    exact ⟨rfl, rfl, rfl, rfl, rfl, rfl, rfl⟩
  · intro hv
    rw [hv]
    exact ⟨bytes, sent, payload, rfl, rfl, rfl, rfl, rfl, rfl, rfl⟩

/-- A signed transaction with a tip above its fee cap, and a signed legacy transaction for a chain. -/
theorem high_tip_is_never_written :
    let key : PrivateKey := ⟨1, by decide, by decide⟩
    let chain : Chain := ⟨1, "Ethereum", none⟩
    let high : Transaction := ⟨.eip1559 1 ⟨1, 2⟩ none [], 0, 21000, 0, [], some ⟨true, 5, 7⟩⟩
    let legacy : Transaction := ⟨.legacy (some 1) 1 none, 0, 21000, 0, [], some ⟨true, 5, 7⟩⟩
    (high.validate = .error (.feeCapTooLow 1 2) ∧ high.toBytes = .error (.feeCapTooLow 1 2) ∧
      high.signingHash = .error (.feeCapTooLow 1 2) ∧ chain.toBytes (.standard high) = .error (.feeCapTooLow 1 2) ∧
      high.sign secp256k1 key none = .error (.feeCapTooLow 1 2)) ∧
    (legacy.validate = .ok () ∧ ∃ bytes, legacy.toBytes = .ok bytes ∧ legacy.hash = .ok (keccak256 bytes)) := by
  intro key chain high legacy
  have hhigh : high.validate = .error (.feeCapTooLow 1 2) := by decide
  have hlegacy : legacy.validate = .ok () := by decide
  obtain ⟨hbytes, -, -, hdigest, -, hchain, hsign⟩ :=
    (written_forms_end_as_validate secp256k1 key 1 "Ethereum" high).1 _ hhigh
  obtain ⟨bytes, -, -, hwritten, -, -, -, hhash, -⟩ :=
    (written_forms_end_as_validate secp256k1 key 1 "Ethereum" legacy).2 hlegacy
  exact ⟨⟨hhigh, hbytes, hdigest, hchain, hsign⟩, hlegacy, bytes, hwritten, hhash⟩

end Transaction
end EthWire
