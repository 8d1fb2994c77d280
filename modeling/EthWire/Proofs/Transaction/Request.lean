/-
# What a request is built into

A request is checked before it is built into a transaction, and by rules of its own. They include the
rules of the envelope that comes out (`Request.check_envelope`): the tip does not exceed the fee cap,
there are blob hashes of the known version, and there are authorizations. The one rule of an envelope
that a request is not asked about is the bound on the chain id of a legacy transaction, so a legacy
request for a chain beyond it is built into a transaction that cannot be written
(`Request.large_chain_is_built_but_not_written`).

Every other transaction that is built keeps its rules, is written, and is read back.

Key theorems: `Request.validate_eq_ok_iff`, `Request.build_eq_ok_iff`, `Request.check_envelope`,
`Request.built_transaction_reads_back`.
-/
import EthWire.Proofs.Transaction.SigningPayload
import EthWire.Transaction.Request

namespace EthWire
namespace Request

variable {request : Request} {kind : TxKind}

theorem required_eq_ok_iff {α : Type} {name : String} {field : Option α} {value : α} :
    required kind name field = .ok value ↔ field = some value := by
  cases field <;> simp [required]

theorem validate_eq_ok_iff :
    request.validate = .ok kind ↔ request.inferKind = .ok kind ∧
      ∃ gasLimit, request.gasLimit = some gasLimit ∧ request.checkChain kind = .ok () ∧
        request.checkFees kind gasLimit = .ok () ∧ request.checkSpecial kind = .ok () := by
  simp only [validate, bind_eq_ok_iff, required_eq_ok_iff, pure_eq_ok_iff]
  constructor
  · rintro ⟨_, hkind, gasLimit, hgas, ⟨⟩, hchain, ⟨⟩, hfees, ⟨⟩, hspecial, rfl⟩
    exact ⟨hkind, gasLimit, hgas, hchain, hfees, hspecial⟩
  · rintro ⟨hkind, gasLimit, hgas, hchain, hfees, hspecial⟩
    exact ⟨kind, hkind, gasLimit, hgas, (), hchain, (), hfees, (), hspecial, rfl⟩

theorem build_eq_ok_iff {tx : Transaction} :
    request.build = .ok tx ↔ ∃ kind hashes, request.validate = .ok kind ∧
      (if kind = .eip4844 then request.hashes = .ok hashes else hashes = []) ∧
      request.assemble kind hashes = tx := by
  simp only [build, bind_eq_ok_iff]
  refine exists_congr fun kind => ?_
  by_cases hkind : kind = .eip4844
  · simp only [hkind, if_true, bind_eq_ok_iff, pure_eq_ok_iff]
    exact exists_and_left.symm
  · simp only [if_neg hkind, bind_eq_ok_iff, pure_eq_ok_iff]
    constructor
    · rintro ⟨hv, _, rfl, rfl⟩
      exact ⟨[], hv, rfl, rfl⟩
    · rintro ⟨_, hv, rfl, rfl⟩
      exact ⟨hv, [], rfl, rfl⟩

/-! ### The rules of the envelope -/

theorem hashes_eq_ok {hashes : List Word} (h : request.hashes = .ok hashes) :
    hashes.isEmpty = false ∧ Envelope.checkVersions hashes = .ok () := by
  simp only [Request.hashes, bind_eq_ok_iff, guard_eq_ok_iff, pure_eq_ok_iff] at h
  obtain ⟨_, -, hne, ⟨⟩, hversions, rfl⟩ := h
  exact ⟨by simpa using hne, hversions⟩

theorem feeCaps_check_of_checkFees {gasLimit : Word} (hkind : kind ≠ .legacy ∧ kind ≠ .eip2930)
    (h : request.checkFees kind gasLimit = .ok ()) : request.feeCaps.check = .ok () := by
  have hfees : ∃ maxFee maxPriorityFee, request.maxFee = some maxFee ∧
      request.maxPriorityFee = some maxPriorityFee ∧ FeeCaps.check ⟨maxFee, maxPriorityFee⟩ = .ok () := by
    cases kind with
    | legacy => exact absurd rfl hkind.1
    | eip2930 => exact absurd rfl hkind.2
    | _ =>
      simp only [checkFees, bind_eq_ok_iff, required_eq_ok_iff] at h
      obtain ⟨maxFee, hmax, maxPriorityFee, htip, ⟨⟩, hcheck, -⟩ := h
      exact ⟨maxFee, maxPriorityFee, hmax, htip, hcheck⟩
  obtain ⟨maxFee, maxPriorityFee, hmax, htip, hcheck⟩ := hfees
  rw [feeCaps, hmax, htip]
  exact hcheck

theorem authorizations_of_checkSpecial (h : request.checkSpecial .eip7702 = .ok ()) :
    (request.authorizations.getD []).isEmpty = false := by
  simp only [checkSpecial, bind_eq_ok_iff] at h
  obtain ⟨_, -, h⟩ := h
  by_contra hempty
  rw [Bool.not_eq_false] at hempty
  rw [if_pos hempty] at h
  exact throw_ne_ok h

/-- An accepted request has an envelope that keeps its rules, but for the bound on the chain id of a
legacy one. -/
theorem check_envelope {gasLimit : Word} {hashes : List Word}
    (hfees : request.checkFees kind gasLimit = .ok ()) (hspecial : request.checkSpecial kind = .ok ())
    (hhashes : if kind = .eip4844 then request.hashes = .ok hashes else hashes = [])
    (hchain : kind = .legacy → ∀ chainId, request.chainId = some chainId → chainId.toNat < maxChainId) :
    (request.envelope kind hashes).check = .ok () := by
  cases kind with
  | legacy =>
    rw [envelope]
    cases hc : request.chainId with
    | none => rfl
    | some chainId => exact if_neg (Nat.not_le.mpr (hchain rfl chainId hc))
  | eip2930 => rfl
  | eip1559 => exact feeCaps_check_of_checkFees (by decide) hfees
  | eip4844 =>
    obtain ⟨hne, hversions⟩ := hashes_eq_ok hhashes
    have hcaps := feeCaps_check_of_checkFees (by decide) hfees
    simp only [envelope, Envelope.check, bind_eq_ok_iff, guard_eq_ok_iff]
    exact ⟨(), hcaps, by simp [hne], hversions⟩
  | eip7702 =>
    have hcaps := feeCaps_check_of_checkFees (by decide) hfees
    have hne := authorizations_of_checkSpecial hspecial
    simp only [envelope, Envelope.check, bind_eq_ok_iff]
    exact ⟨(), hcaps, by rw [hne]; rfl⟩

/-! ### The transaction -/

@[simp] theorem kind_assemble (request : Request) (kind : TxKind) (hashes : List Word) :
    (request.assemble kind hashes).kind = kind := by
  cases kind <;> rfl

section

variable {tx : Transaction}

theorem signature_of_build (h : request.build = .ok tx) : tx.signature = none := by
  obtain ⟨kind, hashes, -, -, rfl⟩ := build_eq_ok_iff.mp h
  rfl

/-- The chain of a legacy transaction is the one that was asked for, within its bound or not. -/
theorem validate_of_build (h : request.build = .ok tx) :
    tx.validate = .ok () ↔
      (tx.kind = .legacy → ∀ chainId, request.chainId = some chainId → chainId.toNat < maxChainId) := by
  obtain ⟨kind, hashes, hv, hhashes, rfl⟩ := build_eq_ok_iff.mp h
  obtain ⟨-, gasLimit, -, -, hfees, hspecial⟩ := validate_eq_ok_iff.mp hv
  rw [kind_assemble]
  refine ⟨fun hcheck hkind => ?_, fun hchain => check_envelope hfees hspecial hhashes hchain⟩
  subst hkind
  exact Transaction.chainId_lt_of_check hcheck

/-- **What a request is built into is read back**, without the blobs beside it, unless it is a legacy
transaction for a chain beyond the bound: such a one breaks the rules of its envelope and is not written. -/
theorem built_transaction_reads_back (h : request.build = .ok tx) :
    (tx.validate = .ok () ↔
      ¬ (tx.kind = .legacy ∧ ∃ chainId, request.chainId = some chainId ∧ maxChainId ≤ chainId.toNat)) ∧
    (tx.validate = .ok () → ∃ bytes, tx.toBytes = .ok bytes ∧
      (bytes.length < 2 ^ 64 → Transaction.ofBytes bytes = .ok tx.withoutSidecars)) := by
  have hnone := signature_of_build h
  refine ⟨?_, fun hv => ?_⟩
  · rw [validate_of_build h]
    simp only [not_and, not_exists, Nat.not_le]
  · obtain ⟨bytes, hbytes⟩ := Transaction.signingPayload_isOk_iff.mpr hv
    have hwritten : tx.toBytes = .ok bytes := by
      rw [Transaction.toBytes, hnone]
      exact hbytes
    have hu : tx.IsUnambiguous := fun _ signature hsome => by simp [hnone] at hsome
    exact ⟨bytes, hwritten, fun hlen => Transaction.ofBytes_of_toBytes hlen hu hwritten⟩

end

/-- A request with nothing in it. -/
def blank : Request where
  kind := none
  chainId := none
  nonce := none
  gasPrice := none
  maxFee := none
  maxPriorityFee := none
  gasLimit := none
  «to» := none
  value := none
  data := none
  accessList := none
  maxFeePerBlobGas := none
  blobHashes := none
  sidecars := none
  authorizations := none

/-- A request for a transaction with a blob hash. -/
theorem blob_request_reads_back :
    let request : Request := { blank with
      chainId := some 1, maxFee := some 2, maxPriorityFee := some 1, gasLimit := some 21000,
      «to» := some ⟨0x3535353535353535353535353535353535353535⟩, maxFeePerBlobGas := some 3,
      blobHashes := some [BitVec.twoPow 256 248] }
    ∃ tx bytes, request.build = .ok tx ∧ tx.toBytes = .ok bytes ∧ bytes.length < 2 ^ 64 ∧
      Transaction.ofBytes bytes = .ok tx.withoutSidecars := by
  intro request
  have h : request.build = .ok _ := rfl
  obtain ⟨bytes, hbytes, hread⟩ := (built_transaction_reads_back h).2 rfl
  have hlen : bytes.length < 2 ^ 64 := by
    rw [← Except.ok.inj hbytes]
    decide +kernel
  exact ⟨_, bytes, h, hbytes, hlen, hread hlen⟩

/-- A request for a legacy transaction on a chain at the bound is accepted, and what it is built into
breaks the rules of its envelope. -/
theorem large_chain_is_built_but_not_written :
    let request : Request :=
      { blank with chainId := some (BitVec.ofNat 256 maxChainId), gasPrice := some 1, gasLimit := some 21000 }
    ∃ tx, request.build = .ok tx ∧ tx.validate = .error .networkId ∧ tx.toBytes = .error .networkId :=
  ⟨_, rfl, rfl, rfl⟩

end Request
end EthWire
