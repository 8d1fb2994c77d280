/-
# What is signed of a transaction

A signature is for the written form of the unsigned transaction, so what is signed is read back as that
transaction (`Transaction.unsigned`): everything but the signature and the blobs beside it. The octets
exist for every transaction that keeps its rules, because nothing else can go wrong without a signature.

Key definitions: `Transaction.unsigned`.
Key theorems: `Transaction.signingPayload_isOk_iff`, `Transaction.ofBytes_of_signingPayload`,
`Transaction.signingPayload_eq_iff`, `Transaction.exists_cons_of_signingPayload`.
-/
import EthWire.Proofs.Transaction.NetworkForm

namespace EthWire
namespace Transaction

/-- The transaction without its signature and the blobs beside it. -/
def unsigned (tx : Transaction) : Transaction :=
  { tx.withoutSidecars with signature := none }

theorem trailer_none_isOk (envelope : Envelope) : ∃ behind, trailer envelope none = .ok behind := by
  cases envelope with
  | legacy chainId gasPrice recipient => cases chainId <;> exact ⟨_, rfl⟩
  | _ => exact ⟨_, rfl⟩

variable {tx : Transaction} {octets : Bytes}

theorem signingPayload_eq_ok_iff :
    tx.signingPayload = .ok octets ↔ tx.validate = .ok () ∧
      ∃ item, tx.toItem none = .ok item ∧ tx.kind.typeByte?.toList ++ Rlp.encode item = octets :=
  @toBytes_eq_ok_iff { tx with signature := none } octets

theorem signingPayload_isOk_iff : (∃ octets, tx.signingPayload = .ok octets) ↔ tx.validate = .ok () := by
  obtain ⟨behind, hbehind⟩ := trailer_none_isOk tx.envelope
  have hitem : tx.toItem none = .ok (.list (tx.fields ++ behind)) :=
    toItem_eq_ok_iff.mpr ⟨behind, hbehind, rfl⟩
  simp only [signingPayload_eq_ok_iff]
  constructor
  · rintro ⟨_, hv, _⟩
    exact hv
  · intro hv
    exact ⟨_, hv, _, hitem, rfl⟩

/-- A signature is for the written form of the unsigned transaction. -/
theorem signingPayload_eq_toBytes (tx : Transaction) : tx.signingPayload = tx.unsigned.toBytes :=
  (toBytes_withoutSidecars { tx with signature := none }).symm

/-- What is signed is read as all that the signature commits to. -/
theorem ofBytes_of_signingPayload (hlen : octets.length < 2 ^ 64) (h : tx.signingPayload = .ok octets) :
    ofBytes octets = .ok tx.unsigned :=
  @ofBytes_of_toBytes { tx with signature := none } octets hlen (fun _ _ h => absurd h (by simp)) h

/-- The same is signed of two transactions exactly if they are the same but for their signatures and
the blobs beside them. -/
theorem signingPayload_eq_iff {tx' : Transaction} (hlen : octets.length < 2 ^ 64)
    (h : tx.signingPayload = .ok octets) :
    tx'.signingPayload = .ok octets ↔ tx.unsigned = tx'.unsigned := by
  constructor
  · intro h'
    have hread := ofBytes_of_signingPayload hlen h
    rw [ofBytes_of_signingPayload hlen h', Except.ok.injEq] at hread
    exact hread.symm
  · intro hsame
    rw [signingPayload_eq_toBytes, ← hsame, ← signingPayload_eq_toBytes, h]

theorem exists_cons_of_signingPayload (h : tx.signingPayload = .ok octets) :
    ∃ first rest, octets = first :: rest ∧ (first < 0x05 ∨ 0xc0 ≤ first) := by
  obtain ⟨-, item, hitem, rfl⟩ := signingPayload_eq_ok_iff.mp h
  obtain ⟨items, rfl⟩ := list_of_toItem hitem
  obtain ⟨first, rest, hcons, hfirst⟩ := Rlp.encode_list_eq_cons items
  rw [hcons]
  cases tx.kind with
  | legacy => exact ⟨_, _, rfl, .inr hfirst⟩
  | _ => exact ⟨_, _, rfl, .inl (by decide)⟩

end Transaction
end EthWire
