/-
# A transaction is read from its written form only

The fields of each type are read exactly from the items that they are written as, and the rules of the
envelope are those of the writer. So the list of a transaction's fields is accepted exactly when it is
the list that the transaction is written as (`Transaction.ofItems_eq_ok_iff`), and with canonical RLP
around it the same holds of octets: the blobs beside a transaction included, no second octet string
gives the same transaction.

Key definitions: `Transaction.sidecars?`, `Transaction.withoutSidecars`, `Transaction.IsUnambiguous`,
`Transaction.networkItem`.
Key theorems: `Transaction.readFields_eq_ok_iff`, `Transaction.ofItems_eq_ok_iff`,
`Transaction.accepted_octets_are_the_written_form`.
-/
import EthWire.Proofs.Rlp.Canonical
import EthWire.Proofs.Transaction.Trailer

namespace EthWire

namespace Envelope

/-- The blobs beside the transaction. -/
def sidecars? : Envelope → Option (List Sidecar)
  | eip4844 _ _ _ _ _ _ sidecars => sidecars
  | _ => none

/-- The envelope without the blobs. -/
def withoutSidecars : Envelope → Envelope
  | eip4844 chainId fees recipient accessList maxFeePerBlobGas hashes _ =>
    eip4844 chainId fees recipient accessList maxFeePerBlobGas hashes none
  | envelope => envelope

end Envelope

namespace Transaction

open Rlp (Item)
open Rlp.Item (asBytes_eq_ok_iff asList_eq_ok_iff toWord_eq_ok_iff)

/-- The blobs beside the transaction, where there are any. -/
def sidecars? (tx : Transaction) : Option (List Sidecar) :=
  tx.envelope.sidecars?

/-- The signature of a legacy transaction is not written like a missing one. -/
def IsUnambiguous (tx : Transaction) : Prop :=
  tx.kind = .legacy → ∀ signature, tx.signature = some signature → ¬ signature.IsBlank

/-! ### The list of the fields -/

theorem toItem_eq_ok_iff {tx : Transaction} {signature : Option Signature} {items : List Item} :
    tx.toItem signature = .ok (.list items) ↔
      ∃ behind, trailer tx.envelope signature = .ok behind ∧ items = tx.fields ++ behind := by
  simp only [toItem, bind_eq_ok_iff, pure_eq_ok_iff, Item.list.injEq]
  exact exists_congr fun _ => and_congr_right fun _ => eq_comm

theorem trailer_of_ne_legacy {envelope : Envelope} (h : envelope.kind ≠ .legacy)
    (signature : Option Signature) :
    trailer envelope signature = .ok (signature.elim [] Signature.toItems) := by
  cases envelope <;> cases signature <;> first | rfl | exact absurd rfl h

theorem chainId_lt_of_check {chainId : Option Word} {gasPrice : Word} {recipient : Option Address}
    (h : (Envelope.legacy chainId gasPrice recipient).check = .ok ()) :
    ∀ c, chainId = some c → c.toNat < maxChainId := by
  rintro c rfl
  rw [Envelope.check, ite_error_eq_ok_iff] at h
  exact Nat.not_le.mp h.1

/-- A legacy transaction is the one type whose end depends on the chain id, which its rules bound. -/
theorem readFields_legacy_eq_ok_iff {items : List Item} {tx : Transaction}
    (hv : tx.validate = .ok ()) :
    readFields .legacy items = .ok tx ↔
      tx.kind = .legacy ∧ tx.toItem tx.signature = .ok (.list items) ∧ tx.IsUnambiguous := by
  simp only [toItem_eq_ok_iff]
  refine ⟨fun h => ?_, fun h => ?_⟩
  · unfold readFields at h
    split at h
    · simp only [bind_eq_ok_iff, toWord_eq_ok_iff, recipientOfItem_eq_ok_iff, asBytes_eq_ok_iff,
        pure_eq_ok_iff, Prod.exists] at h
      obtain ⟨_, rfl, _, rfl, _, rfl, _, rfl, _, rfl, _, rfl, _, _, htrailer, rfl⟩ := h
      rw [legacyTrailer_eq_ok_iff (chainId_lt_of_check hv)] at htrailer
      exact ⟨rfl, ⟨_, htrailer.1, rfl⟩, fun _ => htrailer.2⟩
    -- the other readers are for other types
    all_goals simp_all
  · obtain ⟨hkind, ⟨behind, hbehind, rfl⟩, hu⟩ := h
    obtain ⟨envelope, nonce, gasLimit, value, data, signature⟩ := tx
    cases envelope with
    | legacy chainId gasPrice recipient =>
      have htrailer := (legacyTrailer_eq_ok_iff (chainId_lt_of_check hv)).mpr ⟨hbehind, hu rfl⟩
      simp only [fields, List.cons_append, List.nil_append, readFields, bind_eq_ok_iff,
        toWord_eq_ok_iff, recipientOfItem_eq_ok_iff, asBytes_eq_ok_iff, pure_eq_ok_iff, Prod.exists]
      exact ⟨_, rfl, _, rfl, _, rfl, _, rfl, _, rfl, _, rfl, _, _, htrailer, rfl⟩
    | _ => simp [kind, Envelope.kind] at hkind

theorem readFields_typed_eq_ok_iff {kind : TxKind} (hkind : kind ≠ .legacy) {items : List Item}
    {tx : Transaction} :
    readFields kind items = .ok tx ↔
      tx.kind = kind ∧ tx.sidecars? = none ∧
        items = tx.fields ++ tx.signature.elim [] Signature.toItems := by
  refine ⟨fun h => ?_, fun h => ?_⟩
  · unfold readFields at h
    split at h
    · exact absurd rfl hkind
    -- each step of a reader says which item stands in its place, so the list is what is written
    any_goals simp only [bind_eq_ok_iff, toWord_eq_ok_iff, recipientOfItem_eq_ok_iff,
      Address.ofItem_eq_ok_iff, asBytes_eq_ok_iff, AccessEntry.listOfItem_eq_ok_iff,
      Word.listOfItem_eq_ok_iff, SignedAuthorization.listOfItem_eq_ok_iff,
      Signature.ofItems_eq_ok_iff, pure_eq_ok_iff] at h
    · obtain ⟨_, rfl, _, rfl, _, rfl, _, rfl, _, rfl, _, rfl, _, rfl, _, rfl, _, rfl, rfl⟩ := h
      exact ⟨rfl, rfl, rfl⟩
    · obtain ⟨_, rfl, _, rfl, _, rfl, _, rfl, _, rfl, _, rfl, _, rfl, _, rfl, _, rfl, _, rfl, rfl⟩ := h
      exact ⟨rfl, rfl, rfl⟩
    · obtain ⟨_, rfl, _, rfl, _, rfl, _, rfl, _, rfl, _, rfl, _, rfl, _, rfl, _, rfl, _, rfl, _, rfl,
        _, rfl, rfl⟩ := h
      exact ⟨rfl, rfl, rfl⟩
    · obtain ⟨_, rfl, _, rfl, _, rfl, _, rfl, _, rfl, _, rfl, _, rfl, _, rfl, _, rfl, _, rfl, _, rfl,
        rfl⟩ := h
      exact ⟨rfl, rfl, rfl⟩
    · simp at h
  · obtain ⟨rfl, hs, rfl⟩ := h
    obtain ⟨envelope, nonce, gasLimit, value, data, signature⟩ := tx
    cases envelope
    case legacy => exact absurd rfl hkind
    all_goals simp only [fields, List.cons_append, List.nil_append, Transaction.kind, Envelope.kind,
      readFields, bind_eq_ok_iff, toWord_eq_ok_iff, recipientOfItem_eq_ok_iff,
      Address.ofItem_eq_ok_iff, asBytes_eq_ok_iff, AccessEntry.listOfItem_eq_ok_iff,
      Word.listOfItem_eq_ok_iff, SignedAuthorization.listOfItem_eq_ok_iff,
      Signature.ofItems_eq_ok_iff, pure_eq_ok_iff]
    case eip2930 =>
      exact ⟨_, rfl, _, rfl, _, rfl, _, rfl, _, rfl, _, rfl, _, rfl, _, rfl, _, rfl, rfl⟩
    case eip1559 =>
      exact ⟨_, rfl, _, rfl, _, rfl, _, rfl, _, rfl, _, rfl, _, rfl, _, rfl, _, rfl, _, rfl, rfl⟩
    case eip4844 sidecars =>
      obtain rfl : sidecars = none := hs
      exact ⟨_, rfl, _, rfl, _, rfl, _, rfl, _, rfl, _, rfl, _, rfl, _, rfl, _, rfl, _, rfl, _, rfl,
        _, rfl, rfl⟩
    case eip7702 =>
      exact ⟨_, rfl, _, rfl, _, rfl, _, rfl, _, rfl, _, rfl, _, rfl, _, rfl, _, rfl, _, rfl, _, rfl,
        rfl⟩

theorem sidecars?_eq_none {tx : Transaction} (h : tx.kind ≠ .eip4844) : tx.sidecars? = none := by
  obtain ⟨envelope, nonce, gasLimit, value, data, signature⟩ := tx
  cases envelope <;> first | rfl | exact absurd rfl h

/-- The fields of a type are read exactly from the items that they are written as. -/
theorem readFields_eq_ok_iff {kind : TxKind} {items : List Item} {tx : Transaction}
    (hv : tx.validate = .ok ()) :
    readFields kind items = .ok tx ↔
      tx.kind = kind ∧ tx.sidecars? = none ∧ tx.toItem tx.signature = .ok (.list items) ∧
        tx.IsUnambiguous := by
  by_cases hkind : kind = .legacy
  · subst hkind
    rw [readFields_legacy_eq_ok_iff hv]
    refine and_congr_right fun htx => ?_
    have hnone : tx.sidecars? = none := sidecars?_eq_none (by simp [htx])
    simp [hnone]
  · rw [readFields_typed_eq_ok_iff hkind]
    refine and_congr_right fun htx => and_congr_right fun _ => ?_
    subst htx
    simp [toItem_eq_ok_iff, trailer_of_ne_legacy hkind, IsUnambiguous, hkind]

/-! ### As many fields as the type has -/

theorem length_fields (tx : Transaction) : tx.fields.length = tx.kind.fieldCount := by
  obtain ⟨envelope, nonce, gasLimit, value, data, signature⟩ := tx
  cases envelope <;> rfl

theorem eq_nil_or_strings_of_trailer {envelope : Envelope} {signature : Option Signature}
    {behind : List Item} (h : trailer envelope signature = .ok behind) :
    behind = [] ∨ ∃ v r s, behind = [.bytes v, .bytes r, .bytes s] := by
  unfold trailer at h
  split at h
  · rw [bind_eq_ok_iff] at h
    obtain ⟨v, -, h⟩ := h
    rw [pure_eq_ok_iff] at h
    exact .inr ⟨_, _, _, h.symm⟩
  · exact .inr ⟨_, _, _, (Except.ok.inj h).symm⟩
  · exact .inl (Except.ok.inj h).symm
  · exact .inr ⟨_, _, _, (Except.ok.inj h).symm⟩
  · exact .inl (Except.ok.inj h).symm

theorem fieldCounts_contains_of_toItem {tx : Transaction} {signature : Option Signature}
    {items : List Item} (h : tx.toItem signature = .ok (.list items)) :
    (fieldCounts tx.kind).contains items.length := by
  obtain ⟨behind, hbehind, rfl⟩ := toItem_eq_ok_iff.mp h
  rw [List.length_append, length_fields]
  rcases eq_nil_or_strings_of_trailer hbehind with rfl | ⟨v, r, s, rfl⟩ <;> simp [fieldCounts]

/-- The list of a transaction is read exactly where it is written and keeps the rules. -/
theorem ofItems_eq_ok_iff {kind : TxKind} {items : List Item} {tx : Transaction} :
    ofItems kind items = .ok tx ↔
      tx.validate = .ok () ∧ tx.kind = kind ∧ tx.sidecars? = none ∧
        tx.toItem tx.signature = .ok (.list items) ∧ tx.IsUnambiguous := by
  simp only [ofItems, guard_eq_ok_iff, bind_eq_ok_iff, pure_eq_ok_iff]
  refine ⟨fun h => ?_, fun h => ?_⟩
  · obtain ⟨-, _, hread, ⟨⟩, hv, rfl⟩ := h
    exact ⟨hv, (readFields_eq_ok_iff hv).mp hread⟩
  · obtain ⟨hv, h⟩ := h
    refine ⟨?_, tx, (readFields_eq_ok_iff hv).mpr h, (), hv, rfl⟩
    obtain ⟨rfl, -, hitem, -⟩ := h
    simpa using fieldCounts_contains_of_toItem hitem

/-! ### Blobs beside the transaction -/

/-- The transaction without the blobs beside it. -/
def withoutSidecars (tx : Transaction) : Transaction :=
  { tx with envelope := tx.envelope.withoutSidecars }

section

variable (tx : Transaction)

@[simp] theorem signature_withoutSidecars : tx.withoutSidecars.signature = tx.signature := rfl

@[simp] theorem kind_withoutSidecars : tx.withoutSidecars.kind = tx.kind := by
  obtain ⟨envelope, nonce, gasLimit, value, data, signature⟩ := tx
  cases envelope <;> rfl

@[simp] theorem validate_withoutSidecars : tx.withoutSidecars.validate = tx.validate := by
  obtain ⟨envelope, nonce, gasLimit, value, data, signature⟩ := tx
  cases envelope <;> rfl

@[simp] theorem sidecars?_withoutSidecars : tx.withoutSidecars.sidecars? = none := by
  obtain ⟨envelope, nonce, gasLimit, value, data, signature⟩ := tx
  cases envelope <;> rfl

/-- The blobs are not among the fields. -/
@[simp] theorem toItem_withoutSidecars (signature : Option Signature) :
    tx.withoutSidecars.toItem signature = tx.toItem signature := by
  obtain ⟨envelope, nonce, gasLimit, value, data, _⟩ := tx
  cases envelope <;> cases signature <;> rfl

end

theorem withSidecars_eq_ok {tx tx' : Transaction} {sidecars : List Sidecar}
    (hkind : tx.kind = .eip4844) (hnone : tx.sidecars? = none)
    (h : tx.withSidecars sidecars = .ok tx') :
    tx = tx'.withoutSidecars ∧ tx'.sidecars? = some sidecars := by
  obtain ⟨envelope, nonce, gasLimit, value, data, signature⟩ := tx
  cases envelope with
  | eip4844 chainId fees recipient accessList maxFeePerBlobGas hashes before =>
    obtain rfl : before = none := hnone
    rw [withSidecars, ite_ok_eq_ok_iff, Except.ok.injEq] at h
    obtain ⟨-, rfl⟩ := h
    exact ⟨rfl, rfl⟩
  | _ => simp [kind, Envelope.kind] at hkind

/-- The item behind the octet of the type, as it is sent to peers. -/
def networkItem (tx : Transaction) : Except Error Item := do
  let item ← tx.toItem tx.signature
  match tx.sidecars? with
  | none => return item
  | some sidecars => return .list (item :: Sidecar.toItems sidecars)

theorem networkItem_of_none {tx : Transaction} (h : tx.sidecars? = none) :
    tx.networkItem = tx.toItem tx.signature := by
  rw [networkItem, h]
  exact bind_pure _

theorem toBytes_eq_ok_iff {tx : Transaction} {bytes : Bytes} :
    tx.toBytes = .ok bytes ↔ tx.validate = .ok () ∧
      ∃ item, tx.toItem tx.signature = .ok item ∧
        tx.kind.typeByte?.toList ++ Rlp.encode item = bytes := by
  rw [toBytes, encode, check_bind_eq_ok_iff]
  simp only [bind_eq_ok_iff, pure_eq_ok_iff]

theorem toNetworkBytes_eq_toBytes {tx : Transaction} (h : tx.sidecars? = none) :
    tx.toNetworkBytes = tx.toBytes := by
  unfold toNetworkBytes
  split
  · rename_i henvelope
    rw [sidecars?, henvelope] at h
    simp [Envelope.sidecars?] at h
  · rfl

theorem toNetworkBytes_eq_ok_iff {tx : Transaction} {bytes : Bytes} :
    tx.toNetworkBytes = .ok bytes ↔ tx.validate = .ok () ∧
      ∃ item, tx.networkItem = .ok item ∧ tx.kind.typeByte?.toList ++ Rlp.encode item = bytes := by
  cases hs : tx.sidecars? with
  | none => rw [toNetworkBytes_eq_toBytes hs, networkItem_of_none hs, toBytes_eq_ok_iff]
  | some sidecars =>
    obtain ⟨envelope, nonce, gasLimit, value, data, signature⟩ := tx
    cases envelope with
    | eip4844 chainId fees recipient accessList maxFeePerBlobGas hashes beside =>
      obtain rfl : beside = some sidecars := hs
      rw [toNetworkBytes, check_bind_eq_ok_iff]
      simp only [networkItem, sidecars?, Envelope.sidecars?, bind_eq_ok_iff, pure_eq_ok_iff]
      refine and_congr_right fun _ => ⟨?_, ?_⟩
      · intro h
        obtain ⟨item, hitem, rfl⟩ := h
        exact ⟨_, ⟨item, hitem, rfl⟩, rfl⟩
      · intro h
        obtain ⟨_, ⟨item, hitem, rfl⟩, rfl⟩ := h
        exact ⟨item, hitem, rfl⟩
    | _ => simp [sidecars?, Envelope.sidecars?] at hs

theorem ofTypedItem_eq_ok {kind : TxKind} {item : Item} {tx : Transaction}
    (h : ofTypedItem kind item = .ok tx) :
    tx.validate = .ok () ∧ tx.kind = kind ∧ tx.networkItem = .ok item := by
  unfold ofTypedItem at h
  split at h
  · simp only [bind_eq_ok_iff, ofItems_eq_ok_iff, Sidecar.ofItems_eq_ok_iff] at h
    obtain ⟨tx', ⟨hv, hkind, hnone, hitem, -⟩, sidecars, hs, h⟩ := h
    obtain ⟨rfl, hsome⟩ := withSidecars_eq_ok hkind hnone h
    simp only [validate_withoutSidecars, kind_withoutSidecars, toItem_withoutSidecars,
      signature_withoutSidecars] at hv hkind hitem
    refine ⟨hv, hkind, ?_⟩
    rw [networkItem, hitem, hsome, hs]
    rfl
  · simp only [bind_eq_ok_iff, asList_eq_ok_iff, ofItems_eq_ok_iff] at h
    obtain ⟨items, rfl, hv, hkind, hnone, hitem, -⟩ := h
    refine ⟨hv, hkind, ?_⟩
    rw [networkItem_of_none hnone, hitem]

/-! ### Octets -/

theorem typeByte?_of_ofTypeByte {byte : UInt8} {kind : TxKind} (h : TxKind.ofTypeByte byte = .ok kind) :
    kind.typeByte? = some byte := by
  unfold TxKind.ofTypeByte at h
  split at h
  · rename_i hfind
    rw [← Except.ok.inj h]
    simpa using List.find?_some hfind
  · simp at h

theorem toNetworkBytes_of_ofBytes {bytes : Bytes} {tx : Transaction} (h : ofBytes bytes = .ok tx) :
    tx.toNetworkBytes = .ok bytes := by
  rw [toNetworkBytes_eq_ok_iff]
  unfold ofBytes at h
  split at h
  · simp at h
  · rename_i first rest
    by_cases hfirst : firstListByte ≤ first
    · rw [if_pos hfirst] at h
      simp only [bind_eq_ok_iff, asList_eq_ok_iff, ofItems_eq_ok_iff] at h
      obtain ⟨_, hdecode, items, rfl, hv, hkind, hnone, hitem, -⟩ := h
      refine ⟨hv, .list items, ?_, ?_⟩
      · rw [networkItem_of_none hnone, hitem]
      · rw [hkind, Rlp.encode_of_decode hdecode]
        rfl
    · rw [if_neg hfirst] at h
      simp only [bind_eq_ok_iff] at h
      obtain ⟨kind, hkind, item, hdecode, h⟩ := h
      obtain ⟨hv, rfl, hitem⟩ := ofTypedItem_eq_ok h
      refine ⟨hv, item, hitem, ?_⟩
      rw [typeByte?_of_ofTypeByte hkind, Rlp.encode_of_decode hdecode]
      rfl

/-- **Accepted octets are the written form** of a transaction that keeps its rules: the form for peers
if there are blobs beside it, the plain one if there are none. So no two octet strings give the same
transaction. -/
theorem accepted_octets_are_the_written_form {bytes : Bytes} {tx : Transaction}
    (h : ofBytes bytes = .ok tx) :
    tx.validate = .ok () ∧
      (tx.sidecars?.isSome → tx.toNetworkBytes = .ok bytes) ∧
      (tx.sidecars? = none → tx.toBytes = .ok bytes) ∧
      ∀ other, ofBytes other = .ok tx → other = bytes := by
  have hbytes := toNetworkBytes_of_ofBytes h
  refine ⟨(toNetworkBytes_eq_ok_iff.mp hbytes).1, fun _ => hbytes, fun hnone => ?_, fun other ho => ?_⟩
  · rw [← toNetworkBytes_eq_toBytes hnone, hbytes]
  · have hother := toNetworkBytes_of_ofBytes ho
    rw [hbytes] at hother
    exact (Except.ok.inj hother).symm

/-- An unsigned legacy transaction for the first chain. -/
theorem unsigned_transfer_is_its_written_form :
    (⟨.legacy (some 1) 20000000000 (some ⟨0x3535353535353535353535353535353535353535⟩), 9, 21000,
        1000000000000000000, [], none⟩ : Transaction).toBytes
      = .ok (0xec :: ([0x09, 0x85, 0x04, 0xa8, 0x17, 0xc8, 0x00, 0x82, 0x52, 0x08, 0x94] ++
          List.replicate 20 0x35 ++
          [0x88, 0x0d, 0xe0, 0xb6, 0xb3, 0xa7, 0x64, 0x00, 0x00, 0x80, 0x01, 0x80, 0x80])) := by
  refine (accepted_octets_are_the_written_form ?_).2.2.1 rfl
  have hdecode : Rlp.decode (0xec :: ([0x09, 0x85, 0x04, 0xa8, 0x17, 0xc8, 0x00, 0x82, 0x52, 0x08,
        0x94] ++ List.replicate 20 0x35 ++
        [0x88, 0x0d, 0xe0, 0xb6, 0xb3, 0xa7, 0x64, 0x00, 0x00, 0x80, 0x01, 0x80, 0x80]))
      = .ok (.list [.bytes [0x09], .bytes [0x04, 0xa8, 0x17, 0xc8, 0x00], .bytes [0x52, 0x08],
        .bytes (List.replicate 20 0x35), .bytes [0x0d, 0xe0, 0xb6, 0xb3, 0xa7, 0x64, 0x00, 0x00],
        .empty, .bytes [0x01], .empty, .empty]) := by cbv
  rw [ofBytes, if_pos (by decide), hdecode]
  rfl

end Transaction
end EthWire
