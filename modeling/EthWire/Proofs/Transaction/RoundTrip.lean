/-
# A written transaction is read back

What a transaction is written as decodes to that transaction without the blobs beside it, which are not
written. The items of a transaction nest three lists at most, far from the reader's limit; the first
octet tells the type; and the fields are read where they are written (`Transaction.ofItems_eq_ok_iff`).
The one thing lost is a signature of two zeros on a legacy transaction.

A length tells of fewer than 2^64 octets, and no octet string in a memory has more.

Key theorems: `Transaction.depth_le_of_toItem`, `Transaction.written_form_reads_back`.
-/
import EthWire.Proofs.Rlp.RoundTrip
import EthWire.Proofs.Transaction.Canonical

namespace EthWire

open Rlp (Item)

/-! ### Fields nest little -/

theorem Rlp.Item.depth_list_map_le {α : Type} {f : α → Item} {n : Nat} (h : ∀ a, (f a).depth ≤ n)
    (as : List α) : (Item.list (as.map f)).depth ≤ n + 1 := by
  rw [Item.depth, Item.depthBelow_le_iff, List.forall_mem_map]
  exact fun a _ => Nat.succ_le_succ (h a)

@[simp] theorem Rlp.Item.depth_ofWord (word : Word) : (Item.ofWord word).depth = 0 := rfl

@[simp] theorem Rlp.Item.depth_ofUInt64 (n : UInt64) : (Item.ofUInt64 n).depth = 0 := rfl

@[simp] theorem Rlp.Item.depth_ofBool (flag : Bool) : (Item.ofBool flag).depth = 0 := rfl

@[simp] theorem Address.depth_toItem (address : Address) : address.toItem.depth = 0 := rfl

@[simp] theorem Transaction.depth_recipientToItem (recipient : Option Address) :
    (recipientToItem recipient).depth = 0 := by
  cases recipient <;> rfl

theorem Word.depth_listToItem_le (words : List Word) : (listToItem words).depth ≤ 1 :=
  Item.depth_list_map_le (fun _ => Nat.le_refl 0) words

theorem AccessEntry.depth_listToItem_le (entries : List AccessEntry) :
    (listToItem entries).depth ≤ 3 := by
  refine Item.depth_list_map_le (fun entry => ?_) entries
  have hkeys := Word.depth_listToItem_le entry.storageKeys
  rw [toItem, Item.depth, Item.depthBelow_le_iff]
  simp
  omega

theorem SignedAuthorization.depth_listToItem_le (list : List SignedAuthorization) :
    (listToItem list).depth ≤ 2 := by
  refine Item.depth_list_map_le (fun signed => ?_) list
  rw [toItem, Item.depth, Item.depthBelow_le_iff]
  simp [Authorization.items, Signature.toItems]

namespace Transaction

theorem depth_le_of_mem_fields {tx : Transaction} : ∀ item ∈ tx.fields, item.depth ≤ 3 := by
  obtain ⟨envelope, nonce, gasLimit, value, data, signature⟩ := tx
  cases envelope with
  | legacy chainId gasPrice recipient => simp [fields, Item.depth]
  | eip2930 chainId gasPrice recipient accessList =>
    simpa [fields, Item.depth] using AccessEntry.depth_listToItem_le accessList
  | eip1559 chainId fees recipient accessList =>
    simpa [fields, Item.depth] using AccessEntry.depth_listToItem_le accessList
  | eip4844 chainId fees recipient accessList maxFeePerBlobGas hashes sidecars =>
    have hhashes := Word.depth_listToItem_le hashes
    have hlist := AccessEntry.depth_listToItem_le accessList
    simp [fields, Item.depth]
    omega
  | eip7702 chainId fees recipient accessList authorizations =>
    have hauthorizations := SignedAuthorization.depth_listToItem_le authorizations
    have hlist := AccessEntry.depth_listToItem_le accessList
    simp [fields, Item.depth]
    omega

/-- The items of a transaction nest three lists at most below the list of its fields. -/
theorem depth_le_of_toItem {tx : Transaction} {signature : Option Signature} {items : List Item}
    (h : tx.toItem signature = .ok (.list items)) : (Item.list items).depth ≤ 4 := by
  obtain ⟨behind, hbehind, rfl⟩ := toItem_eq_ok_iff.mp h
  rw [Item.depth, Item.depthBelow_le_iff, List.forall_mem_append]
  constructor
  · intro item hmem
    have := depth_le_of_mem_fields item hmem
    omega
  · rcases eq_nil_or_strings_of_trailer hbehind with rfl | ⟨v, r, s, rfl⟩ <;> simp [Item.depth]

/-! ### Octets -/

theorem list_of_toItem {tx : Transaction} {signature : Option Signature} {item : Item}
    (h : tx.toItem signature = .ok item) : ∃ items, item = .list items := by
  simp only [toItem, bind_eq_ok_iff, pure_eq_ok_iff] at h
  obtain ⟨behind, -, rfl⟩ := h
  exact ⟨_, rfl⟩

theorem ofTypeByte_of_typeByte? {kind : TxKind} {byte : UInt8} (h : kind.typeByte? = some byte) :
    TxKind.ofTypeByte byte = .ok kind ∧ byte < firstListByte := by
  cases kind <;> simp [TxKind.typeByte?] at h <;> subst h <;> exact ⟨rfl, by decide⟩

/-- The list of a transaction is not taken for one with blobs beside it, which has four items. -/
theorem ofTypedItem_of_fieldCounts {kind : TxKind} {items : List Item}
    (h : (fieldCounts kind).contains items.length) :
    ofTypedItem kind (.list items) = ofItems kind items := by
  unfold ofTypedItem
  split
  · rename_i hlist
    rw [Item.list.injEq] at hlist
    subst hlist
    simp [fieldCounts, TxKind.fieldCount] at h
  · rfl

/-- **What is written is read back**, without the blobs beside it, unless the signature is of two zeros.
The octets are as many as a length can tell, which those in a memory are. -/
theorem written_form_reads_back {tx : Transaction} {bytes : Bytes} (hlen : bytes.length < 2 ^ 64)
    (hsig : ∀ signature, tx.signature = some signature → ¬ (signature.r = 0 ∧ signature.s = 0))
    (h : tx.toBytes = .ok bytes) : ofBytes bytes = .ok tx.withoutSidecars := by
  obtain ⟨hv, item, hitem, rfl⟩ := toBytes_eq_ok_iff.mp h
  obtain ⟨items, rfl⟩ := list_of_toItem hitem
  have hdecode : Rlp.decode (Rlp.encode (.list items)) = .ok (.list items) := by
    have hpayload := Rlp.length_payload_le (.list items)
    have hdepth := depth_le_of_toItem hitem
    rw [List.length_append] at hlen
    exact Rlp.decode_encode (by omega) (by omega)
  have hread : ofItems tx.kind items = .ok tx.withoutSidecars := by
    rw [ofItems_eq_ok_iff]
    refine ⟨?_, ?_, sidecars?_withoutSidecars tx, ?_, fun _ => hsig⟩
    · rw [validate_withoutSidecars, hv]
    · rw [kind_withoutSidecars]
    · rw [signature_withoutSidecars, toItem_withoutSidecars, hitem]
  cases hbyte : tx.kind.typeByte? with
  | none =>
    obtain ⟨first, rest, hcons, hfirst⟩ := Rlp.encode_list_eq_cons items
    have hkind : tx.kind = .legacy := by
      cases hkind : tx.kind <;> simp [hkind, TxKind.typeByte?] at hbyte ⊢
    rw [Option.toList_none, List.nil_append, hcons, ofBytes,
      if_pos (show firstListByte ≤ first from hfirst), ← hcons, hdecode, ← hkind]
    exact hread
  | some byte =>
    obtain ⟨hkind, hfirst⟩ := ofTypeByte_of_typeByte? hbyte
    rw [Option.toList_some, List.singleton_append, ofBytes, if_neg (UInt8.not_le.mpr hfirst), hkind,
      hdecode]
    exact (ofTypedItem_of_fieldCounts (fieldCounts_contains_of_toItem hitem)).trans hread

/-- A signed transaction with a blob hash comes back without the empty list of blobs beside it. -/
theorem blob_transaction_reads_back :
    ofBytes ([0x03, 0xf8, 0x46, 0x01, 0x80, 0x01, 0x02, 0x82, 0x52, 0x08, 0x94] ++
        List.replicate 20 0x35 ++ [0x80, 0x81, 0x80, 0xc0, 0x03, 0xe1, 0xa0, 0x01] ++
        List.replicate 31 0x00 ++ [0x01, 0x05, 0x80])
      = .ok ⟨.eip4844 1 ⟨2, 1⟩ ⟨0x3535353535353535353535353535353535353535⟩ [] 3
          [BitVec.twoPow 256 248] none, 0, 21000, 0, [0x80], some ⟨true, 5, 0⟩⟩ :=
  @written_form_reads_back
    ⟨.eip4844 1 ⟨2, 1⟩ ⟨0x3535353535353535353535353535353535353535⟩ [] 3
      [BitVec.twoPow 256 248] (some []), 0, 21000, 0, [0x80], some ⟨true, 5, 0⟩⟩
    _ (by decide) (by simp) rfl

end Transaction
end EthWire
