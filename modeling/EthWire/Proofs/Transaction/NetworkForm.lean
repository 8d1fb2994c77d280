/-
# The form that is sent to peers is read back

The blobs beside a transaction are read from the three lists that they are written as, and the reader
asks one thing that the writer does not: that they have the hashes which the transaction names
(`Transaction.NamesSidecars`). Where they do, what is sent is what is read; where they do not, what is
sent is refused (`Transaction.sent_blobs_are_read_back_if_named`). A transaction without blobs beside it
is sent in its plain form, so that form is read back as the transaction without them.

Key definitions: `Transaction.NamesSidecars`.
Key theorems: `Transaction.ofTypedItem_of_networkItem`, `Transaction.ofBytes_of_toNetworkBytes`,
`Transaction.ofBytes_of_toBytes`, `Transaction.sent_blobs_are_read_back_if_named`.
-/
import EthWire.Proofs.Transaction.RoundTrip

namespace EthWire

open Rlp (Item)

/-- The hashes by which the transaction names blobs are those of the blobs beside it. -/
def Envelope.NamesSidecars : Envelope → Prop
  | eip4844 _ _ _ _ _ hashes (some sidecars) => sidecars.map Sidecar.versionedHash = hashes
  | _ => True

namespace Transaction

/-- The transaction names the blobs beside it, if there are any. -/
def NamesSidecars (tx : Transaction) : Prop :=
  tx.envelope.NamesSidecars

theorem namesSidecars_of_none {tx : Transaction} (h : tx.sidecars? = none) : tx.NamesSidecars := by
  obtain ⟨envelope, nonce, gasLimit, value, data, signature⟩ := tx
  cases envelope with
  | eip4844 chainId fees recipient accessList maxFeePerBlobGas hashes sidecars =>
    obtain rfl : sidecars = none := h
    exact trivial
  | _ => exact trivial

theorem withoutSidecars_eq_self {tx : Transaction} (h : tx.sidecars? = none) :
    tx.withoutSidecars = tx := by
  obtain ⟨envelope, nonce, gasLimit, value, data, signature⟩ := tx
  cases envelope with
  | eip4844 chainId fees recipient accessList maxFeePerBlobGas hashes sidecars =>
    obtain rfl : sidecars = none := h
    rfl
  | _ => rfl

section

variable {tx : Transaction} {sidecars : List Sidecar}

theorem kind_of_sidecars? (hs : tx.sidecars? = some sidecars) : tx.kind = .eip4844 := by
  by_contra hkind
  rw [sidecars?_eq_none hkind] at hs
  simp at hs

theorem ne_legacy_of_sidecars? (hs : tx.sidecars? = some sidecars) : tx.kind ≠ .legacy := by
  rw [kind_of_sidecars? hs]
  decide

theorem withSidecars_withoutSidecars (hs : tx.sidecars? = some sidecars) :
    (tx.NamesSidecars → tx.withoutSidecars.withSidecars sidecars = .ok tx) ∧
      (¬ tx.NamesSidecars → tx.withoutSidecars.withSidecars sidecars = .error .rlpShape) := by
  obtain ⟨envelope, nonce, gasLimit, value, data, signature⟩ := tx
  cases envelope with
  | eip4844 chainId fees recipient accessList maxFeePerBlobGas hashes beside =>
    obtain rfl : beside = some sidecars := hs
    constructor
    · intro hn
      exact if_pos hn
    · intro hn
      exact if_neg hn
  | _ => simp [sidecars?, Envelope.sidecars?] at hs

end

theorem isUnambiguous_withoutSidecars {tx : Transaction} (h : tx.IsUnambiguous) :
    tx.withoutSidecars.IsUnambiguous := fun hkind =>
  h (by rwa [kind_withoutSidecars] at hkind)

/-! ### Items -/

theorem ofItems_of_toItem {tx : Transaction} {items : List Item} (hv : tx.validate = .ok ())
    (hu : tx.IsUnambiguous) (h : tx.toItem tx.signature = .ok (.list items)) :
    ofItems tx.kind items = .ok tx.withoutSidecars := by
  rw [ofItems_eq_ok_iff]
  refine ⟨?_, kind_withoutSidecars tx, sidecars?_withoutSidecars tx, ?_, isUnambiguous_withoutSidecars hu⟩
  · rw [validate_withoutSidecars, hv]
  · rw [signature_withoutSidecars, toItem_withoutSidecars, h]

/-- What is sent is the list of the transaction, in front of the three lists if there are blobs. -/
theorem networkItem_cases {tx : Transaction} {item : Item} (h : tx.networkItem = .ok item) :
    ∃ items, tx.toItem tx.signature = .ok (.list items) ∧
      ((tx.sidecars? = none ∧ item = .list items) ∨
        ∃ sidecars, tx.sidecars? = some sidecars ∧ item = .list (.list items :: Sidecar.toItems sidecars)) := by
  simp only [networkItem, bind_eq_ok_iff] at h
  obtain ⟨first, hfirst, h⟩ := h
  obtain ⟨items, rfl⟩ := list_of_toItem hfirst
  refine ⟨items, hfirst, ?_⟩
  split at h
  · rename_i hnone
    rw [pure_eq_ok_iff] at h
    exact .inl ⟨hnone, h.symm⟩
  · rename_i sidecars hsome
    rw [pure_eq_ok_iff] at h
    exact .inr ⟨sidecars, hsome, h.symm⟩

/-- The reader takes the item that is sent apart again, and puts the blobs beside the transaction. -/
theorem ofTypedItem_of_networkItem_beside {tx : Transaction} {item : Item} {sidecars : List Sidecar}
    (hv : tx.validate = .ok ()) (hs : tx.sidecars? = some sidecars) (h : tx.networkItem = .ok item) :
    ofTypedItem tx.kind item = tx.withoutSidecars.withSidecars sidecars := by
  have hkind := kind_of_sidecars? hs
  have hu : tx.IsUnambiguous := fun hlegacy => by simp [hkind] at hlegacy
  obtain ⟨items, hitem, ⟨hnone, -⟩ | ⟨beside, hbeside, rfl⟩⟩ := networkItem_cases h
  · rw [hs] at hnone
    simp at hnone
  · obtain rfl : sidecars = beside := Option.some.inj (hs.symm.trans hbeside)
    have hread := ofItems_of_toItem hv hu hitem
    have hlists := Sidecar.ofItems_eq_ok_iff.mpr (rfl : Sidecar.toItems sidecars = _)
    rw [hkind] at hread ⊢
    simp only [Sidecar.toItems, ofTypedItem, hread, hlists]
    rfl

/-- The item that is sent is read back behind the octet of its type. -/
theorem ofTypedItem_of_networkItem {tx : Transaction} {item : Item} (hv : tx.validate = .ok ())
    (hu : tx.IsUnambiguous) (hn : tx.NamesSidecars) (h : tx.networkItem = .ok item) :
    ofTypedItem tx.kind item = .ok tx := by
  obtain ⟨items, hitem, ⟨hs, rfl⟩ | ⟨sidecars, hs, -⟩⟩ := networkItem_cases h
  · rw [ofTypedItem_of_fieldCounts (fieldCounts_contains_of_toItem hitem), ofItems_of_toItem hv hu hitem,
      withoutSidecars_eq_self hs]
  · rw [ofTypedItem_of_networkItem_beside hv hs h]
    exact (withSidecars_withoutSidecars hs).1 hn

theorem list_of_networkItem {tx : Transaction} {item : Item} (h : tx.networkItem = .ok item) :
    ∃ items, item = .list items := by
  obtain ⟨items, -, ⟨-, rfl⟩ | ⟨sidecars, -, rfl⟩⟩ := networkItem_cases h
  · exact ⟨_, rfl⟩
  · exact ⟨_, rfl⟩

theorem depth_le_of_mem_sidecarItems {sidecars : List Sidecar} {item : Item}
    (h : item ∈ Sidecar.toItems sidecars) : item.depth ≤ 1 := by
  have hstrings : ∀ f : Sidecar → Bytes, (Item.list (sidecars.map fun s => .bytes (f s))).depth ≤ 1 :=
    fun f => Item.depth_list_map_le (fun _ => Nat.le_refl 0) sidecars
  simp only [Sidecar.toItems, List.mem_cons, List.not_mem_nil, or_false] at h
  rcases h with rfl | rfl | rfl <;> exact hstrings _

theorem depth_le_of_networkItem {tx : Transaction} {item : Item} (h : tx.networkItem = .ok item) :
    item.depth ≤ 5 := by
  obtain ⟨items, hitem, ⟨-, rfl⟩ | ⟨sidecars, -, rfl⟩⟩ := networkItem_cases h
  · have hdepth := depth_le_of_toItem hitem
    omega
  · have hdepth := depth_le_of_toItem hitem
    rw [Item.depth, Item.depthBelow_le_iff, List.forall_mem_cons]
    refine ⟨by omega, fun item hmem => ?_⟩
    have hstrings := depth_le_of_mem_sidecarItems hmem
    omega

/-! ### Octets -/

theorem ofBytes_typeByte_append {kind : TxKind} {items : List Item}
    (hdecode : Rlp.decode (Rlp.encode (.list items)) = .ok (.list items)) :
    ofBytes (kind.typeByte?.toList ++ Rlp.encode (.list items)) = ofTypedItem kind (.list items) := by
  cases hbyte : kind.typeByte? with
  | none =>
    have hkind : kind = .legacy := by
      cases kind <;> simp [TxKind.typeByte?] at hbyte ⊢
    obtain ⟨first, rest, hcons, hfirst⟩ := Rlp.encode_list_eq_cons items
    rw [Option.toList_none, List.nil_append, hcons, ofBytes,
      if_pos (show firstListByte ≤ first from hfirst), ← hcons, hdecode, hkind]
    rfl
  | some byte =>
    obtain ⟨hkind, hfirst⟩ := ofTypeByte_of_typeByte? hbyte
    rw [Option.toList_some, List.singleton_append, ofBytes, if_neg (UInt8.not_le.mpr hfirst), hkind,
      hdecode]
    rfl

section

variable {tx : Transaction} {bytes : Bytes}

theorem ofBytes_eq_ofTypedItem (hlen : bytes.length < 2 ^ 64) (h : tx.toNetworkBytes = .ok bytes) :
    ∃ item, tx.networkItem = .ok item ∧ ofBytes bytes = ofTypedItem tx.kind item := by
  obtain ⟨-, item, hitem, rfl⟩ := toNetworkBytes_eq_ok_iff.mp h
  obtain ⟨items, rfl⟩ := list_of_networkItem hitem
  have hdepth := depth_le_of_networkItem hitem
  have hpayload := Rlp.length_payload_le (.list items)
  rw [List.length_append] at hlen
  exact ⟨_, hitem, ofBytes_typeByte_append (Rlp.decode_encode (by omega) (by omega))⟩

/-- What is sent to peers is read back, the blobs beside it included. -/
theorem ofBytes_of_toNetworkBytes (hlen : bytes.length < 2 ^ 64) (hu : tx.IsUnambiguous)
    (hn : tx.NamesSidecars) (h : tx.toNetworkBytes = .ok bytes) : ofBytes bytes = .ok tx := by
  have hv := (toNetworkBytes_eq_ok_iff.mp h).1
  obtain ⟨item, hitem, hread⟩ := ofBytes_eq_ofTypedItem hlen h
  rw [hread, ofTypedItem_of_networkItem hv hu hn hitem]

theorem toBytes_withoutSidecars (tx : Transaction) : tx.withoutSidecars.toBytes = tx.toBytes := by
  simp only [toBytes, encode, validate_withoutSidecars, toItem_withoutSidecars,
    signature_withoutSidecars, kind_withoutSidecars]

theorem ofBytes_of_toBytes (hlen : bytes.length < 2 ^ 64) (hu : tx.IsUnambiguous)
    (h : tx.toBytes = .ok bytes) : ofBytes bytes = .ok tx.withoutSidecars := by
  have hnone := sidecars?_withoutSidecars tx
  refine ofBytes_of_toNetworkBytes hlen (isUnambiguous_withoutSidecars hu) (namesSidecars_of_none hnone) ?_
  rw [toNetworkBytes_eq_toBytes hnone, toBytes_withoutSidecars, h]

/-- **Blobs that are sent are read back if the transaction names them**, and refused if it does not. The
writer asks for the rules of the envelope only, so both cases arise. -/
theorem sent_blobs_are_read_back_if_named {sidecars : List Sidecar} (hlen : bytes.length < 2 ^ 64)
    (hs : tx.sidecars? = some sidecars) (h : tx.toNetworkBytes = .ok bytes) :
    (tx.NamesSidecars → ofBytes bytes = .ok tx) ∧
      (¬ tx.NamesSidecars → ofBytes bytes = .error .rlpShape) := by
  have hv := (toNetworkBytes_eq_ok_iff.mp h).1
  obtain ⟨item, hitem, hread⟩ := ofBytes_eq_ofTypedItem hlen h
  rw [hread, ofTypedItem_of_networkItem_beside hv hs hitem]
  exact withSidecars_withoutSidecars hs

end

end Transaction

theorem Envelope.checkVersions_singleton {hash : Word} (h : hashVersion hash = blobHashVersion) :
    checkVersions [hash] = .ok () := by
  show ((if _ then _ else _) >>= fun _ => _) = _
  rw [if_pos h]
  rfl

/-! ### Lengths -/

theorem Signature.length_encodeAll_le (signature : Option Signature) :
    (Rlp.encodeAll (signature.elim [] Signature.toItems)).length ≤ 99 := by
  cases signature with
  | none => exact Nat.zero_le 99
  | some signature =>
    have hitems := Item.length_payload_list_le signature.toItems
    have hparity : (Item.ofBool signature.yParity).payload.length ≤ 8 := Bytes.length_significant_le _
    have hr : (Item.ofWord signature.r).payload.length ≤ 32 := Bytes.length_significant_le _
    have hs : (Item.ofWord signature.s).payload.length ≤ 32 := Bytes.length_significant_le _
    simp only [Signature.toItems, List.map_cons, List.map_nil, List.sum_cons, List.sum_nil] at hitems
    exact Nat.le_trans hitems (by omega)

theorem Rlp.Item.length_payload_map_bytes_le {α : Type} {f : α → Bytes} {size : Nat}
    (h : ∀ a, (f a).length = size) (as : List α) :
    (Item.list (as.map fun a => .bytes (f a))).payload.length ≤ as.length * (size + 9) := by
  have hstrings := Item.length_payload_list_le (as.map fun a => .bytes (f a))
  simpa [Item.payload, Function.comp_def, h] using hstrings

namespace Transaction

/-- What is sent is as long as the fields and the blobs are, up to a signature and headers. -/
theorem length_toNetworkBytes_le {tx : Transaction} {bytes : Bytes} {sidecars : List Sidecar}
    (hs : tx.sidecars? = some sidecars) (h : tx.toNetworkBytes = .ok bytes) :
    bytes.length ≤ (Rlp.encodeAll tx.fields).length + sidecars.length * 131195 + 145 := by
  have hlegacy : tx.envelope.kind ≠ .legacy := ne_legacy_of_sidecars? hs
  obtain ⟨-, item, hitem, rfl⟩ := toNetworkBytes_eq_ok_iff.mp h
  obtain ⟨items, hfirst, ⟨hnone, -⟩ | ⟨beside, hbeside, rfl⟩⟩ := networkItem_cases hitem
  · rw [hs] at hnone
    simp at hnone
  · obtain rfl : sidecars = beside := Option.some.inj (hs.symm.trans hbeside)
    obtain ⟨behind, hbehind, hitems⟩ := toItem_eq_ok_iff.mp hfirst
    rw [trailer_of_ne_legacy hlegacy, Except.ok.injEq] at hbehind
    have hsignature := Signature.length_encodeAll_le tx.signature
    have hfields : (Item.list items).payload.length ≤ (Rlp.encodeAll tx.fields).length + 99 := by
      rw [hitems, Item.payload, Rlp.encodeAll_append, List.length_append, ← hbehind]
      omega
    have hblobs := Item.length_payload_map_bytes_le (fun s : Sidecar => s.blob.length_eq) sidecars
    have hcommitments := Item.length_payload_map_bytes_le
      (fun s : Sidecar => s.commitment.length_eq) sidecars
    have hproofs := Item.length_payload_map_bytes_le (fun s : Sidecar => s.proof.length_eq) sidecars
    have hlists := Item.length_payload_list_le (.list items :: Sidecar.toItems sidecars)
    have hencode := Rlp.length_encode_le (.list (.list items :: Sidecar.toItems sidecars))
    have hoctet : tx.kind.typeByte?.toList.length ≤ 1 := by
      cases tx.kind <;> decide
    simp only [Sidecar.toItems, List.map_cons, List.map_nil, List.sum_cons, List.sum_nil] at hlists
    rw [List.length_append]
    simp only [Sidecar.toItems] at hencode ⊢
    omega

/-- A transaction that names one hash and carries one blob. -/
def oneBlobTransaction (hash : Word) (sidecar : Sidecar) : Transaction where
  envelope := .eip4844 1 ⟨2, 1⟩ ⟨0x3535353535353535353535353535353535353535⟩ [] 3 [hash] (some [sidecar])
  nonce := 0
  gasLimit := 21000
  value := 0
  data := []
  signature := none

theorem toNetworkBytes_oneBlobTransaction (hash : Word) (sidecar : Sidecar)
    (h : Envelope.hashVersion hash = blobHashVersion)
    (hsize : (Item.list ((oneBlobTransaction hash sidecar).fields ++ [])).payload.length < 256) :
    ∃ bytes, (oneBlobTransaction hash sidecar).toNetworkBytes = .ok bytes ∧ bytes.length < 2 ^ 64 := by
  have hv : (oneBlobTransaction hash sidecar).validate = .ok () := by
    have hfees : FeeCaps.check ⟨2, 1⟩ = .ok () := rfl
    rw [validate, oneBlobTransaction, Envelope.check, hfees, Envelope.checkVersions_singleton h]
    rfl
  have hitem : (oneBlobTransaction hash sidecar).networkItem = .ok (.list
      [.list ((oneBlobTransaction hash sidecar).fields ++ []), .list [.bytes sidecar.blob.bytes],
        .list [.bytes sidecar.commitment.bytes], .list [.bytes sidecar.proof.bytes]]) := rfl
  have hbytes : (oneBlobTransaction hash sidecar).toNetworkBytes = .ok _ :=
    toNetworkBytes_eq_ok_iff.mpr ⟨hv, _, hitem, rfl⟩
  refine ⟨_, hbytes, ?_⟩
  -- the blob is long, but a length can tell of much longer strings
  have hle := length_toNetworkBytes_le rfl hbytes
  rw [List.append_nil, Item.payload] at hsize
  rw [List.length_singleton] at hle
  omega

/-- A blob of zeros, with the digest of its commitment for a proof. -/
def zeroSidecar : Sidecar where
  blob := ⟨List.replicate 131072 0, List.length_replicate⟩
  commitment :=
    let digest : Word := 0xfa43239bcee7b97ca62f007cc68487560a39e19f74f3dde7486db3f98df8e471
    ⟨digest.toBytes ++ digest.toBytes.take 16, by decide⟩
  proof :=
    let digest : Word := 0x0082eea9de3a939388ca528dd406fd04c0fd8657f3dab3a0e3603a42b0dc8433
    ⟨digest.toBytes ++ digest.toBytes.take 16, by decide⟩

/-- The hash of that blob's commitment. -/
def zeroSidecarHash : Word :=
  0x0182eea9de3a939388ca528dd406fd04c0fd8657f3dab3a0e3603a42b0dc8433

theorem versionedHash_zeroSidecar : zeroSidecar.versionedHash = zeroSidecarHash := by
  decide +kernel

/-- A blob beside a transaction that names it. -/
theorem named_blob_is_read_back :
    let tx := oneBlobTransaction zeroSidecarHash zeroSidecar
    ∃ bytes, bytes.length < 2 ^ 64 ∧ tx.sidecars? = some [zeroSidecar] ∧
      tx.toNetworkBytes = .ok bytes ∧ ofBytes bytes = .ok tx := by
  intro tx
  obtain ⟨bytes, hbytes, hlen⟩ :=
    toNetworkBytes_oneBlobTransaction zeroSidecarHash zeroSidecar (by decide) (by decide)
  have hn : tx.NamesSidecars := congrArg (fun hash => [hash]) versionedHash_zeroSidecar
  exact ⟨bytes, hlen, rfl, hbytes, (sent_blobs_are_read_back_if_named hlen rfl hbytes).1 hn⟩

/-- A blob beside a transaction that names another one: the writer sends it, and the reader refuses it. -/
theorem unnamed_blob_is_sent_but_not_read :
    ∃ bytes, (oneBlobTransaction (BitVec.twoPow 256 248) zeroSidecar).toNetworkBytes = .ok bytes ∧
      ofBytes bytes = .error .rlpShape := by
  obtain ⟨bytes, hbytes, hlen⟩ :=
    toNetworkBytes_oneBlobTransaction (BitVec.twoPow 256 248) zeroSidecar (by decide) (by decide)
  have hv := (toNetworkBytes_eq_ok_iff.mp hbytes).1
  obtain ⟨item, hitem, hread⟩ := ofBytes_eq_ofTypedItem hlen hbytes
  have hunnamed : ¬ (oneBlobTransaction (BitVec.twoPow 256 248) zeroSidecar).NamesSidecars := by
    intro hn
    have hhash : [zeroSidecar.versionedHash] = [BitVec.twoPow 256 248] := hn
    rw [versionedHash_zeroSidecar] at hhash
    exact absurd hhash (by decide)
  refine ⟨bytes, hbytes, ?_⟩
  rw [hread, ofTypedItem_of_networkItem_beside hv rfl hitem]
  exact (withSidecars_withoutSidecars rfl).2 hunnamed

end Transaction
end EthWire
