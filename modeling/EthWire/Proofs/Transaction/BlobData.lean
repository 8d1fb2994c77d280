/-
# Data that travels in blobs

Data is packed into blobs, the blobs get commitments and proofs, a request carries them, and what it is
built into is signed and sent to peers. Each step hands on what the next one relies on: the commitments
are made blob by blob, so packing is undone on the blobs of the sidecars (`Sidecar.unpack_of_ofData`); the
hashes of a request agree with its sidecars (`Request.namesSidecars_of_build`), which is what the reader of
the form that is sent asks for; and signing leaves both alone (`Transaction.envelope_of_sign`). So
whoever reads what was sent has the data again (`Transaction.packed_data_arrives`).

The sidecars are not part of what is signed or hashed: without them the transaction has the same hash, the
same digest to be signed and the same sender.

Key theorems: `Sidecar.unpack_of_ofData`, `Request.firstDifference?_eq_none_iff`,
`Request.namesSidecars_of_build`, `Transaction.envelope_of_sign`, `Transaction.packed_data_arrives`.
-/
import EthWire.Blob.DigestScheme
import EthWire.Proofs.Blob.Packing
import EthWire.Proofs.Transaction.RequestFields
import EthWire.Proofs.Transaction.Signing

namespace EthWire

/-! ### Sidecars of data -/

namespace Sidecar

variable {kzg : Kzg}

theorem ofBlob_eq_ok_iff {blob : Blob} {sidecar : Sidecar} :
    ofBlob kzg blob = .ok sidecar ↔ kzg.commit blob = .ok sidecar.commitment ∧
      kzg.prove blob sidecar.commitment = .ok sidecar.proof ∧ sidecar.blob = blob := by
  obtain ⟨beside, commitment, proof⟩ := sidecar
  simp only [ofBlob, bind_eq_ok_iff, pure_eq_ok_iff, Sidecar.mk.injEq]
  constructor
  · rintro ⟨_, hcommit, _, hprove, rfl, rfl, rfl⟩
    exact ⟨hcommit, hprove, rfl⟩
  · rintro ⟨hcommit, hprove, rfl⟩
    exact ⟨_, hcommit, _, hprove, rfl, rfl, rfl⟩

theorem map_blob_of_ofBlobs : ∀ {blobs : List Blob} {sidecars : List Sidecar},
    ofBlobs kzg blobs = .ok sidecars → sidecars.map (·.blob) = blobs
  | [], sidecars, h => by
    obtain rfl : [] = sidecars := pure_eq_ok_iff.mp h
    rfl
  | blob :: blobs, sidecars, h => by
    obtain ⟨sidecar, rest, hsidecar, hrest, rfl⟩ := mapM_cons_eq_ok_iff.mp h
    rw [List.map_cons, (ofBlob_eq_ok_iff.mp hsidecar).2.2, map_blob_of_ofBlobs hrest]

theorem exists_ofBlobs {blobs : List Blob} (h : ∀ blob ∈ blobs, ∃ commitment proof,
      kzg.commit blob = .ok commitment ∧ kzg.prove blob commitment = .ok proof) :
    ∃ sidecars, ofBlobs kzg blobs = .ok sidecars := by
  refine exists_mapM_of_forall fun blob hmem => ?_
  obtain ⟨commitment, proof, hcommit, hprove⟩ := h blob hmem
  exact ⟨⟨blob, commitment, proof⟩, ofBlob_eq_ok_iff.mpr ⟨hcommit, hprove, rfl⟩⟩

/-- The blobs of the sidecars of data hold the data. -/
theorem unpack_of_ofData {data : Bytes} {sidecars : List Sidecar} (h : ofData kzg data = .ok sidecars) :
    Blob.unpack (sidecars.map (·.blob)) = .ok data := by
  obtain ⟨blobs, hpack, hblobs⟩ := bind_eq_ok_iff.mp h
  rw [map_blob_of_ofBlobs hblobs]
  exact Blob.unpack_of_pack hpack

end Sidecar

/-! ### Requests with sidecars -/

namespace Request

theorem firstDifference?_eq_none_iff {given derived : List Word} :
    firstDifference? given derived = none ↔ given = derived := by
  simp only [firstDifference?, List.find?_eq_none, List.mem_range, bne_iff_ne, ne_eq,
    Decidable.not_not]
  constructor
  · intro h
    apply List.ext_getElem?
    intro i
    by_cases hi : i < max given.length derived.length
    · exact h i hi
    · rw [List.getElem?_eq_none (by omega), List.getElem?_eq_none (by omega)]
  · rintro rfl i -
    rfl

/-- Hashes that are agreed on are those of the sidecars, if there are sidecars. -/
theorem map_versionedHash_of_agreedHashes {request : Request} {hashes : List Word}
    {sidecars : List Sidecar} (h : request.agreedHashes = .ok hashes)
    (hsidecars : request.sidecars = some sidecars) : sidecars.map Sidecar.versionedHash = hashes := by
  rw [agreedHashes, hsidecars, Option.map_some] at h
  cases hgiven : request.blobHashes with
  | none =>
    rw [hgiven] at h
    exact Except.ok.inj h
  | some given =>
    simp only [hgiven] at h
    cases hdifference : firstDifference? given (sidecars.map Sidecar.versionedHash) with
    | none =>
      rw [hdifference] at h
      rw [← firstDifference?_eq_none_iff.mp hdifference]
      exact Except.ok.inj h
    | some i =>
      rw [hdifference] at h
      simp at h

/-- What is built names the blobs beside it. -/
theorem namesSidecars_of_build {request : Request} {tx : Transaction} (h : request.build = .ok tx) :
    tx.NamesSidecars := by
  obtain ⟨kind, hashes, -, hhashes, rfl⟩ := build_eq_ok_iff.mp h
  cases kind with
  | eip4844 =>
    simp only [if_true, Request.hashes, bind_eq_ok_iff, guard_eq_ok_iff, pure_eq_ok_iff] at hhashes
    obtain ⟨agreed, hagreed, -, ⟨⟩, -, rfl⟩ := hhashes
    cases hsidecars : request.sidecars with
    | none => exact Transaction.namesSidecars_of_none hsidecars
    | some sidecars =>
      have hnamed := map_versionedHash_of_agreedHashes hagreed hsidecars
      show Envelope.NamesSidecars (request.envelope .eip4844 agreed)
      rw [envelope, hsidecars]
      exact hnamed
  | _ => exact trivial

theorem sidecars?_of_build {request : Request} {tx : Transaction} (h : request.build = .ok tx) :
    tx.sidecars? = request.sidecars := by
  obtain ⟨kind, hashes, hv, -, rfl⟩ := build_eq_ok_iff.mp h
  obtain ⟨hkind, -⟩ := validate_eq_ok_iff.mp hv
  exact sidecars?_envelope (fitsKind_of_foreignFields (inferKind_eq_ok_iff.mp hkind).2.1)

end Request

/-! ### Signed transactions with sidecars -/

namespace Transaction

variable {scheme : Scheme} {key : PrivateKey} {network : Option UInt64} {tx signed : Transaction}

theorem envelope_of_sign (hkind : tx.kind ≠ .legacy) (h : tx.sign scheme key network = .ok signed) :
    signed.envelope = tx.envelope ∧ signed.validate = .ok () := by
  obtain ⟨-, digest, hdigest, rfl⟩ := sign_eq_ok_iff.mp h
  rw [onNetwork_of_ne_legacy hkind] at hdigest ⊢
  exact ⟨rfl, signingHash_isOk_iff.mp ⟨digest, hdigest⟩⟩

theorem exists_toBytes (hkind : tx.kind ≠ .legacy) (hv : tx.validate = .ok ()) :
    (∃ bytes, tx.toBytes = .ok bytes) ∧ ∃ bytes, tx.toNetworkBytes = .ok bytes := by
  have hitem : tx.toItem tx.signature = .ok _ :=
    toItem_eq_ok_iff.mpr ⟨_, trailer_of_ne_legacy hkind tx.signature, rfl⟩
  have hnetwork : ∃ item, tx.networkItem = .ok item := by
    cases hs : tx.sidecars? with
    | none => exact ⟨_, (networkItem_of_none hs).trans hitem⟩
    | some sidecars =>
      rw [networkItem, hitem, hs]
      exact ⟨_, rfl⟩
  obtain ⟨item, hnetwork⟩ := hnetwork
  constructor
  · exact ⟨_, toBytes_eq_ok_iff.mpr ⟨hv, _, hitem, rfl⟩⟩
  · exact ⟨_, toNetworkBytes_eq_ok_iff.mpr ⟨hv, item, hnetwork, rfl⟩⟩

/-! ### The transaction without the blobs beside it -/

theorem hash_withoutSidecars (tx : Transaction) : tx.withoutSidecars.hash = tx.hash := by
  rw [hash, toBytes_withoutSidecars, hash]

theorem signingHash_withoutSidecars (tx : Transaction) :
    tx.withoutSidecars.signingHash = tx.signingHash :=
  congrArg (Except.map keccak256) (toBytes_withoutSidecars { tx with signature := none })

theorem sender_withoutSidecars (scheme : Scheme) (tx : Transaction) :
    tx.withoutSidecars.sender scheme = tx.sender scheme := by
  rw [sender, sender, signature_withoutSidecars, signingHash_withoutSidecars]

/-- **Data that is packed into blobs arrives.** With a scheme whose calls succeed there are sidecars for
the blobs. Whatever request carries them, if it is built into a transaction and that is signed, the signed
transaction is sent and read back with these sidecars, and their blobs hold the data. Without them the
transaction has the same hash, the same digest to be signed and the same sender. -/
theorem packed_data_arrives {kzg : Kzg} {data : Bytes} {blobs : List Blob}
    (hpack : Blob.pack data = .ok blobs)
    (hkzg : ∀ blob ∈ blobs, ∃ commitment proof,
      kzg.commit blob = .ok commitment ∧ kzg.prove blob commitment = .ok proof) :
    ∃ sidecars, Sidecar.ofData kzg data = .ok sidecars ∧
      ∀ (request : Request) (tx : Transaction), request.sidecars = some sidecars → request.build = .ok tx →
      ∀ (scheme : Scheme) (key : PrivateKey) (network : Option UInt64) (signed : Transaction),
        tx.sign scheme key network = .ok signed →
        (∃ bytes, signed.toNetworkBytes = .ok bytes ∧
          (bytes.length < 2 ^ 64 → ofBytes bytes = .ok signed)) ∧
        signed.sidecars? = some sidecars ∧ Blob.unpack (sidecars.map (·.blob)) = .ok data ∧
        (∃ name, signed.hash = .ok name ∧ signed.withoutSidecars.hash = .ok name) ∧
        (∃ digest, signed.signingHash = .ok digest ∧ signed.withoutSidecars.signingHash = .ok digest) ∧
        signed.withoutSidecars.sender scheme = signed.sender scheme := by
  obtain ⟨sidecars, hsidecars⟩ := Sidecar.exists_ofBlobs hkzg
  have hdata : Sidecar.ofData kzg data = .ok sidecars := bind_eq_ok_iff.mpr ⟨blobs, hpack, hsidecars⟩
  refine ⟨sidecars, hdata, ?_⟩
  intro request tx hcarried hbuild scheme key network signed hsign
  have hbuilt : tx.sidecars? = some sidecars := (Request.sidecars?_of_build hbuild).trans hcarried
  obtain ⟨henvelope, hv⟩ := envelope_of_sign (ne_legacy_of_sidecars? hbuilt) hsign
  have hbeside : signed.sidecars? = some sidecars := by
    rw [sidecars?, henvelope]
    exact hbuilt
  have hkind := ne_legacy_of_sidecars? hbeside
  have hnames : signed.NamesSidecars := by
    rw [NamesSidecars, henvelope]
    exact Request.namesSidecars_of_build hbuild
  obtain ⟨⟨written, hwritten⟩, ⟨bytes, hbytes⟩⟩ := exists_toBytes hkind hv
  obtain ⟨digest, hdigest⟩ := signingHash_isOk_iff.mpr hv
  have hname : signed.hash = .ok (keccak256 written) := by
    rw [hash, hwritten]
    rfl
  refine ⟨⟨bytes, hbytes, fun hlen => ?_⟩, hbeside, Sidecar.unpack_of_ofData hdata, ⟨_, hname, ?_⟩,
    ⟨digest, hdigest, ?_⟩, sender_withoutSidecars scheme signed⟩
  · exact ofBytes_of_toNetworkBytes hlen (fun hlegacy => absurd hlegacy hkind) hnames hbytes
  · rw [hash_withoutSidecars, hname]
  · rw [signingHash_withoutSidecars, hdigest]

end Transaction

/-! ### A short message in a blob -/

theorem Kzg.exists_of_ofDigests (blob : Blob) : ∃ commitment proof,
    Kzg.ofDigests.commit blob = .ok commitment ∧ Kzg.ofDigests.prove blob commitment = .ok proof := by
  have hwidened : ∀ message : Bytes, ∃ octets, Kzg.widened (sha256 message) = .ok octets := by
    intro message
    have hlength : (sha256 message ++ (sha256 message).take 16).length = 48 := by
      rw [List.length_append, List.length_take, length_sha256]
      rfl
    exact ⟨⟨_, hlength⟩, Sidecar.octets48_eq_ok_iff.mpr rfl⟩
  obtain ⟨commitment, hcommit⟩ := hwidened blob.bytes
  obtain ⟨proof, hprove⟩ := hwidened commitment.bytes
  exact ⟨commitment, proof, hcommit, hprove⟩

theorem Commitment.hashVersion_versionedHash (commitment : Commitment) :
    Envelope.hashVersion commitment.versionedHash = blobHashVersion := by
  have hlength : ((sha256 commitment.bytes).drop 1).length = 31 := by
    rw [List.length_drop, length_sha256]
  have hrest := Bytes.ofBigEndian_lt ((sha256 commitment.bytes).drop 1)
  rw [hlength] at hrest
  rw [Envelope.hashVersion, versionedHash, Word.ofBytes, Bytes.ofBigEndian_cons, hlength,
    BitVec.toNat_ofNat]
  have hversion : blobHashVersion.toNat = 1 := rfl
  rw [hversion, Nat.mod_eq_of_lt (by omega)]
  have hquotient : (1 * 256 ^ 31 + Bytes.ofBigEndian ((sha256 commitment.bytes).drop 1)) / 2 ^ 248 = 1 := by
    omega
  rw [hquotient]
  rfl

namespace Transaction

/-- A request that carries one blob and leaves its hash to be found. -/
def oneBlobRequest (sidecar : Sidecar) : Request :=
  { Request.blank with
    chainId := some 1, maxFee := some 2, maxPriorityFee := some 1, gasLimit := some 21000,
    «to» := some ⟨0x3535353535353535353535353535353535353535⟩, maxFeePerBlobGas := some 3,
    sidecars := some [sidecar] }

theorem build_oneBlobRequest (sidecar : Sidecar) :
    (oneBlobRequest sidecar).build = .ok (oneBlobTransaction sidecar.versionedHash sidecar) := by
  have hversions : Envelope.checkVersions [sidecar.versionedHash] = .ok () :=
    Envelope.checkVersions_singleton sidecar.commitment.hashVersion_versionedHash
  have hhashes : (oneBlobRequest sidecar).hashes = .ok [sidecar.versionedHash] := by
    simp only [Request.hashes, bind_eq_ok_iff, guard_eq_ok_iff, pure_eq_ok_iff]
    exact ⟨_, rfl, by simp, (), hversions, rfl⟩
  have hspecial : (oneBlobRequest sidecar).checkSpecial .eip4844 = .ok () := by
    simp only [Request.checkSpecial, bind_eq_ok_iff]
    exact ⟨_, rfl, _, rfl, _, hhashes, rfl⟩
  have hv : (oneBlobRequest sidecar).validate = .ok .eip4844 :=
    Request.validate_eq_ok_iff.mpr ⟨rfl, _, rfl, rfl, rfl, hspecial⟩
  exact Request.build_eq_ok_iff.mpr ⟨_, _, hv, by rw [if_pos rfl]; exact hhashes, rfl⟩

/-- The one hash is the only long field. -/
theorem length_encodeAll_fields_oneBlobTransaction (hash : Word) (sidecar : Sidecar) :
    (Rlp.encodeAll (oneBlobTransaction hash sidecar).fields).length ≤ 100 := by
  let front : List Rlp.Item := [.ofWord 1, .ofWord 0, .ofWord 1, .ofWord 2, .ofWord 21000,
    Address.toItem ⟨0x3535353535353535353535353535353535353535⟩, .ofWord 0, .bytes [],
    AccessEntry.listToItem [], .ofWord 3]
  have hfields : (oneBlobTransaction hash sidecar).fields = front ++ [Word.listToItem [hash]] := rfl
  have hlist : (Rlp.encodeAll [Word.listToItem [hash]]).length ≤ (Word.listToItem [hash]).payload.length + 9 :=
    Rlp.Item.length_payload_list_le [Word.listToItem [hash]]
  have hhash : (Word.listToItem [hash]).payload.length ≤ 1 * (32 + 9) :=
    Rlp.Item.length_payload_map_bytes_le Word.length_toBytes [hash]
  have hshort : (Rlp.encodeAll front).length = 32 := by decide +kernel
  rw [hfields, Rlp.encodeAll_append, List.length_append]
  omega

/-- Two octets are packed into a blob, put beside a transaction, signed, sent and read. -/
theorem short_message_arrives :
    let data : Bytes := [0x68, 0x69]
    let key : PrivateKey := ⟨sampleSecret, by decide, by decide⟩
    ∃ (sidecar : Sidecar) (signed : Transaction) (bytes : Bytes),
      Sidecar.ofData .ofDigests data = .ok [sidecar] ∧
      (oneBlobTransaction sidecar.versionedHash sidecar).sign sampleScheme key (some 1) = .ok signed ∧
      signed.toNetworkBytes = .ok bytes ∧ ofBytes bytes = .ok signed ∧
      signed.sidecars? = some [sidecar] ∧ Blob.unpack [sidecar.blob] = .ok data := by
  intro data key
  have hpack : Blob.pack data = .ok [Blob.ofStream (Blob.streamOf data)] := by
    refine Blob.pack_eq_ok_iff.mpr ⟨by decide, by decide, ?_⟩
    obtain ⟨b, rest, hstream⟩ := Blob.exists_cons_of_streamOf data
    have hshort : rest.length ≤ Blob.capacity - 1 := by
      have hlength : (b :: rest).length = 10 := hstream ▸ rfl
      rw [Nat.succ.inj hlength]
      decide
    rw [hstream, Bytes.blocks_of_length_le hshort, List.map_singleton]
  have hkzg : ∀ blob ∈ [Blob.ofStream (Blob.streamOf data)], ∃ commitment proof,
      Kzg.ofDigests.commit blob = .ok commitment ∧ Kzg.ofDigests.prove blob commitment = .ok proof :=
    fun blob _ => Kzg.exists_of_ofDigests blob
  obtain ⟨sidecars, hdata, harrives⟩ := packed_data_arrives hpack hkzg
  have hone : ∃ sidecar, sidecars = [sidecar] := by
    obtain ⟨blobs, hblobs, hsidecars⟩ := bind_eq_ok_iff.mp hdata
    have hmap := Sidecar.map_blob_of_ofBlobs hsidecars
    rw [← Except.ok.inj (hpack.symm.trans hblobs), List.map_eq_singleton_iff] at hmap
    obtain ⟨sidecar, hsidecar, -⟩ := hmap
    exact ⟨sidecar, hsidecar⟩
  obtain ⟨sidecar, rfl⟩ := hone
  have hbuild := build_oneBlobRequest sidecar
  have hv : (oneBlobTransaction sidecar.versionedHash sidecar).validate = .ok () :=
    (Request.validate_of_build hbuild).mpr fun hkind => by simp [kind, Envelope.kind, oneBlobTransaction] at hkind
  obtain ⟨digest, hdigest⟩ := signingHash_isOk_iff.mpr hv
  have hsign : (oneBlobTransaction sidecar.versionedHash sidecar).sign sampleScheme key (some 1) = .ok _ :=
    sign_eq_ok_iff.mpr ⟨⟨by decide, by decide, .inr rfl⟩, digest, hdigest, rfl⟩
  obtain ⟨⟨bytes, hbytes, hread⟩, hbeside, hunpack, -⟩ :=
    harrives (oneBlobRequest sidecar) _ rfl hbuild sampleScheme key (some 1) _ hsign
  have hlen : bytes.length < 2 ^ 64 := by
    have hle := length_toNetworkBytes_le hbeside hbytes
    have hfields := length_encodeAll_fields_oneBlobTransaction sidecar.versionedHash sidecar
    rw [List.length_singleton] at hle
    exact Nat.lt_of_le_of_lt (Nat.le_trans hle (Nat.add_le_add_right (Nat.add_le_add_right hfields _) _))
      (by decide)
  exact ⟨sidecar, _, bytes, hdata, hsign, hbytes, hread hlen, hbeside, hunpack⟩

end Transaction
end EthWire
