/-
# What a chain with fee currencies signs, and what it reads of that

A transaction with a fee currency is signed if its first field is the id of the chain or no number at all.
Nothing else is asked of the fields, and whatever they are, the signed transaction is written. Its reader
asks for more (`Chain.ofBytes_customBytes`): ten fields, with numbers for the chain id and the fees, a tip
that is not above the fee cap, and an address for the currency. So what is signed is read back exactly if
the fields have an outline and do not nest too deep
(`Chain.signed_fields_are_read_back_iff_outlined`), and a chain signs fields that it refuses to read
(`Chain.refused_after_sign`), such as a chain id with a zero in front of it or a tip above the fee cap.

Key theorems: `Chain.exists_sign_feeCurrency_iff`, `Chain.ofBytes_customBytes`,
`Chain.refused_after_sign`, `Chain.signed_fields_are_read_back_iff_outlined`.
-/
import EthWire.Curve.Ecdsa
import EthWire.Proofs.Chain.Written

namespace EthWire

open Rlp (Item)

/-! ### What is written is not much longer than its fields -/

namespace ChainTransaction

theorem length_customBytes_le (typeByte : UInt8) (fields : List Item) (signature : Option Signature) :
    (customBytes typeByte fields signature).length ≤ (Rlp.encodeAll fields).length + 109 := by
  have hencode := Rlp.length_encode_le (.list (fields ++ signature.elim [] Signature.toItems))
  have hsignature := Signature.length_encodeAll_le signature
  rw [Item.payload, Rlp.encodeAll_append, List.length_append] at hencode
  rw [customBytes_eq, List.length_cons]
  omega

end ChainTransaction

/-! ### The reader on what is written -/

namespace FeeCurrency

variable {fields : List Item} {signature : Option Signature}

theorem read?_customBytes (hlength : fields.length = fieldCount) (hdepth : (Item.list fields).depth ≤ 256)
    (hlen : (ChainTransaction.customBytes typeByte fields signature).length < 2 ^ 64) :
    codec.read? (ChainTransaction.customBytes typeByte fields signature)
      = some ((checkFields fields).map fun _ => .custom typeByte fields signature) := by
  have hdecode := (ChainTransaction.decode_customItems_iff hlen).mpr ⟨rfl, hdepth⟩
  have hread : ChainTransaction.readList name [fieldCount, fieldCount + 3]
        (Rlp.encode (.list (fields ++ signature.elim [] Signature.toItems)))
      = .ok (fields ++ signature.elim [] Signature.toItems) :=
    ChainTransaction.readList_eq_ok_iff.mpr ⟨hdecode, length_append_signature hlength signature⟩
  rw [codec, ChainTransaction.customBytes_eq]
  simp only [ChainTransaction.readCustom?, if_true, Option.map_some, hread]
  exact congrArg some (ofItems_append_signature hlength)

end FeeCurrency

namespace Chain

variable {chain : Chain} {fields : List Item}

section

variable (hcodec : chain.codec = some FeeCurrency.codec)

include hcodec

/-- Of ten fields that are written, the check of the fields decides whether they are read, and then
the chain that they name. -/
theorem ofBytes_customBytes {signature : Option Signature} (hlength : fields.length = FeeCurrency.fieldCount)
    (hdepth : (Item.list fields).depth ≤ 256)
    (hlen : (ChainTransaction.customBytes FeeCurrency.typeByte fields signature).length < 2 ^ 64) :
    chain.ofBytes (ChainTransaction.customBytes FeeCurrency.typeByte fields signature)
      = (FeeCurrency.checkFields fields >>= fun _ =>
          chain.verifyCustom (.custom FeeCurrency.typeByte fields signature) >>= fun _ =>
            pure (.custom FeeCurrency.typeByte fields signature)) := by
  rw [ofBytes, hcodec, Option.bind_some, FeeCurrency.read?_customBytes hlength hdepth hlen]
  cases FeeCurrency.checkFields fields <;> rfl

theorem exists_sign_feeCurrency_iff (scheme : Scheme) (key : PrivateKey) (before : Option Signature) :
    (∃ signed, chain.sign scheme (.custom FeeCurrency.typeByte fields before) key = .ok signed) ↔
      (ChainTransaction.custom FeeCurrency.typeByte fields before).namedChain? = none ∨
      (ChainTransaction.custom FeeCurrency.typeByte fields before).namedChain? = some chain.idWord := by
  simp only [sign_custom_eq_ok_iff, ← verifyCustom_feeCurrency_iff hcodec,
    signingHash_feeCurrency hcodec]
  constructor
  · rintro ⟨signed, hfor, -⟩
    exact hfor
  · intro hfor
    exact ⟨_, hfor, _, rfl, rfl⟩

theorem toBytes_of_sign_feeCurrency {scheme : Scheme} {key : PrivateKey} {before : Option Signature}
    {signed : ChainTransaction}
    (h : chain.sign scheme (.custom FeeCurrency.typeByte fields before) key = .ok signed) :
    ∃ signature, signed = .custom FeeCurrency.typeByte fields signature ∧
      chain.toBytes signed = .ok (ChainTransaction.customBytes FeeCurrency.typeByte fields signature) := by
  obtain ⟨-, digest, -, rfl⟩ := sign_custom_eq_ok_iff.mp h
  exact ⟨_, rfl, toBytes_feeCurrency hcodec fields _⟩

/-- Ten fields that the check refuses are signed all the same, if their chain is not in the way. -/
theorem refused_after_sign (scheme : Scheme) (key : PrivateKey) {before : Option Signature} {cause : Error}
    (hnamed : (ChainTransaction.custom FeeCurrency.typeByte fields before).namedChain? = none ∨
      (ChainTransaction.custom FeeCurrency.typeByte fields before).namedChain? = some chain.idWord)
    (hlength : fields.length = FeeCurrency.fieldCount) (hdepth : (Item.list fields).depth ≤ 256)
    (hlen : (Rlp.encodeAll fields).length + 109 < 2 ^ 64)
    (hcheck : FeeCurrency.checkFields fields = .error cause) :
    ∃ signed bytes, chain.sign scheme (.custom FeeCurrency.typeByte fields before) key = .ok signed ∧
      chain.toBytes signed = .ok bytes ∧ chain.ofBytes bytes = .error cause := by
  obtain ⟨signed, hsigned⟩ := (exists_sign_feeCurrency_iff hcodec scheme key before).mpr hnamed
  obtain ⟨signature, -, hwritten⟩ := toBytes_of_sign_feeCurrency hcodec hsigned
  have hle := ChainTransaction.length_customBytes_le FeeCurrency.typeByte fields signature
  refine ⟨signed, _, hsigned, hwritten, ?_⟩
  rw [ofBytes_customBytes hcodec hlength hdepth (by omega), hcheck]
  rfl

end

/-- **What a chain with fee currencies signs is read back exactly if its fields have an outline** and do
not nest too deep. It is signed already if its first field is the id of the chain or no number. -/
theorem signed_fields_are_read_back_iff_outlined (hcodec : chain.codec = some FeeCurrency.codec)
    (scheme : Scheme) (key : PrivateKey) (fields : List Item) (before : Option Signature) :
    ((∃ signed, chain.sign scheme (.custom FeeCurrency.typeByte fields before) key = .ok signed) ↔
      (ChainTransaction.custom FeeCurrency.typeByte fields before).namedChain? = none ∨
      (ChainTransaction.custom FeeCurrency.typeByte fields before).namedChain? = some chain.idWord) ∧
    ∀ signed, chain.sign scheme (.custom FeeCurrency.typeByte fields before) key = .ok signed →
      ∃ bytes, chain.toBytes signed = .ok bytes ∧
        (bytes.length < 2 ^ 64 →
          (chain.ofBytes bytes = .ok signed ↔
            FeeCurrency.HasOutline fields ∧ (Item.list fields).depth ≤ 256)) := by
  refine ⟨exists_sign_feeCurrency_iff hcodec scheme key before, fun signed hsigned => ?_⟩
  have hnamed := (verifyCustom_feeCurrency_iff hcodec).mp (sign_custom_eq_ok_iff.mp hsigned).1
  obtain ⟨signature, rfl, hwritten⟩ := toBytes_of_sign_feeCurrency hcodec hsigned
  refine ⟨_, hwritten, fun hlen => ?_⟩
  -- the chain is named by the fields alone, so it is still the right one behind a signature
  have hfor : chain.verifyCustom (.custom FeeCurrency.typeByte fields signature) = .ok () :=
    (verifyCustom_feeCurrency_iff hcodec).mpr hnamed
  rw [ofBytes_feeCurrency_iff hcodec hlen]
  simp only [hfor, and_true]

/-- A transfer with a fee currency is signed and read back on its chain. -/
theorem outlined_transfer_is_signed_and_read :
    let chain : Chain := ⟨42220, "Celo", some FeeCurrency.codec⟩
    let key : PrivateKey := ⟨Transaction.sampleSecret, by decide, by decide⟩
    let fields := (FeeCurrency.sampleOutline (.ofWord 1)).toItems
    ∃ signed bytes, chain.sign secp256k1 (.custom FeeCurrency.typeByte fields none) key = .ok signed ∧
      chain.toBytes signed = .ok bytes ∧ chain.ofBytes bytes = .ok signed := by
  intro chain key fields
  have hcodec : chain.codec = some FeeCurrency.codec := rfl
  obtain ⟨hsign, hread⟩ := signed_fields_are_read_back_iff_outlined hcodec secp256k1 key fields none
  have hnamed := ChainTransaction.namedChain?_feeCurrency (FeeCurrency.sampleOutline (.ofWord 1)) none
  obtain ⟨signed, hsigned⟩ := hsign.mpr (.inr hnamed)
  obtain ⟨bytes, hwritten, hiff⟩ := hread signed hsigned
  have hlen : bytes.length < 2 ^ 64 := by
    obtain ⟨signature, -, hbytes⟩ := toBytes_of_sign_feeCurrency hcodec hsigned
    obtain rfl := Except.ok.inj (hwritten.symm.trans hbytes)
    have hle := ChainTransaction.length_customBytes_le FeeCurrency.typeByte fields signature
    have hfields : (Rlp.encodeAll fields).length = 54 := by decide +kernel
    omega
  exact ⟨signed, bytes, hsigned, hwritten, (hiff hlen).mpr ⟨⟨_, rfl, rfl⟩, by decide⟩⟩

/-- The transfer with a zero in front of the chain id is signed, and so is the one with a tip above its
fee cap. Neither is read. -/
theorem padded_chain_and_high_tip_are_signed_but_not_read :
    let chain : Chain := ⟨42220, "Celo", some FeeCurrency.codec⟩
    let key : PrivateKey := ⟨Transaction.sampleSecret, by decide, by decide⟩
    let padded := (FeeCurrency.sampleOutline (.ofWord 1)).toItems.set 0 (.bytes [0x00, 0xa4, 0xec])
    let high := { FeeCurrency.sampleOutline (.ofWord 1) with fees := ⟨1, 2⟩ }.toItems
    (∃ signed bytes, chain.sign secp256k1 (.custom FeeCurrency.typeByte padded none) key = .ok signed ∧
      chain.toBytes signed = .ok bytes ∧ chain.ofBytes bytes = .error .rlpLeadingZero) ∧
    (∃ signed bytes, chain.sign secp256k1 (.custom FeeCurrency.typeByte high none) key = .ok signed ∧
      chain.toBytes signed = .ok bytes ∧ chain.ofBytes bytes = .error (.feeCapTooLow 1 2)) := by
  intro chain key padded high
  have hcodec : chain.codec = some FeeCurrency.codec := rfl
  constructor
  · refine refused_after_sign hcodec _ key (.inl ?_) rfl ?_ ?_ ?_ <;> decide +kernel
  · have hnamed := ChainTransaction.namedChain?_feeCurrency
      { FeeCurrency.sampleOutline (.ofWord 1) with fees := ⟨1, 2⟩ } none
    refine refused_after_sign hcodec _ key (.inr hnamed) rfl ?_ ?_ ?_ <;> decide +kernel

end Chain
end EthWire
