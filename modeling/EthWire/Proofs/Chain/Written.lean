/-
# What a chain writes of its own types is read back

A transaction of a chain's own types is written as the octet of its type and the list of its fields, with
the signature behind them if there is one. The list is read back as it is unless it nests too deep
(`ChainTransaction.decode_customItems_iff`), so it is up to the reader of the codec what becomes of it.

The reader of deposits takes the fields of every deposit. The reader of fee currencies takes ten fields
that have an outline (`FeeCurrency.HasOutline`), with any signature behind them, and gives back what was
written exactly if the fields are such (`FeeCurrency.read?_customBytes_iff`). Those of an EIP-1559
transaction with a currency behind them are, so a deposit and a signed transaction with a fee currency are
both read back on their chains (`Chain.own_transactions_are_read_back`).

Key definitions: `FeeCurrency.HasOutline`.
Key theorems: `ChainTransaction.decode_customItems_iff`, `FeeCurrency.read?_customBytes_iff`,
`Chain.sign_custom_eq_ok_iff`, `Chain.own_transactions_are_read_back`.
-/
import EthWire.Proofs.Chain.Reading

namespace EthWire

open Rlp (Item)

/-! ### The list behind the octet -/

namespace ChainTransaction

variable {typeByte : UInt8} {fields : List Item} {signature : Option Signature}

/-- A signature does not nest, so it does not matter for the depth of a list that nests at all. -/
theorem depth_customItems_le_iff {limit : Nat} (hlimit : 1 ≤ limit) :
    (Item.list (fields ++ signature.elim [] Signature.toItems)).depth ≤ limit ↔
      (Item.list fields).depth ≤ limit := by
  have hsignature : Item.depthBelow (signature.elim [] Signature.toItems) ≤ 1 := by
    cases signature with
    | none => exact Nat.zero_le 1
    | some signature => exact Nat.le_refl 1
  rw [Item.depth, Item.depth, Item.depthBelow_append]
  omega

/-- The fields are read back with the signature behind them, and as nothing else, unless they nest
too deep. -/
theorem decode_customItems_iff {items : List Item}
    (hlen : (customBytes typeByte fields signature).length < 2 ^ 64) :
    Rlp.decode (Rlp.encode (.list (fields ++ signature.elim [] Signature.toItems))) = .ok (.list items) ↔
      fields ++ signature.elim [] Signature.toItems = items ∧ (Item.list fields).depth ≤ 256 := by
  have hpayload := Rlp.length_payload_le (.list (fields ++ signature.elim [] Signature.toItems))
  rw [customBytes_eq, List.length_cons] at hlen
  rw [Rlp.decode_encode_eq_ok_iff (by omega), Item.list.injEq, depth_customItems_le_iff (by decide)]

end ChainTransaction

/-! ### Deposits -/

namespace Deposit

theorem depth_toItems (deposit : Deposit) : (Item.list deposit.toItems).depth = 1 := by
  simp [toItems, Item.depth, Item.depthBelow, Item.ofHash]

theorem read?_toBytes {deposit : Deposit} (hlen : deposit.toBytes.length < 2 ^ 64) :
    codec.read? deposit.toBytes = some (.ok deposit.toTransaction) := by
  have hdecode := (ChainTransaction.decode_customItems_iff hlen).mpr
    ⟨rfl, by rw [depth_toItems]; decide⟩
  rw [Option.elim_none, List.append_nil] at hdecode
  exact read?_eq_ok_iff.mpr ⟨deposit, _, rfl, toBytes_eq deposit, hdecode⟩

theorem ofTransaction_toTransaction (deposit : Deposit) : ofTransaction deposit.toTransaction = .ok deposit := by
  rw [ofTransaction, toTransaction, ChainTransaction.customFields?_custom]
  exact ofItems_eq_ok_iff.mpr ⟨[], (List.append_nil _).symm⟩

end Deposit

/-! ### Fee currencies -/

namespace FeeCurrency

/-- The fields are ten of which the four that are read are as they should be. -/
def HasOutline (fields : List Item) : Prop :=
  ∃ outline : Outline, fields = outline.toItems ∧ outline.fees.check = .ok ()

variable {fields : List Item} {signature : Option Signature}

/-- What is written with a signature or none is read back as that exactly if the fields have an
outline, and do not nest too deep. -/
theorem read?_customBytes_iff
    (hlen : (ChainTransaction.customBytes typeByte fields signature).length < 2 ^ 64) :
    codec.read? (ChainTransaction.customBytes typeByte fields signature)
        = some (.ok (.custom typeByte fields signature)) ↔
      HasOutline fields ∧ (Item.list fields).depth ≤ 256 := by
  rw [read?_eq_ok_iff]
  constructor
  · rintro ⟨outline, other, rest, hfees, hbytes, hdecode, htx⟩
    rw [Outline.toTransaction, ChainTransaction.custom.injEq] at htx
    rw [ChainTransaction.customBytes_eq, List.cons.injEq] at hbytes
    rw [← hbytes.2] at hdecode
    exact ⟨⟨outline, htx.2.1, hfees⟩, ((ChainTransaction.decode_customItems_iff hlen).mp hdecode).2⟩
  · rintro ⟨⟨outline, rfl, hfees⟩, hdepth⟩
    have hdecode := (ChainTransaction.decode_customItems_iff hlen).mpr ⟨rfl, hdepth⟩
    exact ⟨outline, signature, _, hfees, ChainTransaction.customBytes_eq _ _ _, hdecode, rfl⟩

theorem exists_outline_of_fields {inner : Transaction} (hkind : inner.kind = .eip1559)
    (currency : Address) :
    ∃ outline : Outline, inner.fields ++ [currency.toItem] = outline.toItems ∧
      outline.fees.check = inner.validate ∧ inner.chainId? = some outline.chainId := by
  obtain ⟨envelope, nonce, gasLimit, value, data, signature⟩ := inner
  cases envelope with
  | eip1559 chainId fees recipient accessList =>
    exact ⟨⟨chainId, .ofWord nonce, fees, .ofWord gasLimit, Transaction.recipientToItem recipient,
      .ofWord value, .bytes data, AccessEntry.listToItem accessList, currency⟩, rfl, rfl, rfl⟩
  | _ => simp [Transaction.kind, Envelope.kind] at hkind

theorem depth_fields_le (inner : Transaction) (currency : Address) :
    (Item.list (inner.fields ++ [currency.toItem])).depth ≤ 4 := by
  rw [Item.depth, Item.depthBelow_le_iff, List.forall_mem_append, List.forall_mem_singleton,
    Address.depth_toItem]
  refine ⟨fun item hmem => ?_, by decide⟩
  exact Nat.succ_le_succ (Transaction.depth_le_of_mem_fields item hmem)

theorem currency?_custom {inner : Transaction} (hkind : inner.kind = .eip1559) (currency : Address)
    (signature : Option Signature) :
    currency? (.custom typeByte (inner.fields ++ [currency.toItem]) signature) = some currency := by
  have hlength : inner.fields.length = 9 := by
    rw [Transaction.length_fields, hkind]
    rfl
  have hlast : (inner.fields ++ [currency.toItem])[9]? = some currency.toItem := by
    rw [List.getElem?_append_right (Nat.le_of_eq hlength), hlength]
    rfl
  have hread : Address.ofItem currency.toItem = .ok currency := Address.ofItem_eq_ok_iff.mpr rfl
  rw [currency?, ChainTransaction.customFields?_custom]
  simp only [Option.bind_eq_bind, Option.bind_some, hlast, hread]
  rfl

end FeeCurrency

/-! ### On a chain -/

namespace Chain

variable {chain : Chain} {scheme : Scheme} {key : PrivateKey}

theorem sign_custom_eq_ok_iff {typeByte : UInt8} {fields : List Item} {before : Option Signature}
    {signed : ChainTransaction} :
    chain.sign scheme (.custom typeByte fields before) key = .ok signed ↔
      chain.verifyCustom (.custom typeByte fields before) = .ok () ∧
      ∃ digest, chain.signingHash (.custom typeByte fields before) = .ok digest ∧
        signed = .custom typeByte fields (some (key.signWord scheme digest)) := by
  rw [sign, check_bind_eq_ok_iff]
  simp only [bind_eq_ok_iff, pure_eq_ok_iff, eq_comm (b := signed)]

section

variable (hcodec : chain.codec = some FeeCurrency.codec)

include hcodec

theorem toBytes_feeCurrency (fields : List Item) (signature : Option Signature) :
    chain.toBytes (.custom FeeCurrency.typeByte fields signature)
      = .ok (ChainTransaction.customBytes FeeCurrency.typeByte fields signature) :=
  toBytes_of_write? hcodec (FeeCurrency.write?_custom fields signature signature)

theorem signingHash_feeCurrency (fields : List Item) (signature : Option Signature) :
    chain.signingHash (.custom FeeCurrency.typeByte fields signature)
      = .ok (keccak256 (ChainTransaction.customBytes FeeCurrency.typeByte fields none)) := by
  rw [signingHash, encode.eq_def, hcodec, Option.bind_some, FeeCurrency.write?_custom]
  rfl

theorem verifyCustom_feeCurrency_iff {fields : List Item} {signature : Option Signature} :
    chain.verifyCustom (.custom FeeCurrency.typeByte fields signature) = .ok () ↔
      (ChainTransaction.custom FeeCurrency.typeByte fields signature).namedChain? = none ∨
      (ChainTransaction.custom FeeCurrency.typeByte fields signature).namedChain? = some chain.idWord := by
  have hnamed : FeeCurrency.codec.chainId? (.custom FeeCurrency.typeByte fields signature)
      = (ChainTransaction.custom FeeCurrency.typeByte fields signature).namedChain? := by
    cases fields <;> rfl
  rw [verifyCustom_eq_ok_iff hcodec, hnamed]

/-- What is written on the chain is read back as that exactly if the fields have an outline, do not
nest too deep, and are for the chain. -/
theorem ofBytes_feeCurrency_iff {fields : List Item} {signature : Option Signature}
    (hlen : (ChainTransaction.customBytes FeeCurrency.typeByte fields signature).length < 2 ^ 64) :
    chain.ofBytes (ChainTransaction.customBytes FeeCurrency.typeByte fields signature)
        = .ok (.custom FeeCurrency.typeByte fields signature) ↔
      FeeCurrency.HasOutline fields ∧ (Item.list fields).depth ≤ 256 ∧
        chain.verifyCustom (.custom FeeCurrency.typeByte fields signature) = .ok () := by
  rw [ofBytes_eq_ok_iff, verifyCustom_eq_ok_iff hcodec, ← and_assoc,
    ← FeeCurrency.read?_customBytes_iff hlen]
  constructor
  · rintro (⟨codec, hsome, hread, hverify⟩ | ⟨-, common, hcommon, -⟩)
    · obtain rfl : FeeCurrency.codec = codec := Option.some.inj (hcodec.symm.trans hsome)
      exact ⟨hread, hverify⟩
    · simp at hcommon
  · rintro ⟨hread, hverify⟩
    exact .inl ⟨_, hcodec, hread, hverify⟩

end

/-- **A chain reads back what it writes of its own types.** A deposit is read as itself, and its hash is
that of the octets. An EIP-1559 transaction for the chain that keeps its rules can be given a fee currency
and signed with any key; what is written then is read as the same fields, currency and signature. -/
theorem own_transactions_are_read_back (chain : Chain) :
    (chain.codec = some Deposit.codec → ∀ deposit : Deposit, ∃ bytes,
      chain.toBytes deposit.toTransaction = .ok bytes ∧ deposit.hash = keccak256 bytes ∧
      Deposit.ofTransaction deposit.toTransaction = .ok deposit ∧
      (bytes.length < 2 ^ 64 → chain.ofBytes bytes = .ok deposit.toTransaction)) ∧
    (chain.codec = some FeeCurrency.codec → ∀ (scheme : Scheme) (key : PrivateKey) (inner : Transaction)
      (currency : Address), inner.kind = .eip1559 → inner.validate = .ok () →
      inner.chainId? = some chain.idWord →
      ∃ tx digest signed bytes, FeeCurrency.ofTransaction inner currency = .ok tx ∧
        chain.signingHash tx = .ok digest ∧ chain.sign scheme tx key = .ok signed ∧
        signed.customFields? FeeCurrency.typeByte = some (inner.fields ++ [currency.toItem]) ∧
        inner.fields.length = 9 ∧ FeeCurrency.currency? signed = some currency ∧
        signed.signature? = some (key.signWord scheme digest) ∧
        chain.toBytes signed = .ok bytes ∧
        (bytes.length < 2 ^ 64 → chain.ofBytes bytes = .ok signed)) := by
  constructor
  · intro hcodec deposit
    have hwritten : chain.toBytes deposit.toTransaction = .ok deposit.toBytes :=
      toBytes_of_write? hcodec (Deposit.write?_toTransaction deposit none)
    refine ⟨deposit.toBytes, hwritten, rfl, Deposit.ofTransaction_toTransaction deposit, fun hlen => ?_⟩
    exact ofBytes_eq_ok_iff.mpr (.inl ⟨_, hcodec, Deposit.read?_toBytes hlen, .inl rfl⟩)
  · intro hcodec scheme key inner currency hkind hv hchain
    obtain ⟨outline, hfields, hfees, hnamed⟩ := FeeCurrency.exists_outline_of_fields hkind currency
    have hmade : FeeCurrency.ofTransaction inner currency
        = .ok (.custom FeeCurrency.typeByte (inner.fields ++ [currency.toItem]) none) :=
      FeeCurrency.ofTransaction_eq_ok_iff.mpr ⟨hkind, hv, rfl⟩
    have hfor : ∀ signature : Option Signature,
        chain.verifyCustom (.custom FeeCurrency.typeByte (inner.fields ++ [currency.toItem]) signature)
          = .ok () := by
      intro signature
      rw [verifyCustom_feeCurrency_iff hcodec, hfields, ← hchain, hnamed]
      exact .inr (ChainTransaction.namedChain?_feeCurrency outline signature)
    have hdigest := signingHash_feeCurrency hcodec (inner.fields ++ [currency.toItem]) none
    have hsigned : chain.sign scheme
          (.custom FeeCurrency.typeByte (inner.fields ++ [currency.toItem]) none) key = .ok _ :=
      sign_custom_eq_ok_iff.mpr ⟨hfor none, _, hdigest, rfl⟩
    have hlength : inner.fields.length = 9 := by
      rw [Transaction.length_fields, hkind]
      rfl
    refine ⟨_, _, _, _, hmade, hdigest, hsigned, ChainTransaction.customFields?_custom _ _, hlength,
      FeeCurrency.currency?_custom hkind currency _, rfl, toBytes_feeCurrency hcodec _ _, fun hlen => ?_⟩
    have hdepth := FeeCurrency.depth_fields_le inner currency
    exact (ofBytes_feeCurrency_iff hcodec hlen).mpr ⟨⟨outline, hfields, hfees.trans hv⟩, by omega, hfor _⟩

/-- A deposit that creates a contract. -/
def sampleDeposit : Deposit where
  sourceHash := 0xabababababababababababababababababababababababababababababababab
  sender := ⟨0x3535353535353535353535353535353535353535⟩
  «to» := none
  mint := 1000
  value := 1000
  gas := 100000
  isSystem := false
  data := [0x60, 0x00]

/-- A transfer for the chain of the sample outline. -/
def sampleInner : Transaction :=
  ⟨.eip1559 42220 ⟨2000000000, 1000000000⟩ (some ⟨0x3535353535353535353535353535353535353535⟩) [], 1,
    21000, 0, [], none⟩

/-- A deposit, and a transfer that is given a currency and signed, on a chain of each kind. -/
theorem deposit_and_transfer_with_currency_are_read_back :
    let rollup : Chain := ⟨10, "OP Mainnet", some Deposit.codec⟩
    let chain : Chain := ⟨42220, "Celo", some FeeCurrency.codec⟩
    let currency : Address := ⟨0x765de816845861e75a25fca122bb6898b8b1282a⟩
    let key : PrivateKey := ⟨Transaction.sampleSecret, by decide, by decide⟩
    (∃ bytes, rollup.toBytes sampleDeposit.toTransaction = .ok bytes ∧
      rollup.ofBytes bytes = .ok sampleDeposit.toTransaction) ∧
    ∃ tx signed bytes, FeeCurrency.ofTransaction sampleInner currency = .ok tx ∧
      chain.sign Transaction.sampleScheme tx key = .ok signed ∧ chain.toBytes signed = .ok bytes ∧
      chain.ofBytes bytes = .ok signed := by
  intro rollup chain currency key
  constructor
  · obtain ⟨bytes, hbytes, -, -, hread⟩ := (own_transactions_are_read_back rollup).1 rfl sampleDeposit
    have hlen : bytes.length < 2 ^ 64 := by
      rw [← Except.ok.inj hbytes]
      decide +kernel
    exact ⟨bytes, hbytes, hread hlen⟩
  · obtain ⟨tx, digest, signed, bytes, hmade, hdigest, hsigned, -, -, -, -, hbytes, hread⟩ :=
      (own_transactions_are_read_back chain).2 rfl Transaction.sampleScheme key sampleInner currency rfl rfl rfl
    have hlen : bytes.length < 2 ^ 64 := by
      rw [← Except.ok.inj hmade] at hsigned
      rw [← Except.ok.inj hsigned] at hbytes
      rw [← Except.ok.inj hbytes]
      decide +kernel
    exact ⟨tx, signed, bytes, hmade, hsigned, hbytes, hread hlen⟩

end Chain
end EthWire
