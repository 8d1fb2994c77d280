/-
# What is read of a transaction with a fee currency

Ten fields make a transaction with a fee currency, and its reader looks at four of them: the chain id and
the fees, which must be numbers with the tip not above the fee cap, and the currency. The other six are
kept as the items that they are (`FeeCurrency.Outline`). That is enough to write the transaction back,
signature included, so the codec is lawful.

It is not enough for the fields to be those of an EIP-1559 transaction with a currency behind them. They
are exactly if the six kept items are also read in the way of EIP-1559 (`FeeCurrency.Outline.IsFilled`),
which the decoder of that type asks for and this reader does not.

Key definitions: `FeeCurrency.Outline`, `FeeCurrency.Outline.IsFilled`.
Key theorems: `FeeCurrency.ofItems_eq_ok_iff`, `FeeCurrency.read?_eq_ok_iff`,
`FeeCurrency.lawful_codec`, `FeeCurrency.Outline.isFilled_iff_ofTransaction`,
`FeeCurrency.Outline.isFilled_iff_ofItems`, `FeeCurrency.read_fields_are_ordinary_iff_kept_ones_are`.
-/
import EthWire.Chain.FeeCurrency
import EthWire.Proofs.Chain.Codec

namespace EthWire
namespace FeeCurrency

open Rlp (Item)
open Rlp.Item (asBytes_eq_ok_iff toWord_eq_ok_iff)

/-- The ten fields as far as they are read: those that are kept stand as the items that they are. -/
structure Outline where
  chainId : Word
  nonce : Item
  fees : FeeCaps
  gasLimit : Item
  recipient : Item
  value : Item
  data : Item
  accessList : Item
  currency : Address

namespace Outline

/-- The fields in front of the currency, which are those of an EIP-1559 transaction. -/
def commonItems (outline : Outline) : List Item :=
  [.ofWord outline.chainId, outline.nonce, .ofWord outline.fees.maxPriorityFee,
    .ofWord outline.fees.maxFee, outline.gasLimit, outline.recipient, outline.value, outline.data,
    outline.accessList]

/-- The fields in order. -/
def toItems (outline : Outline) : List Item :=
  outline.commonItems ++ [outline.currency.toItem]

theorem length_toItems (outline : Outline) : outline.toItems.length = fieldCount := rfl

/-- The transaction with the fields and a signature or none. -/
def toTransaction (outline : Outline) (signature : Option Signature) : ChainTransaction :=
  .custom typeByte outline.toItems signature

theorem commonItems_eq_of_toTransaction_eq {outline other : Outline} {signature signature' : Option Signature}
    (h : outline.toTransaction signature = other.toTransaction signature') :
    outline.commonItems = other.commonItems := by
  rw [toTransaction, toTransaction, ChainTransaction.custom.injEq] at h
  exact List.append_inj_left' h.2.1 rfl

end Outline

/-! ### The reader -/

theorem checkFields_eq_ok_iff {fields : List Item} (hlength : fields.length = fieldCount) :
    checkFields fields = .ok () ↔
      ∃ outline : Outline, fields = outline.toItems ∧ outline.fees.check = .ok () := by
  constructor
  · intro h
    unfold checkFields at h
    split at h
    · simp only [bind_eq_ok_iff, toWord_eq_ok_iff, Address.ofItem_eq_ok_iff] at h
      obtain ⟨chainId, rfl, tip, rfl, cap, rfl, ⟨⟩, hfees, currency, rfl, -⟩ := h
      rename_i nonce gasLimit recipient value data accessList rest
      -- ten fields leave none behind the currency
      obtain rfl : rest = [] := by simpa [fieldCount] using hlength
      exact ⟨⟨chainId, nonce, ⟨cap, tip⟩, gasLimit, recipient, value, data, accessList, currency⟩, rfl,
        hfees⟩
    · simp at h
  · rintro ⟨outline, rfl, hfees⟩
    simp only [Outline.toItems, Outline.commonItems, List.cons_append, List.nil_append, checkFields,
      bind_eq_ok_iff, toWord_eq_ok_iff, Address.ofItem_eq_ok_iff]
    exact ⟨_, rfl, _, rfl, _, rfl, (), hfees, _, rfl, rfl⟩

theorem ofItems_append_signature {fields : List Item} {signature : Option Signature}
    (hlength : fields.length = fieldCount) :
    ofItems (fields ++ signature.elim [] Signature.toItems)
      = (checkFields fields).map fun _ => .custom typeByte fields signature := by
  have hfields : (fields ++ signature.elim [] Signature.toItems).take fieldCount = fields :=
    List.take_left' hlength
  have hbehind : (fields ++ signature.elim [] Signature.toItems).drop fieldCount
      = signature.elim [] Signature.toItems := List.drop_left' hlength
  have hsignature : Signature.ofItems (signature.elim [] Signature.toItems) = .ok signature :=
    Signature.ofItems_eq_ok_iff.mpr rfl
  rw [ofItems, hfields, hbehind, hsignature]
  change (checkFields fields >>= fun _ => pure (ChainTransaction.custom typeByte fields signature)) = _
  cases checkFields fields <;> rfl

/-- A transaction with a fee currency is read from the items that it is written as, a signature behind
the fields included, if the items are enough for the fields. -/
theorem ofItems_eq_ok_iff {items : List Item} {tx : ChainTransaction}
    (hlength : fieldCount ≤ items.length) :
    ofItems items = .ok tx ↔
      ∃ (outline : Outline) (signature : Option Signature), outline.fees.check = .ok () ∧
        items = outline.toItems ++ signature.elim [] Signature.toItems ∧
        tx = outline.toTransaction signature := by
  have htake : (items.take fieldCount).length = fieldCount := by
    rw [List.length_take, Nat.min_eq_left hlength]
  constructor
  · intro h
    simp only [ofItems, bind_eq_ok_iff, Signature.ofItems_eq_ok_iff, checkFields_eq_ok_iff htake,
      pure_eq_ok_iff] at h
    obtain ⟨signature, hbehind, ⟨⟩, ⟨outline, hfields, hfees⟩, rfl⟩ := h
    refine ⟨outline, signature, hfees, ?_, ?_⟩
    · rw [← hfields, ← hbehind, List.take_append_drop]
    · rw [hfields, Outline.toTransaction]
  · rintro ⟨outline, signature, hfees, rfl, rfl⟩
    have hcheck : checkFields outline.toItems = .ok () :=
      (checkFields_eq_ok_iff (Outline.length_toItems outline)).mpr ⟨outline, rfl, hfees⟩
    rw [ofItems_append_signature (Outline.length_toItems outline), hcheck]
    rfl

theorem length_append_signature {fields : List Item} (hlength : fields.length = fieldCount)
    (signature : Option Signature) :
    (fields ++ signature.elim [] Signature.toItems).length ∈ [fieldCount, fieldCount + 3] := by
  rw [List.length_append, hlength]
  cases signature <;> simp [Signature.toItems]

theorem read?_eq_ok_iff {bytes : Bytes} {tx : ChainTransaction} :
    codec.read? bytes = some (.ok tx) ↔
      ∃ (outline : Outline) (signature : Option Signature) (rest : Bytes),
        outline.fees.check = .ok () ∧ bytes = typeByte :: rest ∧
        Rlp.decode rest = .ok (.list (outline.toItems ++ signature.elim [] Signature.toItems)) ∧
        tx = outline.toTransaction signature := by
  rw [codec, ChainTransaction.readCustom?_map_eq_ok_iff]
  constructor
  · rintro ⟨rest, items, rfl, hdecode, hlength, hitems⟩
    have hmany : fieldCount ≤ items.length := by
      simp only [List.mem_cons, List.not_mem_nil, or_false] at hlength
      omega
    obtain ⟨outline, signature, hfees, rfl, rfl⟩ := (ofItems_eq_ok_iff hmany).mp hitems
    exact ⟨outline, signature, rest, hfees, rfl, hdecode, rfl⟩
  · rintro ⟨outline, signature, rest, hfees, rfl, hdecode, rfl⟩
    have hmany : fieldCount ≤ (outline.toItems ++ signature.elim [] Signature.toItems).length := by
      rw [List.length_append, Outline.length_toItems]
      exact Nat.le_add_right _ _
    exact ⟨rest, _, rfl, hdecode, length_append_signature (Outline.length_toItems outline) signature,
      (ofItems_eq_ok_iff hmany).mpr ⟨outline, signature, hfees, rfl, rfl⟩⟩

theorem write?_custom (fields : List Item) (signature other : Option Signature) :
    codec.write? (.custom typeByte fields signature) other
      = some (ChainTransaction.customBytes typeByte fields other) := by
  rw [codec]
  simp only [ChainTransaction.customFields?_custom, Option.map_some]

/-- The codec of fee currencies writes back what it reads, the kept fields and the signature
included. -/
theorem lawful_codec : codec.Lawful where
  write?_standard _ _ := rfl
  write?_of_read? := by
    intro bytes tx h
    obtain ⟨outline, signature, rest, -, rfl, hdecode, rfl⟩ := read?_eq_ok_iff.mp h
    rw [Outline.toTransaction, write?_custom, ChainTransaction.signature?,
      ChainTransaction.customBytes_eq, Rlp.encode_of_decode hdecode]

theorem chainId?_toTransaction (outline : Outline) (signature : Option Signature) :
    codec.chainId? (outline.toTransaction signature) = some outline.chainId := by
  have hread : (Item.ofWord outline.chainId).toWord = .ok outline.chainId := toWord_eq_ok_iff.mpr rfl
  calc codec.chainId? (outline.toTransaction signature)
      = (Item.ofWord outline.chainId).toWord.toOption := rfl
    _ = some outline.chainId := by rw [hread, Except.toOption]

/-! ### The fields that are kept -/

theorem ofTransaction_eq_ok_iff {inner : Transaction} {currency : Address} {tx : ChainTransaction} :
    ofTransaction inner currency = .ok tx ↔
      inner.kind = .eip1559 ∧ inner.validate = .ok () ∧
        tx = .custom typeByte (inner.fields ++ [currency.toItem]) none := by
  simp only [ofTransaction, guard_eq_ok_iff, bind_eq_ok_iff, pure_eq_ok_iff, ne_eq, Decidable.not_not]
  constructor
  · rintro ⟨hkind, ⟨⟩, hv, rfl⟩
    exact ⟨hkind, hv, rfl⟩
  · rintro ⟨hkind, hv, rfl⟩
    exact ⟨hkind, (), hv, rfl⟩

namespace Outline

/-- The kept items are read in the way of EIP-1559. -/
structure IsFilled (outline : Outline) : Prop where
  nonce : ∃ word, outline.nonce.toWord = .ok word
  gasLimit : ∃ word, outline.gasLimit.toWord = .ok word
  recipient : ∃ address, Transaction.recipientOfItem outline.recipient = .ok address
  value : ∃ word, outline.value.toWord = .ok word
  data : ∃ content, outline.data.asBytes = .ok content
  accessList : ∃ entries, AccessEntry.listOfItem outline.accessList = .ok entries

section

variable {outline : Outline}

/-- Where the kept items are read, they are the fields of a transaction that keeps the rule of the fees
if the outline does. -/
theorem IsFilled.exists_transaction (h : outline.IsFilled) :
    ∃ inner : Transaction, inner.kind = .eip1559 ∧ inner.validate = outline.fees.check ∧
      inner.signature = none ∧ inner.fields = outline.commonItems := by
  obtain ⟨⟨nonce, hnonce⟩, ⟨gasLimit, hgasLimit⟩, ⟨recipient, hrecipient⟩, ⟨value, hvalue⟩,
    ⟨data, hdata⟩, ⟨accessList, haccessList⟩⟩ := h
  rw [toWord_eq_ok_iff] at hnonce hgasLimit hvalue
  rw [Transaction.recipientOfItem_eq_ok_iff] at hrecipient
  rw [asBytes_eq_ok_iff] at hdata
  rw [AccessEntry.listOfItem_eq_ok_iff] at haccessList
  refine ⟨⟨.eip1559 outline.chainId outline.fees recipient accessList, nonce, gasLimit, value, data,
    none⟩, rfl, rfl, rfl, ?_⟩
  rw [commonItems, hnonce, hgasLimit, hrecipient, hvalue, hdata, haccessList, Transaction.fields]

theorem isFilled_of_fields {inner : Transaction} (hkind : inner.kind = .eip1559)
    (hfields : inner.fields = outline.commonItems) : outline.IsFilled := by
  obtain ⟨envelope, nonce, gasLimit, value, data, signature⟩ := inner
  cases envelope with
  | eip1559 chainId fees recipient accessList =>
    simp only [Transaction.fields, commonItems, List.cons.injEq] at hfields
    obtain ⟨-, hnonce, -, -, hgasLimit, hrecipient, hvalue, hdata, haccessList, -⟩ := hfields
    constructor
    · exact ⟨nonce, toWord_eq_ok_iff.mpr hnonce.symm⟩
    · exact ⟨gasLimit, toWord_eq_ok_iff.mpr hgasLimit.symm⟩
    · exact ⟨recipient, Transaction.recipientOfItem_eq_ok_iff.mpr hrecipient.symm⟩
    · exact ⟨value, toWord_eq_ok_iff.mpr hvalue.symm⟩
    · exact ⟨data, asBytes_eq_ok_iff.mpr hdata.symm⟩
    · exact ⟨accessList, AccessEntry.listOfItem_eq_ok_iff.mpr haccessList.symm⟩
  | _ => simp [Transaction.kind, Envelope.kind] at hkind

/-- The fields are made from a transaction exactly if the kept ones are read. -/
theorem isFilled_iff_ofTransaction (hfees : outline.fees.check = .ok ()) :
    outline.IsFilled ↔
      ∃ inner currency, ofTransaction inner currency = .ok (outline.toTransaction none) := by
  simp only [ofTransaction_eq_ok_iff]
  constructor
  · intro h
    obtain ⟨inner, hkind, hv, -, hfields⟩ := h.exists_transaction
    refine ⟨inner, outline.currency, hkind, by rw [hv, hfees], ?_⟩
    rw [hfields, toTransaction, toItems]
  · rintro ⟨inner, currency, hkind, -, htx⟩
    have hitems : outline.commonItems ++ [outline.currency.toItem]
        = inner.fields ++ [currency.toItem] := by
      simpa [toTransaction, toItems] using htx
    exact isFilled_of_fields hkind (List.append_inj_left' hitems rfl).symm

/-- The decoder of EIP-1559 transactions accepts the fields in front of the currency exactly if the kept
ones are read. -/
theorem isFilled_iff_ofItems (hfees : outline.fees.check = .ok ()) :
    outline.IsFilled ↔ ∃ inner, Transaction.ofItems .eip1559 outline.commonItems = .ok inner := by
  simp only [Transaction.ofItems_eq_ok_iff, Transaction.toItem_eq_ok_iff]
  constructor
  · intro h
    obtain ⟨inner, hkind, hv, hsignature, hfields⟩ := h.exists_transaction
    have hlegacy : inner.envelope.kind ≠ .legacy := fun hlegacy => by
      rw [Transaction.kind, hlegacy] at hkind
      simp at hkind
    refine ⟨inner, by rw [hv, hfees], hkind, Transaction.sidecars?_eq_none (by simp [hkind]), ⟨[], ?_, ?_⟩,
      fun hlegacy => by simp [hkind] at hlegacy⟩
    · rw [hsignature, Transaction.trailer_of_ne_legacy hlegacy]
      rfl
    · rw [hfields, List.append_nil]
  · rintro ⟨inner, -, hkind, -, ⟨behind, -, hitems⟩, -⟩
    -- nine items leave none behind the fields
    have hbehind : behind = [] := by
      have hlength := congrArg List.length hitems
      rw [List.length_append, Transaction.length_fields, hkind] at hlength
      exact List.length_eq_zero_iff.mp (Nat.add_eq_left.mp hlength.symm)
    rw [hbehind, List.append_nil] at hitems
    exact isFilled_of_fields hkind hitems.symm

end

end Outline

/-- **What is read has the fields of an EIP-1559 transaction exactly if the kept ones are read**, by the
rules of that type's own decoder. The reader of fee currencies does not ask for this, so both cases
arise. -/
theorem read_fields_are_ordinary_iff_kept_ones_are {bytes : Bytes} {tx : ChainTransaction}
    (h : codec.read? bytes = some (.ok tx)) :
    ∃ (outline : Outline) (signature : Option Signature), tx = outline.toTransaction signature ∧
      outline.fees.check = .ok () ∧
      ((∃ inner currency, ofTransaction inner currency = .ok (outline.toTransaction none)) ↔
        outline.IsFilled) ∧
      ((∃ inner, Transaction.ofItems .eip1559 outline.commonItems = .ok inner) ↔ outline.IsFilled) := by
  obtain ⟨outline, signature, -, hfees, -, -, rfl⟩ := read?_eq_ok_iff.mp h
  exact ⟨outline, signature, rfl, hfees, (Outline.isFilled_iff_ofTransaction hfees).symm,
    (Outline.isFilled_iff_ofItems hfees).symm⟩

/-- A transfer that pays its gas in a token, up to its nonce. -/
def sampleOutline (nonce : Item) : Outline where
  chainId := 42220
  nonce := nonce
  fees := ⟨2, 1⟩
  gasLimit := .ofWord 21000
  recipient := .bytes (List.replicate 20 0x35)
  value := .empty
  data := .empty
  accessList := .list []
  currency := ⟨0x765de816845861e75a25fca122bb6898b8b1282a⟩

/-- The octets of the transfer, up to the one octet of its nonce. -/
def sampleOctets (nonce : UInt8) : Bytes :=
  [0x7b, 0xf6, 0x82, 0xa4, 0xec, nonce, 0x01, 0x02, 0x82, 0x52, 0x08, 0x94] ++ List.replicate 20 0x35 ++
    [0x80, 0x80, 0xc0, 0x94] ++
    [0x76, 0x5d, 0xe8, 0x16, 0x84, 0x58, 0x61, 0xe7, 0x5a, 0x25, 0xfc, 0xa1, 0x22, 0xbb, 0x68, 0x98,
      0xb8, 0xb1, 0x28, 0x2a]

theorem read?_sampleOctets :
    codec.read? (sampleOctets 0x01) = some (.ok ((sampleOutline (.ofWord 1)).toTransaction none)) := by
  refine read?_eq_ok_iff.mpr ⟨_, none, _, rfl, rfl, ?_, rfl⟩
  cbv

/-- With the nonce one, the transfer is an EIP-1559 transaction with a currency behind it. -/
theorem transfer_with_currency_is_ordinary :
    ∃ (outline : Outline) (signature : Option Signature) (inner : Transaction) (currency : Address),
      codec.read? (sampleOctets 0x01) = some (.ok (outline.toTransaction signature)) ∧
        ofTransaction inner currency = .ok (outline.toTransaction none) := by
  have hread := read?_sampleOctets
  obtain ⟨outline, signature, htx, -, hordinary, -⟩ := read_fields_are_ordinary_iff_kept_ones_are hread
  have hitems : (sampleOutline (.ofWord 1)).commonItems = outline.commonItems :=
    Outline.commonItems_eq_of_toTransaction_eq htx
  have hfields : (⟨.eip1559 42220 ⟨2, 1⟩ (some ⟨0x3535353535353535353535353535353535353535⟩) [], 1, 21000,
      0, [], none⟩ : Transaction).fields = outline.commonItems := by
    rw [← hitems]
    rfl
  obtain ⟨inner, currency, hmade⟩ := hordinary.mpr (Outline.isFilled_of_fields rfl hfields)
  rw [htx] at hread
  exact ⟨outline, signature, inner, currency, hread, hmade⟩

/-- With an empty list for the nonce, the transfer is accepted though no EIP-1559 transaction has such
fields. -/
theorem list_for_a_nonce_is_read :
    ∃ outline : Outline, codec.read? (sampleOctets 0xc0) = some (.ok (outline.toTransaction none)) ∧
      ¬ ∃ inner currency, ofTransaction inner currency = .ok (outline.toTransaction none) := by
  refine ⟨sampleOutline (.list []), read?_eq_ok_iff.mpr ⟨_, none, _, rfl, rfl, ?_, rfl⟩, ?_⟩
  · cbv
  · rw [← Outline.isFilled_iff_ofTransaction rfl]
    rintro ⟨⟨word, hnonce⟩, -⟩
    rw [toWord_eq_ok_iff] at hnonce
    simp [sampleOutline, Item.ofWord] at hnonce

end FeeCurrency
end EthWire
