/-
# What a chain reads is for that chain

A common transaction says for which chain it is, except for a legacy one, which need not; one with a fee
currency always says so, in front of its other fields; a deposit never does. Whoever reads a transaction
on a chain relies on two things: if the transaction says for which chain it is, it is this one, and
the transaction stands for the octets it was read from. Both hold on a chain that adds no types, one with
deposits and one with fee currencies (`Chain.read_transaction_is_for_the_chain`), by the laws of the two
codecs and one case for each way in which octets can be read (`Chain.ofBytes_eq_ok_iff`).

Key definitions: `ChainTransaction.namedChain?`, `ChainTransaction.CanNameNoChain`, `Chain.IsKnown`.
Key theorems: `Chain.namedChain?_of_ofBytes`, `Chain.read_transaction_is_for_the_chain`.
-/
import EthWire.Proofs.Chain.Deposit
import EthWire.Proofs.Chain.FeeCurrency
import EthWire.Proofs.Transaction.Signing

namespace EthWire

namespace ChainTransaction

/-- The chain that a transaction says it is for. -/
def namedChain? : ChainTransaction → Option Word
  | standard tx => tx.chainId?
  | custom typeByte fields _ =>
    if typeByte = FeeCurrency.typeByte then fields.head?.bind fun chainId => chainId.toWord.toOption
    else none

/-- The transaction is a deposit or a legacy transaction, which can be for no chain in particular. -/
def CanNameNoChain : ChainTransaction → Prop
  | standard tx => tx.kind = .legacy
  | custom typeByte fields signature =>
    ∃ deposit : Deposit, custom typeByte fields signature = deposit.toTransaction

theorem namedChain?_deposit (deposit : Deposit) : deposit.toTransaction.namedChain? = none := rfl

theorem namedChain?_feeCurrency (outline : FeeCurrency.Outline) (signature : Option Signature) :
    (outline.toTransaction signature).namedChain? = some outline.chainId :=
  FeeCurrency.chainId?_toTransaction outline signature

end ChainTransaction

namespace Chain

/-- The chain adds no types of transactions, deposits, or fee currencies. -/
def IsKnown (chain : Chain) : Prop :=
  chain.codec = none ∨ chain.codec = some Deposit.codec ∨ chain.codec = some FeeCurrency.codec

variable {chain : Chain} {bytes : Bytes} {tx : ChainTransaction}

theorem IsKnown.lawful (h : chain.IsKnown) : ∀ codec, chain.codec = some codec → codec.Lawful := by
  intro codec hcodec
  rcases h with hnone | hdeposit | hfee
  · rw [hnone] at hcodec
    simp at hcodec
  · rw [hdeposit, Option.some.injEq] at hcodec
    exact hcodec ▸ Deposit.lawful_codec
  · rw [hfee, Option.some.injEq] at hcodec
    exact hcodec ▸ FeeCurrency.lawful_codec

/-- A codec takes the chain of a transaction that it reads from where the transaction names it, and only
deposits leave it out. -/
theorem IsKnown.namedChain?_of_read? (h : chain.IsKnown) {codec : ChainCodec}
    (hcodec : chain.codec = some codec) (hread : codec.read? bytes = some (.ok tx)) :
    codec.chainId? tx = tx.namedChain? ∧ (tx.namedChain? = none → tx.CanNameNoChain) := by
  rcases h with hnone | hdeposit | hfee
  · rw [hnone] at hcodec
    simp at hcodec
  · obtain rfl : Deposit.codec = codec := Option.some.inj (hdeposit.symm.trans hcodec)
    obtain ⟨deposit, rest, rfl, -, -⟩ := Deposit.read?_eq_ok_iff.mp hread
    refine ⟨(ChainTransaction.namedChain?_deposit deposit).symm, fun _ => ?_⟩
    exact ⟨deposit, rfl⟩
  · obtain rfl : FeeCurrency.codec = codec := Option.some.inj (hfee.symm.trans hcodec)
    obtain ⟨outline, signature, rest, -, -, -, rfl⟩ := FeeCurrency.read?_eq_ok_iff.mp hread
    have hnamed := ChainTransaction.namedChain?_feeCurrency outline signature
    refine ⟨?_, fun hnone => ?_⟩
    · rw [hnamed, FeeCurrency.chainId?_toTransaction]
    · rw [hnamed] at hnone
      simp at hnone

theorem namedChain?_of_ofBytes (hchain : chain.IsKnown) (h : chain.ofBytes bytes = .ok tx) :
    tx.namedChain? = some chain.idWord ∨ tx.namedChain? = none ∧ tx.CanNameNoChain := by
  rcases ofBytes_eq_ok_iff.mp h with ⟨codec, hcodec, hread, hverify⟩ | ⟨-, common, rfl, -, hverify⟩
  · obtain ⟨hnamed, hcan⟩ := hchain.namedChain?_of_read? hcodec hread
    rw [hnamed] at hverify
    rcases hverify with hnone | hsome
    · exact .inr ⟨hnone, hcan hnone⟩
    · exact .inl hsome
  · rcases hverify with hnone | hsome
    · have hlegacy : common.kind = .legacy := by
        by_contra hkind
        obtain ⟨chainId, hsome⟩ := Transaction.exists_chainId_of_ne_legacy hkind
        rw [hnone] at hsome
        simp at hsome
      exact .inr ⟨hnone, hlegacy⟩
    · exact .inl hsome

/-- **What is read on a chain is for that chain, and is written back in the same octets.** Only a deposit
or a legacy transaction is for no chain in particular, and only blobs beside a transaction are not
written. -/
theorem read_transaction_is_for_the_chain (hchain : chain.IsKnown) (h : chain.ofBytes bytes = .ok tx) :
    (tx.namedChain? = some chain.idWord ∨ tx.namedChain? = none ∧ tx.CanNameNoChain) ∧
      (tx.sidecars? = none → chain.toBytes tx = .ok bytes) :=
  ⟨namedChain?_of_ofBytes hchain h, toBytes_of_ofBytes hchain.lawful h⟩

/-- A transfer that pays its gas in a token, on a chain with fee currencies. -/
theorem transfer_with_currency_is_for_the_chain :
    let chain : Chain := ⟨42220, "Celo", some FeeCurrency.codec⟩
    let tx := (FeeCurrency.sampleOutline (.ofWord 1)).toTransaction none
    chain.ofBytes (FeeCurrency.sampleOctets 0x01) = .ok tx ∧ tx.namedChain? = some chain.idWord ∧
      chain.toBytes tx = .ok (FeeCurrency.sampleOctets 0x01) := by
  intro chain tx
  have hread : chain.ofBytes (FeeCurrency.sampleOctets 0x01) = .ok tx :=
    ofBytes_eq_ok_iff.mpr (.inl ⟨_, rfl, FeeCurrency.read?_sampleOctets,
      .inr (FeeCurrency.chainId?_toTransaction _ none)⟩)
  obtain ⟨hnamed | ⟨hnone, -⟩, hwritten⟩ :=
    read_transaction_is_for_the_chain (.inr (.inr rfl)) hread
  · exact ⟨hread, hnamed, hwritten rfl⟩
  · rw [ChainTransaction.namedChain?_feeCurrency] at hnone
    simp at hnone

end Chain
end EthWire
