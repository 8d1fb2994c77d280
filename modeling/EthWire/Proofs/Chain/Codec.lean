/-
# A chain writes back what it reads

The transactions that a chain adds to the common types stand behind an octet of their own, as a list of
one of the lengths that their codec allows. RLP has one form for a list, so the octets of an accepted
list are those of its items (`ChainTransaction.readCustom?_eq_ok_iff`).

A chain relies on two laws of its codec: it writes what it reads in the same octets, and it leaves the
common types to the chain (`ChainCodec.Lawful`). With such a codec, or with none, the octets that a chain
accepts are those that it writes for the transaction, which names this chain or none.

Key definitions: `ChainCodec.Lawful`, `ChainTransaction.sidecars?`.
Key theorems: `ChainTransaction.readCustom?_map_eq_ok_iff`, `Chain.ofBytes_eq_ok_iff`,
`Chain.toBytes_of_ofBytes`.
-/
import EthWire.Chain.Basic
import EthWire.Proofs.Transaction.Canonical

namespace EthWire

open Rlp (Item)

namespace ChainTransaction

variable {name : String} {counts : List Nat} {typeByte : UInt8} {bytes : Bytes} {items : List Item}

/-! ### Lists behind an octet -/

theorem readList_eq_ok_iff :
    readList name counts bytes = .ok items ↔
      Rlp.decode bytes = .ok (.list items) ∧ items.length ∈ counts := by
  simp only [readList, bind_eq_ok_iff, Rlp.Item.asList_eq_ok_iff, List.contains_iff_mem, pure,
    Except.pure, throw_eq_error, ite_ok_eq_ok_iff, Except.ok.injEq]
  constructor
  · rintro ⟨_, hdecode, _, rfl, hlength, rfl⟩
    exact ⟨hdecode, hlength⟩
  · rintro ⟨hdecode, hlength⟩
    exact ⟨_, hdecode, _, rfl, hlength, rfl⟩

theorem readCustom?_eq_ok_iff :
    readCustom? typeByte name counts bytes = some (.ok items) ↔
      ∃ rest, bytes = typeByte :: rest ∧ Rlp.decode rest = .ok (.list items) ∧
        items.length ∈ counts := by
  cases bytes with
  | nil => simp [readCustom?]
  | cons first rest =>
    by_cases hfirst : first = typeByte
    · simp [readCustom?, hfirst, readList_eq_ok_iff]
    · simp [readCustom?, hfirst]

/-- A custom transaction is read from the items behind the octet of its type, whatever is made of
them. -/
theorem readCustom?_map_eq_ok_iff {α : Type} {make : List Item → Except Error α} {made : α} :
    ((readCustom? typeByte name counts bytes).map fun items => items >>= make) = some (.ok made) ↔
      ∃ rest items, bytes = typeByte :: rest ∧ Rlp.decode rest = .ok (.list items) ∧
        items.length ∈ counts ∧ make items = .ok made := by
  simp only [Option.map_eq_some_iff, bind_eq_ok_iff]
  constructor
  · rintro ⟨_, hclaimed, items, rfl, hmade⟩
    obtain ⟨rest, hbytes, hdecode, hlength⟩ := readCustom?_eq_ok_iff.mp hclaimed
    exact ⟨rest, items, hbytes, hdecode, hlength, hmade⟩
  · rintro ⟨rest, items, hbytes, hdecode, hlength, hmade⟩
    exact ⟨_, readCustom?_eq_ok_iff.mpr ⟨rest, hbytes, hdecode, hlength⟩, items, rfl, hmade⟩

theorem customFields?_custom (fields : List Item) (signature : Option Signature) :
    (custom typeByte fields signature).customFields? typeByte = some fields :=
  if_pos rfl

theorem customBytes_eq (typeByte : UInt8) (fields : List Item) (signature : Option Signature) :
    customBytes typeByte fields signature =
      typeByte :: Rlp.encode (.list (fields ++ signature.elim [] Signature.toItems)) := by
  cases signature <;> rfl

/-- The blobs beside a transaction, which only a common one has. -/
def sidecars? : ChainTransaction → Option (List Sidecar)
  | standard tx => tx.sidecars?
  | custom .. => none

end ChainTransaction

/-! ### What a chain asks of its codec -/

/-- A codec leaves the common types to the chain, and writes what it reads in the same octets. -/
structure ChainCodec.Lawful (codec : ChainCodec) : Prop where
  write?_standard : ∀ tx signature, codec.write? (.standard tx) signature = none
  write?_of_read? : ∀ {bytes tx}, codec.read? bytes = some (.ok tx) →
    codec.write? tx tx.signature? = some bytes

theorem Transaction.verifyChainId_eq_ok_iff {tx : Transaction} {expected : Word} :
    tx.verifyChainId expected = .ok () ↔ tx.chainId? = none ∨ tx.chainId? = some expected := by
  rw [verifyChainId]
  cases tx.chainId? with
  | none => simp
  | some got => simp

namespace Chain

variable {chain : Chain} {bytes : Bytes} {tx : ChainTransaction}

theorem verifyCustom_eq_ok_iff {codec : ChainCodec} (hcodec : chain.codec = some codec) :
    chain.verifyCustom tx = .ok () ↔
      codec.chainId? tx = none ∨ codec.chainId? tx = some chain.idWord := by
  rw [verifyCustom, hcodec, Option.bind_some]
  cases codec.chainId? tx with
  | none => simp
  | some got => simp

theorem readCommon_eq_ok_iff :
    (Transaction.ofBytes bytes >>= fun common =>
        common.verifyChainId chain.idWord >>= fun _ => pure (.standard common)) = .ok tx ↔
      ∃ common, tx = .standard common ∧ Transaction.ofBytes bytes = .ok common ∧
        (common.chainId? = none ∨ common.chainId? = some chain.idWord) := by
  simp only [bind_eq_ok_iff, pure_eq_ok_iff]
  constructor
  · rintro ⟨common, hread, ⟨⟩, hverify, rfl⟩
    exact ⟨common, rfl, hread, Transaction.verifyChainId_eq_ok_iff.mp hverify⟩
  · rintro ⟨common, rfl, hread, hverify⟩
    exact ⟨common, hread, (), Transaction.verifyChainId_eq_ok_iff.mpr hverify, rfl⟩

/-- A transaction is read with the codec of the chain's own types if that claims the octets, and as a
common one otherwise. Either way it names this chain or none. -/
theorem ofBytes_eq_ok_iff :
    chain.ofBytes bytes = .ok tx ↔
      (∃ codec, chain.codec = some codec ∧ codec.read? bytes = some (.ok tx) ∧
        (codec.chainId? tx = none ∨ codec.chainId? tx = some chain.idWord)) ∨
      ((∀ codec, chain.codec = some codec → codec.read? bytes = none) ∧
        ∃ common, tx = .standard common ∧ Transaction.ofBytes bytes = .ok common ∧
          (common.chainId? = none ∨ common.chainId? = some chain.idWord)) := by
  cases hcodec : chain.codec with
  | none =>
    rw [ofBytes, hcodec, Option.bind_none]
    simpa using readCommon_eq_ok_iff
  | some codec =>
    cases hread : codec.read? bytes with
    | none =>
      rw [ofBytes, hcodec, Option.bind_some, hread]
      simpa [hread] using readCommon_eq_ok_iff
    | some result =>
      rw [ofBytes, hcodec, Option.bind_some, hread]
      simp only [bind_eq_ok_iff, pure_eq_ok_iff, verifyCustom_eq_ok_iff hcodec]
      constructor
      · rintro ⟨_, rfl, ⟨⟩, hverify, rfl⟩
        exact .inl ⟨codec, rfl, hread, hverify⟩
      · rintro (⟨_, ⟨⟩, hclaimed, hverify⟩ | ⟨hleft, -⟩)
        · exact ⟨tx, Option.some.inj (hread.symm.trans hclaimed), (), hverify, rfl⟩
        · rw [hleft codec rfl] at hread
          simp at hread

theorem toBytes_of_write? {codec : ChainCodec} (hcodec : chain.codec = some codec)
    (h : codec.write? tx tx.signature? = some bytes) : chain.toBytes tx = .ok bytes := by
  rw [toBytes, encode.eq_def, hcodec, Option.bind_some, h]

theorem toBytes_standard (hlawful : ∀ codec, chain.codec = some codec → codec.Lawful)
    (common : Transaction) : chain.toBytes (.standard common) = common.toBytes := by
  cases hcodec : chain.codec with
  | none =>
    rw [toBytes, encode.eq_def, hcodec, Option.bind_none]
    rfl
  | some codec =>
    have hleft := (hlawful codec hcodec).write?_standard common common.signature
    rw [toBytes, encode.eq_def, hcodec, Option.bind_some, ChainTransaction.signature?, hleft]
    rfl

/-- A chain writes back what it reads, unless there are blobs beside it, which are not written. -/
theorem toBytes_of_ofBytes (hlawful : ∀ codec, chain.codec = some codec → codec.Lawful)
    (h : chain.ofBytes bytes = .ok tx) (hs : tx.sidecars? = none) : chain.toBytes tx = .ok bytes := by
  rcases ofBytes_eq_ok_iff.mp h with ⟨codec, hcodec, hread, -⟩ | ⟨-, common, rfl, hread, -⟩
  · exact toBytes_of_write? hcodec ((hlawful codec hcodec).write?_of_read? hread)
  · have hnetwork := Transaction.toNetworkBytes_of_ofBytes hread
    rw [toBytes_standard hlawful, ← Transaction.toNetworkBytes_eq_toBytes hs, hnetwork]

end Chain
end EthWire
