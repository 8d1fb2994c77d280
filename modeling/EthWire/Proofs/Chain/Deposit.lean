/-
# Deposits are read from their written form only

The fields of a deposit are taken one by one from the front of a list, and each is read from its own item
only. So a deposit is read from the items that it is written as, with anything behind them
(`Deposit.ofItems_eq_ok_iff`), and its codec, which allows no other length, reads the octets of a deposit
and no others (`Deposit.read?_eq_ok_iff`).

Key theorems: `Deposit.ofItems_eq_ok_iff`, `Deposit.read?_eq_ok_iff`, `Deposit.lawful_codec`.
-/
import EthWire.Chain.Deposit
import EthWire.Proofs.Chain.Codec

namespace EthWire
namespace Deposit

open Rlp (Item)
open Rlp.Item (asBytes_eq_ok_iff toWord_eq_ok_iff toUInt64_eq_ok_iff toBool_eq_ok_iff toHash_eq_ok_iff)

theorem nextField_eq_ok_iff {field : String} {items rest : List Item} {item : Item} :
    nextField field items = .ok (item, rest) ↔ items = item :: rest := by
  cases items <;> simp [nextField]

/-- A deposit is read from its own items only, whatever stands behind them. -/
theorem ofItems_eq_ok_iff {items : List Item} {deposit : Deposit} :
    ofItems items = .ok deposit ↔ ∃ rest, items = deposit.toItems ++ rest := by
  simp only [ofItems, bind_eq_ok_iff, Prod.exists, nextField_eq_ok_iff, toHash_eq_ok_iff,
    Address.ofItem_eq_ok_iff, Transaction.recipientOfItem_eq_ok_iff, toWord_eq_ok_iff, toUInt64_eq_ok_iff,
    toBool_eq_ok_iff, asBytes_eq_ok_iff, pure_eq_ok_iff]
  constructor
  · rintro ⟨_, _, rfl, _, rfl, _, _, rfl, _, rfl, _, _, rfl, _, rfl, _, _, rfl, _, rfl, _, _, rfl, _, rfl,
      _, _, rfl, _, rfl, _, _, rfl, _, rfl, _, rest, rfl, _, rfl, rfl⟩
    exact ⟨rest, rfl⟩
  · rintro ⟨rest, rfl⟩
    exact ⟨_, _, rfl, _, rfl, _, _, rfl, _, rfl, _, _, rfl, _, rfl, _, _, rfl, _, rfl, _, _, rfl, _, rfl,
      _, _, rfl, _, rfl, _, _, rfl, _, rfl, _, _, rfl, _, rfl, rfl⟩

theorem length_toItems (deposit : Deposit) : deposit.toItems.length = fieldCount := rfl

theorem read?_eq_ok_iff {bytes : Bytes} {tx : ChainTransaction} :
    codec.read? bytes = some (.ok tx) ↔
      ∃ deposit rest, tx = toTransaction deposit ∧ bytes = typeByte :: rest ∧
        Rlp.decode rest = .ok (.list deposit.toItems) := by
  have hread : codec.read? bytes = (ChainTransaction.readCustom? typeByte name [fieldCount] bytes).map
      fun items => items >>= fun items => (ofItems items).map toTransaction := by
    refine congrArg (Option.map · _) (funext fun items => ?_)
    cases items <;> rfl
  rw [hread, ChainTransaction.readCustom?_map_eq_ok_iff]
  simp only [map_eq_ok_iff, ofItems_eq_ok_iff, List.mem_singleton]
  constructor
  · rintro ⟨rest, _, rfl, hdecode, hlength, deposit, ⟨behind, rfl⟩, rfl⟩
    -- as many items as a deposit has leave none behind it
    rw [List.length_append, length_toItems, Nat.add_eq_left, List.length_eq_zero_iff] at hlength
    rw [hlength, List.append_nil] at hdecode
    exact ⟨deposit, rest, rfl, rfl, hdecode⟩
  · rintro ⟨deposit, rest, rfl, rfl, hdecode⟩
    exact ⟨rest, deposit.toItems, rfl, hdecode, length_toItems deposit, deposit,
      ⟨[], (List.append_nil _).symm⟩, rfl⟩

theorem write?_toTransaction (deposit : Deposit) (signature : Option Signature) :
    codec.write? deposit.toTransaction signature = some deposit.toBytes := by
  rw [codec, toTransaction]
  simp only [ChainTransaction.customFields?_custom, Option.map_some]
  rfl

theorem toBytes_eq (deposit : Deposit) :
    deposit.toBytes = typeByte :: Rlp.encode (.list deposit.toItems) := by
  rw [toBytes, ChainTransaction.customBytes_eq, Option.elim_none, List.append_nil]

/-- The codec of deposits writes back what it reads. -/
theorem lawful_codec : codec.Lawful where
  write?_standard _ _ := rfl
  write?_of_read? := by
    intro bytes tx h
    obtain ⟨deposit, rest, rfl, rfl, hdecode⟩ := read?_eq_ok_iff.mp h
    rw [write?_toTransaction, toBytes_eq, Rlp.encode_of_decode hdecode]

end Deposit
end EthWire
