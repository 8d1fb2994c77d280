/-
# The fields of a transaction have one item each

Receivers, lists of hashes, access lists, authorizations and the lists of blobs beside a transaction are
read from their own items only, like the numbers they are made of.

Key theorems: `Transaction.recipientOfItem_eq_ok_iff`, `AccessEntry.listOfItem_eq_ok_iff`,
`SignedAuthorization.listOfItem_eq_ok_iff`, `Sidecar.ofItems_eq_ok_iff`.
-/
import EthWire.Proofs.Rlp.Conventions
import EthWire.Transaction.Decoding

namespace EthWire

open Rlp (Item)
open Rlp.Item (asBytes_eq_ok_iff asList_eq_ok_iff toWord_eq_ok_iff toUInt64_eq_ok_iff
  toBool_eq_ok_iff toHash_eq_ok_iff)

/-! ### Receivers -/

/-- A receiver is read from its own item only, and none from the empty string, which no address is
written as. -/
theorem Transaction.recipientOfItem_eq_ok_iff {item : Item} {recipient : Option Address} :
    recipientOfItem item = .ok recipient ↔ item = recipientToItem recipient := by
  simp only [recipientOfItem, bind_eq_ok_iff, asBytes_eq_ok_iff]
  refine ⟨fun h => ?_, fun h => ?_⟩
  · obtain ⟨content, rfl, h⟩ := h
    by_cases hnil : content = []
    · subst hnil
      rw [List.isEmpty_nil, if_pos rfl, pure_eq_ok_iff] at h
      rw [← h]
      rfl
    · rw [if_neg (by simpa using hnil)] at h
      simp only [bind_eq_ok_iff, Address.ofBytes_eq_ok_iff, pure_eq_ok_iff] at h
      obtain ⟨address, rfl, rfl⟩ := h
      rfl
  · subst h
    cases recipient with
    | none => exact ⟨[], rfl, rfl⟩
    | some address =>
      refine ⟨address.toBytes, rfl, ?_⟩
      have hnil : address.toBytes ≠ [] := List.ne_nil_of_length_pos (by simp)
      rw [if_neg (by simpa using hnil)]
      simp only [bind_eq_ok_iff, Address.ofBytes_eq_ok_iff, pure_eq_ok_iff]
      exact ⟨address, rfl, rfl⟩

/-! ### Lists in fields -/

theorem Word.listOfItem_eq_ok_iff {item : Item} {words : List Word} :
    listOfItem item = .ok words ↔ item = listToItem words := by
  simp only [listOfItem, bind_eq_ok_iff, asList_eq_ok_iff, mapM_eq_ok_iff fun _ _ => toHash_eq_ok_iff,
    listToItem]
  simp

namespace AccessEntry

theorem ofItem_eq_ok_iff {item : Item} {entry : AccessEntry} :
    ofItem item = .ok entry ↔ item = entry.toItem := by
  simp only [ofItem, bind_eq_ok_iff, asList_eq_ok_iff]
  refine ⟨fun h => ?_, fun h => ?_⟩
  · obtain ⟨items, rfl, h⟩ := h
    split at h
    · simp only [bind_eq_ok_iff, Word.listOfItem_eq_ok_iff, Address.ofItem_eq_ok_iff,
        pure_eq_ok_iff] at h
      obtain ⟨_, rfl, _, rfl, rfl⟩ := h
      rfl
    · exact absurd h throw_ne_ok
  · subst h
    refine ⟨_, rfl, ?_⟩
    simp only [bind_eq_ok_iff, Word.listOfItem_eq_ok_iff, Address.ofItem_eq_ok_iff, pure_eq_ok_iff]
    exact ⟨_, rfl, _, rfl, rfl⟩

/-- An access list is read from its own item only. -/
theorem listOfItem_eq_ok_iff {item : Item} {entries : List AccessEntry} :
    listOfItem item = .ok entries ↔ item = listToItem entries := by
  simp only [listOfItem, bind_eq_ok_iff, asList_eq_ok_iff, mapM_eq_ok_iff fun _ _ => ofItem_eq_ok_iff,
    listToItem]
  simp

end AccessEntry

namespace SignedAuthorization

theorem ofItem_eq_ok_iff {item : Item} {signed : SignedAuthorization} :
    ofItem item = .ok signed ↔ item = signed.toItem := by
  simp only [ofItem, bind_eq_ok_iff, asList_eq_ok_iff]
  refine ⟨fun h => ?_, fun h => ?_⟩
  · obtain ⟨items, rfl, h⟩ := h
    split at h
    · simp only [bind_eq_ok_iff, toBool_eq_ok_iff, toWord_eq_ok_iff, toUInt64_eq_ok_iff,
        Address.ofItem_eq_ok_iff, pure_eq_ok_iff] at h
      obtain ⟨_, rfl, _, rfl, _, rfl, _, rfl, _, rfl, _, rfl, rfl⟩ := h
      rfl
    · exact absurd h throw_ne_ok
  · subst h
    refine ⟨_, rfl, ?_⟩
    simp only [Authorization.items, Signature.toItems, List.cons_append, List.nil_append,
      bind_eq_ok_iff, toBool_eq_ok_iff, toWord_eq_ok_iff, toUInt64_eq_ok_iff,
      Address.ofItem_eq_ok_iff, pure_eq_ok_iff]
    exact ⟨_, rfl, _, rfl, _, rfl, _, rfl, _, rfl, _, rfl, rfl⟩

/-- A list of authorizations is read from its own item only. -/
theorem listOfItem_eq_ok_iff {item : Item} {list : List SignedAuthorization} :
    listOfItem item = .ok list ↔ item = listToItem list := by
  simp only [listOfItem, bind_eq_ok_iff, asList_eq_ok_iff, mapM_eq_ok_iff fun _ _ => ofItem_eq_ok_iff,
    listToItem]
  simp

end SignedAuthorization

/-! ### Blobs -/

theorem FixedBytes.ofBytes?_eq_some_iff {size : Nat} {bytes : Bytes} {content : FixedBytes size} :
    ofBytes? bytes = some content ↔ bytes = content.bytes := by
  refine ⟨fun h => ?_, fun h => ?_⟩
  · unfold ofBytes? at h
    split at h
    · rw [← Option.some.inj h]
    · simp at h
  · subst h
    exact ofBytes?_bytes content

theorem Blob.ofBytes_eq_ok_iff {bytes : Bytes} {blob : Blob} :
    ofBytes bytes = .ok blob ↔ bytes = blob.bytes := by
  unfold ofBytes
  refine ⟨fun h => ?_, fun h => ?_⟩
  · split at h
    · rename_i blob' hblob
      rw [FixedBytes.ofBytes?_eq_some_iff.mp hblob, Except.ok.inj h]
    · simp at h
  · subst h
    simp

namespace Sidecar

/-- The blob, the commitment and the proof as strings. -/
def triple (sidecar : Sidecar) : Item × Item × Item :=
  (.bytes sidecar.blob.bytes, .bytes sidecar.commitment.bytes, .bytes sidecar.proof.bytes)

theorem octets48_eq_ok_iff {item : Item} {octets : FixedBytes 48} :
    octets48 item = .ok octets ↔ item = .bytes octets.bytes := by
  simp only [octets48, bind_eq_ok_iff, asBytes_eq_ok_iff]
  refine ⟨fun h => ?_, fun h => ?_⟩
  · obtain ⟨content, rfl, h⟩ := h
    split at h
    · rename_i octets' hoctets
      rw [pure_eq_ok_iff] at h
      rw [FixedBytes.ofBytes?_eq_some_iff.mp hoctets, h]
    · exact absurd h throw_ne_ok
  · subst h
    exact ⟨_, rfl, by simp [pure_eq_ok_iff]⟩

theorem ofTriple_eq_ok_iff {items : Item × Item × Item} {sidecar : Sidecar} :
    ofTriple items = .ok sidecar ↔ items = sidecar.triple := by
  obtain ⟨blob, commitment, proof⟩ := items
  simp only [ofTriple, bind_eq_ok_iff, asBytes_eq_ok_iff, Blob.ofBytes_eq_ok_iff, octets48_eq_ok_iff,
    pure_eq_ok_iff, triple, Prod.mk.injEq]
  refine ⟨fun h => ?_, fun h => ?_⟩
  · obtain ⟨_, ⟨_, rfl, rfl⟩, _, rfl, _, rfl, rfl⟩ := h
    exact ⟨rfl, rfl, rfl⟩
  · obtain ⟨rfl, rfl, rfl⟩ := h
    exact ⟨_, ⟨_, rfl, rfl⟩, _, rfl, _, rfl, rfl⟩

theorem zip_zip_eq_map_iff {α β γ δ : Type} {as : List α} {bs : List β} {cs : List γ} {ds : List δ}
    {f : δ → α × β × γ} (hb : as.length = bs.length) (hc : as.length = cs.length) :
    as.zip (bs.zip cs) = ds.map f ↔
      as = ds.map (fun d => (f d).1) ∧ bs = ds.map (fun d => (f d).2.1) ∧
        cs = ds.map (fun d => (f d).2.2) := by
  refine ⟨fun h => ?_, fun h => ?_⟩
  · have h1 := congrArg (List.map Prod.fst) h
    have h2 := congrArg (List.map Prod.snd) h
    rw [List.map_fst_zip (by simp; omega), List.map_map] at h1
    rw [List.map_snd_zip (by simp; omega), List.map_map] at h2
    have h3 := congrArg (List.map Prod.fst) h2
    have h4 := congrArg (List.map Prod.snd) h2
    rw [List.map_fst_zip (by omega), List.map_map] at h3
    rw [List.map_snd_zip (by omega), List.map_map] at h4
    exact ⟨h1, h3, h4⟩
  · obtain ⟨rfl, rfl, rfl⟩ := h
    rw [List.zip_map', List.zip_map']

/-- The lists beside a transaction are read from their own items only. -/
theorem ofItems_eq_ok_iff {blobs commitments proofs : Item} {sidecars : List Sidecar} :
    ofItems blobs commitments proofs = .ok sidecars ↔ [blobs, commitments, proofs] = toItems sidecars := by
  simp only [ofItems, bind_eq_ok_iff, asList_eq_ok_iff, guard_eq_ok_iff,
    mapM_eq_ok_iff fun _ _ => ofTriple_eq_ok_iff, toItems, List.cons.injEq, and_true]
  refine ⟨fun h => ?_, fun h => ?_⟩
  · obtain ⟨bs, rfl, cs, rfl, ps, rfl, hl, h⟩ := h
    rw [not_or, ne_eq, ne_eq, Decidable.not_not, Decidable.not_not] at hl
    obtain ⟨rfl, rfl, rfl⟩ := (zip_zip_eq_map_iff hl.1 hl.2).mp h
    exact ⟨rfl, rfl, rfl⟩
  · obtain ⟨rfl, rfl, rfl⟩ := h
    refine ⟨_, rfl, _, rfl, _, rfl, by simp, ?_⟩
    rw [zip_zip_eq_map_iff (by simp) (by simp)]
    exact ⟨rfl, rfl, rfl⟩

end Sidecar

end EthWire
