/-
# What is read is what would be written

The reader accepts canonical encodings only. One item takes exactly the octets of its encoding from the
front of the input (`exists_encode_of_readItem`), by induction on the levels that the reader may still
go down: the header is that of a frame, and the items of a list use up its payload, which is therefore
the encoding of those items (`encodeAll_of_readRun`). Nothing depends on how the item was found, so the
law holds at every nesting level, and two octet strings never give one item.

Key theorems: `Rlp.readItem_frame`, `Rlp.encodeAll_of_readRun`, `Rlp.exists_encode_of_readItem`,
`Rlp.accepted_octets_are_canonical`.
-/
import EthWire.Proofs.Rlp.Frame
import Mathlib.Data.List.Basic

namespace EthWire
namespace Rlp

/-! ### One item -/

theorem exists_append_payload (isList : Bool) (payload : Bytes) :
    ∃ front, frame isList payload = front ++ payload := by
  by_cases hbare : IsBare isList payload
  · obtain ⟨rfl, b, rfl, hb⟩ := hbare
    exact ⟨[], frame_of_bare hb⟩
  · exact ⟨_, frame_of_not_bare hbare⟩

theorem readItem_frame (levels : Nat) {isList : Bool} {payload : Bytes} (h : payload.length < 2 ^ 64)
    (rest : Bytes) :
    readItem (levels + 1) (frame isList payload ++ rest)
      = (if isList then (readRun (readItem levels) payload).map Item.list
          else .ok (.bytes payload)).map fun item => (item, (frame isList payload).length) := by
  obtain ⟨front, hf⟩ := exists_append_payload isList payload
  have hoffset : (frame isList payload).length - payload.length = front.length := by simp [hf]
  have hused : front.length + payload.length = (frame isList payload).length := by simp [hf]
  have hpayload : ((frame isList payload ++ rest).drop front.length).take payload.length = payload := by
    rw [hf, List.append_assoc, List.drop_left, List.take_left]
  rw [readItem, readHeader_frame h, hoffset]
  simp only [bind, Except.bind, hpayload, hused]
  cases isList with
  | false => rfl
  | true => cases readRun (readItem levels) payload <;> rfl

/-! ### Items one after another -/

theorem readRun_cons_eq_ok_iff {read : Bytes → Except Error (Item × Nat)} {b : UInt8} {rest : Bytes}
    {items : List Item} :
    readRun read (b :: rest) = .ok items ↔
      ∃ item used tail, read (b :: rest) = .ok (item, used + 1) ∧
        readRun read (rest.drop used) = .ok tail ∧ items = item :: tail := by
  rw [readRun]
  simp only [bind_eq_ok_iff]
  refine ⟨fun h => ?_, fun h => ?_⟩
  · obtain ⟨⟨item, used⟩, hread, h⟩ := h
    cases used with
    | zero => exact absurd h throw_ne_ok
    | succ used =>
      simp only [bind_eq_ok_iff, pure_eq_ok_iff] at h
      obtain ⟨tail, htail, rfl⟩ := h
      exact ⟨item, used, tail, hread, htail, rfl⟩
  · obtain ⟨item, used, tail, hread, htail, rfl⟩ := h
    exact ⟨(item, used + 1), hread, by simp only [bind_eq_ok_iff, pure_eq_ok_iff]; exact ⟨tail, htail, rfl⟩⟩

/-- Where one item takes the octets of its encoding, the items that use up the input have the input as
their encoding. -/
theorem encodeAll_of_readRun {read : Bytes → Except Error (Item × Nat)}
    (hread : ∀ input item used, read input = .ok (item, used) →
      ∃ rest, input = encode item ++ rest ∧ used = (encode item).length) :
    ∀ (input : Bytes) (items : List Item), readRun read input = .ok items → encodeAll items = input
  | [], items, h => by
    rw [readRun, Except.ok.injEq] at h
    rw [← h, encodeAll]
  | b :: rest, items, h => by
    obtain ⟨item, used, tail, hitem, htail, rfl⟩ := readRun_cons_eq_ok_iff.mp h
    obtain ⟨back, hback, hused⟩ := hread _ _ _ hitem
    have ih := encodeAll_of_readRun hread (rest.drop used) tail htail
    have hdrop : rest.drop used = back := by
      have : (b :: rest).drop (used + 1) = back := by rw [hback, hused, List.drop_left]
      simpa using this
    rw [encodeAll, ih, hdrop, hback]
termination_by input => input.length
decreasing_by simp only [List.length_drop, List.length_cons]; omega

/-- An item takes exactly its encoding from the front of the input. -/
theorem exists_encode_of_readItem : ∀ (levels : Nat) (input : Bytes) (item : Item) (used : Nat),
    readItem levels input = .ok (item, used) →
    ∃ rest, input = encode item ++ rest ∧ used = (encode item).length
  | 0, _, _, _, h => by simp [readItem] at h
  | levels + 1, input, item, used, h => by
    -- the header is that of a frame, and then the reader sees the payload only
    have hhead : ∃ header, readHeader input = .ok header := by
      rw [readItem, bind_eq_ok_iff] at h
      obtain ⟨header, hheader, -⟩ := h
      exact ⟨header, hheader⟩
    obtain ⟨header, hheader⟩ := hhead
    obtain ⟨payload, rest, hlt, rfl⟩ := exists_frame_of_readHeader hheader
    rw [readItem_frame levels hlt, map_eq_ok_iff] at h
    obtain ⟨item', hitem, hpair⟩ := h
    obtain ⟨rfl, rfl⟩ := Prod.mk.inj hpair
    have hframe : frame header.isList payload = encode item' := by
      cases hl : header.isList with
      | false =>
        rw [hl, if_neg (by decide), Except.ok.injEq] at hitem
        rw [← hitem, encode_eq_frame]
        rfl
      | true =>
        rw [hl, if_pos rfl, map_eq_ok_iff] at hitem
        obtain ⟨items, hitems, rfl⟩ := hitem
        have := encodeAll_of_readRun (exists_encode_of_readItem levels) payload items hitems
        rw [encode_eq_frame, Item.payload, this]
        rfl
    exact ⟨rest, by rw [hframe], by rw [hframe]⟩

theorem decodeFront_eq_ok_iff {input : Bytes} {item : Item} {rest : Bytes} :
    decodeFront input = .ok (item, rest) ↔
      ∃ used, readItem maxLevels input = .ok (item, used) ∧ rest = input.drop used := by
  simp only [decodeFront, bind_eq_ok_iff, pure_eq_ok_iff]
  refine ⟨fun h => ?_, fun h => ?_⟩
  · obtain ⟨⟨item', used⟩, hread, h⟩ := h
    obtain ⟨rfl, rfl⟩ := Prod.mk.inj h
    exact ⟨used, hread, rfl⟩
  · obtain ⟨used, hread, rfl⟩ := h
    exact ⟨(item, used), hread, rfl⟩

theorem encode_append_of_decodeFront {input : Bytes} {item : Item} {rest : Bytes}
    (h : decodeFront input = .ok (item, rest)) : encode item ++ rest = input := by
  obtain ⟨used, hread, rfl⟩ := decodeFront_eq_ok_iff.mp h
  obtain ⟨rest, rfl, rfl⟩ := exists_encode_of_readItem _ _ _ _ hread
  rw [List.drop_left]

theorem decode_eq_ok_iff_decodeFront {input : Bytes} {item : Item} :
    decode input = .ok item ↔ decodeFront input = .ok (item, []) := by
  simp only [decode, bind_eq_ok_iff]
  refine ⟨fun h => ?_, fun h => ?_⟩
  · obtain ⟨⟨item', rest⟩, hfront, h⟩ := h
    by_cases hrest : rest = []
    · subst hrest
      simp only [List.isEmpty_nil, if_true, pure_eq_ok_iff] at h
      rw [hfront, h]
    · simp only [List.isEmpty_iff, hrest, if_false] at h
      exact absurd h throw_ne_ok
  · exact ⟨_, h, by simp [pure_eq_ok_iff]⟩

theorem encode_of_decode {input : Bytes} {item : Item} (h : decode input = .ok item) :
    encode item = input := by
  simpa using encode_append_of_decodeFront (decode_eq_ok_iff_decodeFront.mp h)

theorem encodeAll_of_decodeAll {input : Bytes} {items : List Item} (h : decodeAll input = .ok items) :
    encodeAll items = input := by
  unfold decodeAll at h
  split at h
  · simp at h
  · exact encodeAll_of_readRun (exists_encode_of_readItem maxLevels) input items h

/-- **Accepted octets are canonical.** What the reader takes for one item, or for a series of items, is
the encoding of it, also in front of other octets; so no two octet strings stand for the same. -/
theorem accepted_octets_are_canonical (input : Bytes) :
    (∀ item, decode input = .ok item → encode item = input ∧
      ∀ other, decode other = .ok item → other = input) ∧
    (∀ items, decodeAll input = .ok items → encodeAll items = input ∧
      ∀ other, decodeAll other = .ok items → other = input) ∧
    ∀ levels item used, readItem levels input = .ok (item, used) → encode item = input.take used := by
  refine ⟨fun item h => ?_, fun items h => ?_, fun levels item used h => ?_⟩
  · have hi := encode_of_decode h
    exact ⟨hi, fun other ho => by rw [← hi, ← encode_of_decode ho]⟩
  · have hi := encodeAll_of_decodeAll h
    exact ⟨hi, fun other ho => by rw [← hi, ← encodeAll_of_decodeAll ho]⟩
  · obtain ⟨rest, rfl, rfl⟩ := exists_encode_of_readItem levels input item used h
    rw [List.take_left]

/-- A list with a long header that holds a string with a long header, and the same list in front of an
empty string. -/
theorem long_headers_are_canonical :
    encode (.list [.bytes (List.replicate 56 0x61)])
        = [0xf8, 0x3a, 0xb8, 0x38] ++ List.replicate 56 0x61 ∧
      encodeAll [.list [.bytes (List.replicate 56 0x61)], .empty]
        = [0xf8, 0x3a, 0xb8, 0x38] ++ List.replicate 56 0x61 ++ [0x80] ∧
      encode (.list [.bytes (List.replicate 56 0x61)])
        = ([0xf8, 0x3a, 0xb8, 0x38] ++ List.replicate 56 0x61 ++ [0x80] : Bytes).take 60 := by
  have hone : decode ([0xf8, 0x3a, 0xb8, 0x38] ++ List.replicate 56 0x61)
      = .ok (.list [.bytes (List.replicate 56 0x61)]) := by cbv
  have hall : decodeAll ([0xf8, 0x3a, 0xb8, 0x38] ++ List.replicate 56 0x61 ++ [0x80])
      = .ok [.list [.bytes (List.replicate 56 0x61)], .empty] := by cbv
  have hitem : readItem 2 ([0xf8, 0x3a, 0xb8, 0x38] ++ List.replicate 56 0x61 ++ [0x80])
      = .ok (.list [.bytes (List.replicate 56 0x61)], 60) := by cbv
  exact ⟨((accepted_octets_are_canonical _).1 _ hone).1,
    ((accepted_octets_are_canonical _).2.1 _ hall).1,
    (accepted_octets_are_canonical _).2.2 _ _ _ hitem⟩

end Rlp
end EthWire
