/-
# Pieces of one size

A string is cut from the left into pieces of one size, of which the last may be shorter. The pieces make up the
string (`Bytes.flatten_blocks`), and whole pieces are cut out again of what they make up
(`Bytes.blocks_flatten`). So there are as many as the size goes into the length, rounded up
(`Bytes.length_blocks`), and each starts behind the ones in front of it (`Bytes.getElem?_blocks`).

Key theorems: `Bytes.flatten_blocks`, `Bytes.blocks_flatten`, `Bytes.length_blocks`, `Bytes.getElem?_blocks`.
-/
import EthWire.Bytes.Basic

namespace EthWire
namespace Bytes

variable {size : Nat}

theorem blocks_cons (size : Nat) (b : UInt8) (rest : Bytes) :
    blocks size (b :: rest) = (b :: rest.take size) :: blocks size (rest.drop size) := by
  rw [blocks]

theorem blocks_of_length_le {b : UInt8} {rest : Bytes} (h : rest.length ≤ size) :
    blocks size (b :: rest) = [b :: rest] := by
  rw [blocks_cons, List.take_of_length_le h, List.drop_eq_nil_of_le h, blocks]

theorem flatten_blocks (size : Nat) (bytes : Bytes) : (blocks size bytes).flatten = bytes := by
  fun_induction blocks size bytes with
  | case1 => rfl
  | case2 b rest ih => rw [List.flatten_cons, ih, List.cons_append, List.take_append_drop]

theorem length_of_mem_blocks {piece bytes : Bytes} {n : Nat} (hlength : bytes.length = n * (size + 1))
    (h : piece ∈ blocks size bytes) : piece.length = size + 1 := by
  induction n generalizing bytes with
  | zero =>
    obtain rfl : bytes = [] := List.eq_nil_of_length_eq_zero (by omega)
    simp [blocks] at h
  | succ n ih =>
    cases bytes with
    | nil => simp [blocks] at h
    | cons b rest =>
      rw [List.length_cons, Nat.succ_mul] at hlength
      rw [blocks_cons] at h
      rcases List.mem_cons.mp h with rfl | hmem
      · simp only [List.length_cons, List.length_take]
        omega
      · exact ih (by rw [List.length_drop]; omega) hmem

/-- Whole pieces are cut out of the string that they make up. -/
theorem blocks_flatten : ∀ {pieces : List Bytes}, (∀ piece ∈ pieces, piece.length = size + 1) →
    blocks size pieces.flatten = pieces
  | [], _ => by rw [List.flatten_nil, blocks]
  | piece :: pieces, h => by
    obtain ⟨hpiece, hpieces⟩ := List.forall_mem_cons.mp h
    have hrest := blocks_flatten hpieces
    cases piece with
    | nil => simp at hpiece
    | cons b rest =>
      have hlength : rest.length = size := Nat.succ.inj hpiece
      rw [List.flatten_cons, List.cons_append, blocks_cons, List.take_left' hlength,
        List.drop_left' hlength, hrest]

/-! ### Their number and places -/

/-- There are as many pieces as the size goes into the length, rounded up. -/
theorem length_blocks (size : Nat) (bytes : Bytes) :
    (blocks size bytes).length = (bytes.length + size) / (size + 1) := by
  fun_induction blocks size bytes with
  | case1 =>
    rw [List.length_nil, List.length_nil, Nat.zero_add]
    exact (Nat.div_eq_of_lt (Nat.lt_succ_self size)).symm
  | case2 b rest ih =>
    rw [List.length_cons, ih, List.length_drop, List.length_cons, Nat.add_assoc, Nat.add_comm 1 size,
      Nat.add_div_right _ (Nat.succ_pos size)]
    by_cases hlast : rest.length ≤ size
    · rw [Nat.sub_eq_zero_of_le hlast, Nat.zero_add, Nat.div_eq_of_lt (Nat.lt_succ_self size),
        Nat.div_eq_of_lt (Nat.lt_succ_of_le hlast)]
    · rw [Nat.sub_add_cancel (Nat.le_of_not_le hlast)]

theorem getElem?_blocks (size : Nat) (bytes : Bytes) (i : Nat) :
    (blocks size bytes)[i]? =
      if i * (size + 1) < bytes.length then some ((bytes.drop (i * (size + 1))).take (size + 1)) else none := by
  induction i generalizing bytes with
  | zero =>
    cases bytes with
    | nil => simp [blocks]
    | cons b rest => simp [blocks_cons]
  | succ i ih =>
    cases bytes with
    | nil => simp [blocks]
    | cons b rest =>
      have hplace : i * (size + 1) < (rest.drop size).length ↔ (i + 1) * (size + 1) < (b :: rest).length := by
        rw [List.length_drop, List.length_cons, Nat.succ_mul]
        omega
      have hdrop : (rest.drop size).drop (i * (size + 1)) = (b :: rest).drop ((i + 1) * (size + 1)) := by
        rw [List.drop_drop, Nat.succ_mul, ← Nat.add_assoc, List.drop_succ_cons, Nat.add_comm]
      rw [blocks_cons, List.getElem?_cons_succ, ih, hdrop]
      simp only [hplace]

end Bytes
end EthWire
