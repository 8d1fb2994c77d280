/-
# Big-endian digits determine the octets

Octet strings of one length are equal when they are the digits of one number (`ofBigEndian_inj`).
Shorter strings than a width come back from it behind zeros (`toBigEndian_ofBigEndian`), and once the
zeros in front are cut, as the conventions for numbers demand, nothing is lost: a string without a
leading zero is the only one of its number (`significant_toBigEndian_ofBigEndian`).

Key theorems: `Bytes.ofBigEndian_inj`, `Bytes.toBigEndian_ofBigEndian`,
`Bytes.significant_toBigEndian_ofBigEndian`, `Bytes.ofBigEndian_significant_toBigEndian`.
-/
import EthWire.Bytes.Basic

namespace EthWire
namespace Bytes

/-! ### Digits -/

/-- Of two strings of one length only equal ones are the digits of one number. -/
theorem ofBigEndian_inj : ∀ {a b : Bytes}, a.length = b.length → ofBigEndian a = ofBigEndian b → a = b
  | [], [], _, _ => rfl
  | x :: a, y :: b, hl, h => by
    have hl' : a.length = b.length := by simpa using hl
    rw [ofBigEndian_cons, ofBigEndian_cons, hl'] at h
    have ha : ofBigEndian a < 256 ^ b.length := hl' ▸ ofBigEndian_lt a
    have hb := ofBigEndian_lt b
    have hx : x.toNat = y.toNat := by
      have hq := congrArg (· / 256 ^ b.length) h
      simp only [Nat.mul_comm _ (256 ^ b.length), Nat.mul_add_div (Nat.pow_pos (by decide : 0 < 256)),
        Nat.div_eq_of_lt ha, Nat.div_eq_of_lt hb] at hq
      simpa using hq
    rw [hx] at h
    rw [UInt8.toNat_inj.mp hx, ofBigEndian_inj hl' (Nat.add_left_cancel h)]

theorem ofBigEndian_replicate_append : ∀ (n : Nat) (bytes : Bytes),
    ofBigEndian (List.replicate n 0 ++ bytes) = ofBigEndian bytes
  | 0, _ => rfl
  | n + 1, bytes => by
    rw [List.replicate_succ, List.cons_append, ofBigEndian_cons, ofBigEndian_replicate_append n]
    simp

/-- Writing what was read gives the octets back, behind zeros up to the width. -/
theorem toBigEndian_ofBigEndian {width : Nat} {bytes : Bytes} (h : bytes.length ≤ width) :
    toBigEndian width (ofBigEndian bytes) = padLeft width bytes := by
  have hlt : ofBigEndian bytes < 256 ^ width :=
    Nat.lt_of_lt_of_le (ofBigEndian_lt bytes) (Nat.pow_le_pow_right (by decide) h)
  apply ofBigEndian_inj
  · simp only [length_toBigEndian, padLeft, List.length_append, List.length_replicate]
    omega
  · rw [ofBigEndian_toBigEndian, Nat.mod_eq_of_lt hlt, padLeft, ofBigEndian_replicate_append]

theorem toBigEndian_ofBigEndian_length (bytes : Bytes) :
    toBigEndian bytes.length (ofBigEndian bytes) = bytes := by
  simp [toBigEndian_ofBigEndian, padLeft]

/-! ### Cutting the zeros in front -/

theorem significant_replicate_append : ∀ (n : Nat) (bytes : Bytes),
    significant (List.replicate n 0 ++ bytes) = significant bytes
  | 0, _ => rfl
  | n + 1, bytes => by
    rw [List.replicate_succ, List.cons_append, significant, List.dropWhile_cons_of_pos (by simp)]
    exact significant_replicate_append n bytes

theorem exists_replicate_significant : ∀ bytes : Bytes,
    ∃ n, bytes = List.replicate n 0 ++ significant bytes
  | [] => ⟨0, rfl⟩
  | b :: rest => by
    by_cases hb : b = 0
    · obtain ⟨n, hn⟩ := exists_replicate_significant rest
      refine ⟨n + 1, ?_⟩
      rw [List.replicate_succ, List.cons_append, significant, List.dropWhile_cons_of_pos (by simp [hb]),
        hb]
      exact congrArg _ hn
    · exact ⟨0, by simp [significant, hb]⟩

theorem head?_significant (bytes : Bytes) : (significant bytes).head? ≠ some 0 := by
  intro h
  have := List.head?_dropWhile_not (· == (0 : UInt8)) bytes
  rw [significant] at h
  simp [h] at this

theorem length_significant_le (bytes : Bytes) : (significant bytes).length ≤ bytes.length :=
  (List.dropWhile_suffix _).length_le

theorem significant_of_head? {bytes : Bytes} (h : bytes.head? ≠ some 0) : significant bytes = bytes := by
  cases bytes with
  | nil => rfl
  | cons b rest =>
    have hb : b ≠ 0 := by simpa using h
    simp [significant, hb]

theorem ofBigEndian_significant (bytes : Bytes) : ofBigEndian (significant bytes) = ofBigEndian bytes := by
  obtain ⟨n, hn⟩ := exists_replicate_significant bytes
  have h := congrArg ofBigEndian hn
  rw [ofBigEndian_replicate_append] at h
  exact h.symm

/-- The significant octets determine a number of at most so many octets. -/
theorem ofBigEndian_significant_toBigEndian {width n : Nat} (h : n < 256 ^ width) :
    ofBigEndian (significant (toBigEndian width n)) = n := by
  rw [ofBigEndian_significant, ofBigEndian_toBigEndian, Nat.mod_eq_of_lt h]

/-- A string without a leading zero is the only one of its number. -/
theorem significant_toBigEndian_ofBigEndian {width : Nat} {bytes : Bytes}
    (hl : bytes.length ≤ width) (h0 : bytes.head? ≠ some 0) :
    significant (toBigEndian width (ofBigEndian bytes)) = bytes := by
  rw [toBigEndian_ofBigEndian hl, padLeft, significant_replicate_append, significant_of_head? h0]

end Bytes
end EthWire
