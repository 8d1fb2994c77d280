/-
# Texts are ordered as their octets are

A character with a higher code has a higher first octet, or the first octets are the same, and so on: UTF-8
writes the digits of the code in base 64, the highest first, behind a mark that grows with their number. The
octets of no character continue those of another, so what follows them does not matter, and texts are in the
order of their octets.

Key theorems: `Text.utf8EncodeChar_append_lt`, `Text.octets_lt_octets`.
-/
import EthWire.Text.Basic
import Mathlib.Tactic.SplitIfs

namespace EthWire
namespace Text

theorem lt_iff_digits {m n : Nat} : m < n ↔ m / 64 < n / 64 ∨ m / 64 = n / 64 ∧ m % 64 < n % 64 := by
  omega

theorem ofNat_cons_lt_iff {m n : Nat} (hm : m < 256) (hn : n < 256) {front back : Bytes} :
    UInt8.ofNat m :: front < UInt8.ofNat n :: back ↔ m < n ∨ m = n ∧ front < back := by
  rw [List.cons_lt_cons_iff, UInt8.lt_iff_toNat_lt, ← UInt8.toNat_inj, UInt8.toNat_ofNat', UInt8.toNat_ofNat',
    Nat.mod_eq_of_lt hm, Nat.mod_eq_of_lt hn]

/-- The octets of a character come before those of any later one, whatever follows either. -/
theorem utf8EncodeChar_append_lt {c d : Char} (h : c < d) (front back : Bytes) :
    String.utf8EncodeChar c ++ front < String.utf8EncodeChar d ++ back := by
  have hd : d.val.toNat < 0x110000 := by
    rcases d.valid with hlow | ⟨-, hhigh⟩ <;> omega
  have hlt : c.val.toNat < d.val.toNat := h
  simp only [String.utf8EncodeChar]
  generalize c.val.toNat = m at hlt ⊢
  generalize d.val.toNat = n at hd hlt ⊢
  by_cases hfour : 65535 < m
  · -- four octets each: the codes differ first in one of four digits
    rw [if_neg (by omega), if_neg (by omega), if_neg (by omega), if_neg (by omega), if_neg (by omega),
      if_neg (by omega)]
    simp only [List.cons_append]
    repeat rw [ofNat_cons_lt_iff (by omega) (by omega)]
    rw [lt_iff_digits, lt_iff_digits (m := m / 64), lt_iff_digits (m := m / 64 / 64)] at hlt
    simp only [Nat.div_div_eq_div_mul] at hlt
    rcases hlt with ((hlt | hlt) | hlt) | hlt <;> omega
  · split_ifs
    all_goals
      simp only [List.cons_append, List.nil_append]
      repeat rw [ofNat_cons_lt_iff (by omega) (by omega)]
      omega

theorem utf8EncodeChar_ne_nil (c : Char) : String.utf8EncodeChar c ≠ [] := by
  simp only [String.utf8EncodeChar]
  split_ifs <;> simp

theorem flatMap_utf8EncodeChar_lt : ∀ {cs ds : List Char}, cs < ds →
    cs.flatMap String.utf8EncodeChar < ds.flatMap String.utf8EncodeChar
  | [], d :: ds, _ => by
    obtain ⟨octet, rest, hoctets⟩ := List.exists_cons_of_ne_nil (utf8EncodeChar_ne_nil d)
    rw [List.flatMap_cons, hoctets]
    exact List.nil_lt_cons _ _
  | c :: cs, d :: ds, h => by
    rw [List.flatMap_cons, List.flatMap_cons]
    rcases List.cons_lt_cons_iff.mp h with hcd | ⟨rfl, hrest⟩
    · exact utf8EncodeChar_append_lt hcd _ _
    · exact List.append_left_lt (flatMap_utf8EncodeChar_lt hrest)

/-- A text that comes before another one has octets that come before the other's. -/
theorem octets_lt_octets {text text' : String} (h : text < text') : octets text < octets text' :=
  flatMap_utf8EncodeChar_lt (String.lt_iff.mp h)

end Text
end EthWire
