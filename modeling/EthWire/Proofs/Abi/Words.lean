/-
# Words in ABI data are read where they stand

A word, a count and a string behind its length are read back from wherever they were written, whatever
stands in front of them and behind them. This is all that the layout of a sequence needs to know of its
octets.

Key theorems: `Abi.readWord_append`, `Abi.readCount_append`, `Abi.readBytes_withLength_append`.
-/
import EthWire.Abi.Layout
import EthWire.Abi.Reading
import EthWire.Proofs.Outcome
import EthWire.Proofs.Text.Basic

namespace EthWire

namespace Abi

theorem readWord_append (front : Bytes) (word : Word) (rest : Bytes) :
    readWord (front ++ (word.toBytes ++ rest)) front.length = .ok word := by
  have hlen : Bytes.hasAtLeast (front.length + 32) (front ++ (word.toBytes ++ rest)) = true := by
    rw [Bytes.hasAtLeast_iff, List.length_append, List.length_append, Word.length_toBytes]
    omega
  have htake : (word.toBytes ++ rest).take 32 = word.toBytes := by
    rw [← Word.length_toBytes word, List.take_left]
  rw [readWord, if_pos hlen, List.drop_left, htake, Word.ofBytes_toBytes]

theorem readWord_toBytes_append (word : Word) (rest : Bytes) :
    readWord (word.toBytes ++ rest) 0 = .ok word :=
  readWord_append [] word rest

@[simp] theorem length_countWord (n : Nat) : (countWord n).length = 32 :=
  Word.length_toBytes _

theorem readCount_append {n : Nat} (hn : n < 2 ^ 64) (front rest : Bytes) :
    readCount (front ++ (countWord n ++ rest)) front.length = .ok n := by
  have hword : (BitVec.ofNat 256 (n % 2 ^ 64)).toNat = n := by
    rw [BitVec.toNat_ofNat, Nat.mod_eq_of_lt hn, Nat.mod_eq_of_lt (by omega)]
  rw [readCount, countWord, readWord_append]
  simp only [bind, Except.bind, hword]
  rw [if_pos (show n ≤ maxCount by rw [maxCount]; omega)]
  rfl

theorem length_withLength (content : Bytes) :
    (withLength content).length = 32 + (Bytes.padRight content).length := by
  rw [withLength, List.length_append, length_countWord]

theorem length_le_length_padRight (content : Bytes) : content.length ≤ (Bytes.padRight content).length := by
  rw [Bytes.padRight, List.length_append]
  exact Nat.le_add_right _ _

/-- Octets behind their length are read back, whatever follows the padding. -/
theorem readBytes_withLength_append {content : Bytes} (h : content.length < 2 ^ 64) (rest : Bytes) :
    readBytes (withLength content ++ rest) = .ok content := by
  obtain ⟨behind, hbehind⟩ : ∃ behind, Bytes.padRight content ++ rest = content ++ behind :=
    ⟨_, List.append_assoc _ _ _⟩
  have hdata : withLength content ++ rest = countWord content.length ++ (content ++ behind) := by
    rw [withLength, List.append_assoc, hbehind]
  have hcount : readCount (countWord content.length ++ (content ++ behind)) 0 = .ok content.length :=
    readCount_append h [] _
  have hdrop : (countWord content.length ++ (content ++ behind)).drop 32 = content ++ behind := by
    rw [← length_countWord content.length, List.drop_left]
  have hlen : Bytes.hasAtLeast content.length (content ++ behind) = true := by
    rw [Bytes.hasAtLeast_iff, List.length_append]
    exact Nat.le_add_right _ _
  rw [hdata, readBytes, hcount]
  simp only [bind, Except.bind, hdrop]
  rw [if_pos hlen, List.take_left]
  rfl

theorem checkHead_eq_ok_iff {counted : Bool} {headSize : Nat} {region : Bytes} {done : Unit} :
    checkHead counted headSize region = .ok done ↔ counted = true ∧ headSize ≤ region.length := by
  rw [checkHead, ite_error_eq_ok_iff, ite_ok_eq_ok_iff, Bytes.hasAtLeast_iff]
  simp

end Abi
end EthWire
