/-
# Parity and chain id in one number

The value `v` of a legacy transaction holds the parity of its signature, and the chain id as well if the
transaction commits to one: 27 or 28 without a chain id, and from 35 on two values for each chain id. So a
value is split into what it was joined from (`Signature.parseV_eq_ok_some_iff`,
`Signature.eip155V_eq_ok_iff`), and what is below 35 and no bare parity is refused
(`Signature.parseV_eq_error_iff`). Chain ids stop where the larger of their two values would leave 64 bits,
far below the words in which the sum is taken.

Key theorems: `Signature.parseV_eq_ok_some_iff`, `Signature.parseV_eq_ok_none_iff`,
`Signature.parseV_eq_error_iff`, `Signature.eip155V_eq_ok_iff`,
`Signature.values_are_split_as_they_were_joined`.
-/
import EthWire.Proofs.Outcome
import EthWire.Signing.Signature

namespace EthWire
namespace Signature

/-! ### Splitting -/

/-- The values of `v` from 35 on hold a chain id and a parity, and every such pair in range is held by
one value. -/
theorem parseV_eq_ok_some_iff {v chainId : Word} {yParity : Bool} :
    parseV v = .ok (yParity, some chainId) ↔
      v.toNat = 2 * chainId.toNat + if yParity then 36 else 35 := by
  have hv := v.isLt
  unfold parseV
  by_cases h35 : v.toNat < 35
  · constructor
    · intro h
      split at h
      · simp at h
      · split at h
        · simp at h
        · rw [if_pos (by simpa [BitVec.lt_def] using h35)] at h
          simp at h
    · intro h
      cases yParity <;> simp at h <;> omega
  · have h0 : ¬ (v = 0 ∨ v = 27) := by rintro (rfl | rfl) <;> simp at h35
    have h1 : ¬ (v = 1 ∨ v = 28) := by rintro (rfl | rfl) <;> simp at h35
    have h2 : ¬ v < 35 := by simpa [BitVec.lt_def] using h35
    have hoffset : (v - 35).toNat = v.toNat - 35 := by
      rw [BitVec.toNat_sub_of_le (by simpa [BitVec.le_def] using h35)]
      rfl
    have hhalf : ((v - 35) / 2).toNat = (v.toNat - 35) / 2 := by
      rw [BitVec.toNat_udiv, hoffset]
      rfl
    have hodd : ((v - 35) % 2 != 0) = decide ((v.toNat - 35) % 2 = 1) := by
      have hmod : ((v - 35) % 2).toNat = (v.toNat - 35) % 2 := by
        rw [BitVec.toNat_umod, hoffset]
        rfl
      rw [Bool.eq_iff_iff, bne_iff_ne, decide_eq_true_iff, ne_eq, ← BitVec.toNat_inj, hmod,
        show (0 : Word).toNat = 0 from rfl]
      omega
    rw [if_neg h0, if_neg h1, if_neg h2]
    simp only [Except.ok.injEq, Prod.mk.injEq, Option.some.injEq, hodd]
    refine ⟨fun h => ?_, fun h => ?_⟩
    · obtain ⟨rfl, rfl⟩ := h
      rw [hhalf]
      by_cases hp : (v.toNat - 35) % 2 = 1
      · simp only [hp, decide_true, if_true]
        omega
      · simp only [hp, decide_false, Bool.false_eq_true, if_false]
        omega
    · refine ⟨?_, BitVec.eq_of_toNat_eq ?_⟩
      · cases yParity <;> simp at h ⊢ <;> omega
      · rw [hhalf]
        cases yParity <;> simp at h <;> omega

theorem parseV_eq_ok_none_iff {v : Word} {yParity : Bool} :
    parseV v = .ok (yParity, none) ↔
      v.toNat = (if yParity then 1 else 0) ∨ v.toNat = if yParity then 28 else 27 := by
  have hnat : ∀ n : Nat, n < 2 ^ 256 → (v.toNat = n ↔ v = BitVec.ofNat 256 n) := fun n hn => by
    rw [← BitVec.toNat_inj, BitVec.toNat_ofNat, Nat.mod_eq_of_lt hn]
  unfold parseV
  by_cases h0 : v = 0 ∨ v = 27
  · rw [if_pos h0]
    rcases h0 with rfl | rfl <;> cases yParity <;> simp
  · by_cases h1 : v = 1 ∨ v = 28
    · rw [if_neg h0, if_pos h1]
      rcases h1 with rfl | rfl <;> cases yParity <;> simp
    · rw [if_neg h0, if_neg h1]
      have hne : ¬ (v.toNat = (if yParity then 1 else 0) ∨ v.toNat = if yParity then 28 else 27) := by
        rw [not_or] at h0 h1
        cases yParity
        · simpa [hnat] using h0
        · simpa [hnat] using h1
      simp only [hne, iff_false]
      split <;> simp

/-- Only what is below 35 and no bare parity is refused. -/
theorem parseV_eq_error_iff {v : Word} {cause : Error} :
    parseV v = .error cause ↔ cause = .signatureV ∧ v.toNat < 35 ∧ v.toNat ∉ [0, 1, 27, 28] := by
  have hmem : v.toNat ∈ [0, 1, 27, 28] ↔ (v = 0 ∨ v = 27) ∨ v = 1 ∨ v = 28 := by
    simp only [List.mem_cons, List.not_mem_nil, or_false, ← BitVec.toNat_inj]
    change _ ↔ (v.toNat = 0 ∨ v.toNat = 27) ∨ v.toNat = 1 ∨ v.toNat = 28
    omega
  have hsmall : v.toNat < 35 ↔ v < 35 := by
    rw [BitVec.lt_def]
    rfl
  rw [hmem, hsmall, not_or, parseV]
  by_cases h0 : v = 0 ∨ v = 27
  · rw [if_pos h0]
    exact iff_of_false (by simp) fun h => h.2.2.1 h0
  · by_cases h1 : v = 1 ∨ v = 28
    · rw [if_neg h0, if_pos h1]
      exact iff_of_false (by simp) fun h => h.2.2.2 h1
    · rw [if_neg h0, if_neg h1]
      by_cases h35 : v < 35
      · rw [if_pos h35, Except.error.injEq]
        exact ⟨fun h => ⟨h.symm, h35, h0, h1⟩, fun h => h.1.symm⟩
      · rw [if_neg h35]
        exact iff_of_false (by simp) fun h => h35 h.2.1

/-! ### Joining -/

theorem eip155V_eq_ok_iff {signature : Signature} {chainId v : Word} :
    signature.eip155V chainId = .ok v ↔ chainId.toNat < maxChainId ∧
      v.toNat = 2 * chainId.toNat + if signature.yParity then 36 else 35 := by
  simp only [eip155V, ite_error_eq_ok_iff, Except.ok.injEq, Nat.not_le]
  refine and_congr_right fun hc => ?_
  rw [maxChainId] at hc
  have hv : (chainId * 2 + if signature.yParity then 36 else 35).toNat
      = 2 * chainId.toNat + if signature.yParity then 36 else 35 := by
    have hdouble : (chainId * 2).toNat = 2 * chainId.toNat := by
      rw [BitVec.toNat_mul, show (2 : Word).toNat = 2 from rfl, Nat.mod_eq_of_lt (by omega)]
      omega
    rw [BitVec.toNat_add, hdouble]
    cases signature.yParity
    · rw [if_neg (by decide), if_neg (by decide), show (35 : Word).toNat = 35 from rfl,
        Nat.mod_eq_of_lt (by omega)]
    · rw [if_pos rfl, if_pos rfl, show (36 : Word).toNat = 36 from rfl, Nat.mod_eq_of_lt (by omega)]
  rw [← BitVec.toNat_inj, hv]
  exact eq_comm

theorem eip155V_eq_error_iff {signature : Signature} {chainId : Word} {cause : Error} :
    signature.eip155V chainId = .error cause ↔ cause = .networkId ∧ maxChainId ≤ chainId.toNat := by
  rw [eip155V]
  by_cases h : maxChainId ≤ chainId.toNat
  · simp [h, eq_comm]
  · simp [h]

theorem exists_eip155V_iff {signature : Signature} {chainId : Word} :
    (∃ v, signature.eip155V chainId = .ok v) ↔ chainId.toNat < maxChainId := by
  constructor
  · rintro ⟨v, hv⟩
    exact (eip155V_eq_ok_iff.mp hv).1
  · intro h
    exact ⟨_, if_neg (Nat.not_le.mpr h)⟩

/-- **Values are split as they were joined.** A chain id below the bound is split off, with a parity, from
exactly the value that a signature of that parity joins with it, and that value is their exact sum, which
64 bits hold. The values without a chain id are the bare parities, by themselves and from 27 on; every other
value below 35 is refused. Joining fails at the bound and above it, and nowhere else. -/
theorem values_are_split_as_they_were_joined (signature : Signature) (v chainId : Word) :
    (chainId.toNat < maxChainId ∧ parseV v = .ok (signature.yParity, some chainId) ↔
      signature.eip155V chainId = .ok v) ∧
    (signature.eip155V chainId = .ok v ↔ chainId.toNat < maxChainId ∧
      v.toNat = 2 * chainId.toNat + 35 + signature.yParity.toNat ∧ v.toNat < 2 ^ 64) ∧
    (∀ yParity : Bool, parseV v = .ok (yParity, none) ↔
      v.toNat = yParity.toNat ∨ v.toNat = 27 + yParity.toNat) ∧
    (∀ cause, parseV v = .error cause ↔
      cause = .signatureV ∧ v.toNat < 35 ∧ v.toNat ∉ [0, 1, 27, 28]) ∧
    ((∃ joined, signature.eip155V chainId = .ok joined) ↔ chainId.toNat < maxChainId) ∧
    (∀ cause, signature.eip155V chainId = .error cause ↔
      cause = .networkId ∧ maxChainId ≤ chainId.toNat) := by
  refine ⟨?_, ?_, fun yParity => ?_, fun _ => parseV_eq_error_iff, exists_eip155V_iff,
    fun _ => eip155V_eq_error_iff⟩
  · rw [parseV_eq_ok_some_iff, eip155V_eq_ok_iff]
  · rw [eip155V_eq_ok_iff]
    refine and_congr_right fun hlt => ?_
    rw [maxChainId] at hlt
    cases signature.yParity
    · simp only [Bool.false_eq_true, if_false, Bool.toNat_false]
      omega
    · simp only [if_true, Bool.toNat_true]
      omega
  · rw [parseV_eq_ok_none_iff]
    cases yParity <;> rfl

end Signature
end EthWire
