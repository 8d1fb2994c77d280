/-
# What follows the other fields of a legacy transaction

A legacy transaction ends in nothing, in a chain id and two empty strings, or in a signature whose parity
is folded into one number together with the chain id, if there is one. Below the bound on chain ids the
fold loses nothing, so the three forms are told apart and read back, except that a signature of two zeros
is written like a chain id without a signature.

Key definitions: `Signature.IsBlank`.
Key theorems: `Transaction.legacyV_eq_ok_iff`, `Transaction.legacyTrailer_eq_ok_iff`.
-/
import EthWire.Proofs.Signing.RecoveryValue
import EthWire.Proofs.Transaction.Fields

namespace EthWire

open Rlp (Item)
open Rlp.Item (asBytes_eq_ok_iff toWord_eq_ok_iff)

/-- A signature of two zeros. -/
def Signature.IsBlank (signature : Signature) : Prop :=
  signature.r = 0 ∧ signature.s = 0

namespace Transaction

/-- The number written for a signature, from 27 on, is one that is parsed as its parity and chain id. -/
theorem legacyV_eq_ok_iff {chainId : Option Word} {signature : Signature} {v : Word}
    (hc : ∀ c, chainId = some c → c.toNat < maxChainId) :
    legacyV chainId signature = .ok v ↔
      27 ≤ v.toNat ∧ Signature.parseV v = .ok (signature.yParity, chainId) := by
  cases chainId with
  | none =>
    have hv : (BitVec.ofNat 256 signature.v.toNat).toNat = if signature.yParity then 28 else 27 := by
      rw [Signature.v]
      cases signature.yParity <;> rfl
    rw [legacyV, Except.ok.injEq, Signature.parseV_eq_ok_none_iff, ← BitVec.toNat_inj, hv]
    cases signature.yParity <;> simp <;> omega
  | some c =>
    have := hc c rfl
    rw [legacyV, Signature.eip155V_eq_ok_iff, Signature.parseV_eq_ok_some_iff]
    cases signature.yParity <;> simp <;> omega

/-! ### Behind the other fields -/

theorem isPlaceholder_eq_ok_true_iff {r s : Item} :
    isPlaceholder r s = .ok true ↔ r = .empty ∧ s = .empty := by
  simp only [isPlaceholder, bind_eq_ok_iff, asBytes_eq_ok_iff]
  refine ⟨fun h => ?_, fun h => ?_⟩
  · obtain ⟨content, rfl, h⟩ := h
    by_cases hnil : content = []
    · subst hnil
      simp only [List.isEmpty_nil, if_true, bind_eq_ok_iff, asBytes_eq_ok_iff, pure_eq_ok_iff,
        List.isEmpty_iff] at h
      obtain ⟨_, rfl, rfl⟩ := h
      exact ⟨rfl, rfl⟩
    · rw [if_neg (by simpa using hnil), pure_eq_ok_iff] at h
      simp at h
  · obtain ⟨rfl, rfl⟩ := h
    exact ⟨[], rfl, rfl⟩

theorem ofWord_eq_empty_iff {word : Word} : Item.ofWord word = .empty ↔ word = 0 := by
  have h0 : Item.empty.toWord = .ok 0 := rfl
  rw [eq_comm, ← toWord_eq_ok_iff, h0, Except.ok.injEq, eq_comm]

theorem isPlaceholder_ofWord {r s : Word} (h : ¬ (r = 0 ∧ s = 0)) :
    isPlaceholder (.ofWord r) (.ofWord s) = .ok false := by
  have hok : ∃ blank, isPlaceholder (.ofWord r) (.ofWord s) = .ok blank := by
    simp only [isPlaceholder, Item.ofWord, Item.asBytes, bind, Except.bind]
    split <;> exact ⟨_, rfl⟩
  obtain ⟨blank, hblank⟩ := hok
  cases blank with
  | false => exact hblank
  | true =>
    rw [isPlaceholder_eq_ok_true_iff, ofWord_eq_empty_iff, ofWord_eq_empty_iff] at hblank
    exact absurd hblank h

theorem not_lt_27_iff {word : Word} : ¬ word < 27 ↔ 27 ≤ word.toNat := by
  rw [BitVec.lt_def, Nat.not_lt]
  rfl

/-- The three forms: no items, a chain id in front of two empty strings, and a signature that is not
blank behind its number. -/
theorem legacyTrailer_eq_ok_iff_forms {items : List Item} {chainId : Option Word}
    {signature : Option Signature} :
    legacyTrailer items = .ok (chainId, signature) ↔
      (items = [] ∧ chainId = none ∧ signature = none) ∨
      (∃ c, items = [.ofWord c, .empty, .empty] ∧ chainId = some c ∧ signature = none) ∨
      ∃ v signed, items = [.ofWord v, .ofWord signed.r, .ofWord signed.s] ∧ signature = some signed ∧
        ¬ signed.IsBlank ∧ 27 ≤ v.toNat ∧ Signature.parseV v = .ok (signed.yParity, chainId) := by
  refine ⟨fun h => ?_, fun h => ?_⟩
  · unfold legacyTrailer at h
    split at h
    · rw [Except.ok.injEq, Prod.mk.injEq] at h
      exact .inl ⟨rfl, h.1.symm, h.2.symm⟩
    · right
      simp only [bind_eq_ok_iff, toWord_eq_ok_iff] at h
      obtain ⟨v, rfl, blank, hblank, h⟩ := h
      cases blank with
      | true =>
        obtain ⟨rfl, rfl⟩ := isPlaceholder_eq_ok_true_iff.mp hblank
        rw [if_pos rfl, pure_eq_ok_iff, Prod.mk.injEq] at h
        exact .inl ⟨v, rfl, h.1.symm, h.2.symm⟩
      | false =>
        simp only [Bool.false_eq_true, if_false, guard_eq_ok_iff, not_lt_27_iff, bind_eq_ok_iff,
          toWord_eq_ok_iff, pure_eq_ok_iff, Prod.exists, Prod.mk.injEq] at h
        obtain ⟨hv, yParity, _, hparse, r, rfl, s, rfl, rfl, rfl⟩ := h
        refine .inr ⟨v, ⟨yParity, r, s⟩, rfl, rfl, ?_, hv, hparse⟩
        -- a blank signature would have been taken for the placeholder
        intro h
        obtain ⟨hr, hs⟩ := h
        rw [isPlaceholder_eq_ok_true_iff.mpr
          ⟨ofWord_eq_empty_iff.mpr hr, ofWord_eq_empty_iff.mpr hs⟩] at hblank
        simp at hblank
    · simp at h
  · rcases h with ⟨rfl, rfl, rfl⟩ | ⟨c, rfl, rfl, rfl⟩ | ⟨v, signed, rfl, rfl, hb, hv, hparse⟩
    · rfl
    · simp only [legacyTrailer, bind_eq_ok_iff, toWord_eq_ok_iff]
      exact ⟨c, rfl, true, isPlaceholder_eq_ok_true_iff.mpr ⟨rfl, rfl⟩, rfl⟩
    · simp only [legacyTrailer, bind_eq_ok_iff, toWord_eq_ok_iff]
      refine ⟨v, rfl, false, isPlaceholder_ofWord hb, ?_⟩
      simp only [Bool.false_eq_true, if_false, guard_eq_ok_iff, not_lt_27_iff, bind_eq_ok_iff,
        toWord_eq_ok_iff, pure_eq_ok_iff, Prod.exists, Prod.mk.injEq]
      exact ⟨hv, _, _, hparse, _, rfl, _, rfl, rfl, rfl⟩

/-- The end of a legacy transaction is read from its own items only, for chain ids below the bound
and signatures that are not blank. -/
theorem legacyTrailer_eq_ok_iff {items : List Item} {chainId : Option Word}
    {signature : Option Signature} {gasPrice : Word} {recipient : Option Address}
    (hc : ∀ c, chainId = some c → c.toNat < maxChainId) :
    legacyTrailer items = .ok (chainId, signature) ↔
      trailer (.legacy chainId gasPrice recipient) signature = .ok items ∧
        ∀ signed, signature = some signed → ¬ signed.IsBlank := by
  rw [legacyTrailer_eq_ok_iff_forms]
  cases signature with
  | none => cases chainId <;> simp [trailer, eq_comm]
  | some signed =>
    simp only [trailer, bind_eq_ok_iff, legacyV_eq_ok_iff hc, pure_eq_ok_iff, Option.some.injEq,
      forall_eq', reduceCtorEq, and_false, exists_false, false_or]
    refine ⟨fun h => ?_, fun h => ?_⟩
    · obtain ⟨v, _, rfl, rfl, hb, hv⟩ := h
      exact ⟨⟨v, hv, rfl⟩, hb⟩
    · obtain ⟨⟨v, hv, rfl⟩, hb⟩ := h
      exact ⟨v, signed, rfl, rfl, hb, hv⟩

end Transaction
end EthWire
