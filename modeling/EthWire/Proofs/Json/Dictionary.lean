/-
# Dictionaries are kept in order

The keys of a dictionary are in ascending order and distinct, and they stay so with every value that is
inserted. So pairs that are in order make up a dictionary as they stand: putting a dictionary together from
its own entries gives it back, and every entry is one of the pairs it was put together from.

Key theorems: `Dictionary.pairwise_insert`, `Dictionary.pairwise_ofList`, `Dictionary.ofList_of_pairwise`,
`Dictionary.mem_of_mem_ofList`.
-/
import EthWire.Json.Value

namespace EthWire
namespace Dictionary

variable {α : Type}

theorem contains_iff_mem_keys {key : String} {dict : Dictionary α} :
    dict.contains key = true ↔ key ∈ dict.map (·.1) := by
  rw [contains, get?, List.lookup_isSome_iff, List.mem_map]
  exact exists_congr fun entry => and_congr_right fun _ => by rw [beq_iff_eq, eq_comm]

theorem mem_of_get? {key : String} {value : α} {dict : Dictionary α} (h : dict.get? key = some value) :
    (key, value) ∈ dict := by
  obtain ⟨front, back, hsplit, -⟩ := List.lookup_eq_some_iff.mp h
  exact hsplit ▸ List.mem_append_right _ List.mem_cons_self

theorem mem_keys_insert {key other : String} {value : α} {dict : Dictionary α} :
    other ∈ (insert key value dict).map (·.1) ↔ other = key ∨ other ∈ dict.map (·.1) := by
  rw [← contains_iff_mem_keys, contains_insert, Bool.or_eq_true, beq_iff_eq, contains_iff_mem_keys]

/-- The keys stay in ascending order. -/
theorem pairwise_insert (key : String) (value : α) : ∀ {dict : Dictionary α},
    (dict.map (·.1)).Pairwise (· < ·) → ((insert key value dict).map (·.1)).Pairwise (· < ·)
  | [], _ => List.pairwise_singleton _ _
  | (k, v) :: rest, h => by
    rw [List.map_cons, List.pairwise_cons] at h
    obtain ⟨hfirst, hrest⟩ := h
    rw [insert]
    split
    · rename_i hlt
      rw [List.map_cons, List.map_cons, List.pairwise_cons, List.pairwise_cons, List.forall_mem_cons]
      exact ⟨⟨hlt, fun other hother => String.lt_trans hlt (hfirst other hother)⟩, hfirst, hrest⟩
    · rename_i hge
      split
      · rename_i hsame
        rw [List.map_cons, List.pairwise_cons, hsame]
        exact ⟨hfirst, hrest⟩
      · rename_i hne
        have hlt : k < key := Std.lt_of_le_of_ne hge (Ne.symm hne)
        rw [List.map_cons, List.pairwise_cons]
        refine ⟨fun other hother => ?_, pairwise_insert key value hrest⟩
        rcases mem_keys_insert.mp hother with rfl | hold
        · exact hlt
        · exact hfirst other hold

/-! ### Dictionaries from pairs -/

theorem mem_of_mem_insert {key : String} {value : α} {entry : String × α} : ∀ {dict : Dictionary α},
    entry ∈ insert key value dict → entry = (key, value) ∨ entry ∈ dict
  | [], h => .inl (List.mem_singleton.mp h)
  | (k, v) :: rest, h => by
    rw [insert] at h
    split at h
    · exact List.mem_cons.mp h
    split at h
    · exact (List.mem_cons.mp h).imp_right (List.mem_cons_of_mem _)
    · rcases List.mem_cons.mp h with rfl | h
      · exact .inr List.mem_cons_self
      · exact (mem_of_mem_insert h).imp_right (List.mem_cons_of_mem _)

theorem insert_of_forall_lt {key : String} {value : α} : ∀ {dict : Dictionary α},
    (∀ other ∈ dict.map (·.1), other < key) → insert key value dict = dict ++ [(key, value)]
  | [], _ => rfl
  | (k, v) :: rest, h => by
    rw [List.map_cons, List.forall_mem_cons] at h
    obtain ⟨hk, hrest⟩ := h
    have hgreater : ¬ key < k := String.lt_asymm hk
    have hother : key ≠ k := fun hsame => String.lt_irrefl k (hsame ▸ hk)
    rw [insert, if_neg hgreater, if_neg hother, insert_of_forall_lt hrest, List.cons_append]

theorem foldl_insert_of_pairwise : ∀ {pairs dict : Dictionary α}, ((dict ++ pairs).map (·.1)).Pairwise (· < ·) →
    pairs.foldl (fun dict pair => insert pair.1 pair.2 dict) dict = dict ++ pairs
  | [], dict, _ => by rw [List.foldl_nil, List.append_nil]
  | pair :: pairs, dict, h => by
    have hlast : ∀ other ∈ dict.map (·.1), other < pair.1 := by
      rw [List.map_append, List.map_cons, List.pairwise_append] at h
      exact fun other hother => h.2.2 other hother pair.1 List.mem_cons_self
    have hlater : ((dict ++ [(pair.1, pair.2)] ++ pairs).map (·.1)).Pairwise (· < ·) := by
      rw [List.append_assoc, List.singleton_append]
      exact h
    rw [List.foldl_cons, insert_of_forall_lt hlast, foldl_insert_of_pairwise hlater, List.append_assoc,
      List.singleton_append]

/-- Pairs in order are the dictionary that they make up. -/
theorem ofList_of_pairwise {pairs : Dictionary α} (h : (pairs.map (·.1)).Pairwise (· < ·)) : ofList pairs = pairs :=
  foldl_insert_of_pairwise h

/-- What every insertion keeps, and what the empty dictionary has, the dictionary has. -/
theorem ofList_induction {motive : Dictionary α → Prop} {pairs : List (String × α)} (hnil : motive [])
    (hinsert : ∀ dict, motive dict → ∀ pair ∈ pairs, motive (insert pair.1 pair.2 dict)) : motive (ofList pairs) :=
  List.foldlRecOn pairs _ hnil hinsert

theorem pairwise_ofList (pairs : List (String × α)) : ((ofList pairs).map (·.1)).Pairwise (· < ·) :=
  ofList_induction (motive := fun dict => (dict.map (·.1)).Pairwise (· < ·)) .nil
    fun _ hdict pair _ => pairwise_insert pair.1 pair.2 hdict

theorem mem_of_mem_ofList {pairs : List (String × α)} {entry : String × α} (h : entry ∈ ofList pairs) :
    entry ∈ pairs := by
  refine ofList_induction (motive := fun dict => entry ∈ dict → entry ∈ pairs) ?_ ?_ h
  · exact fun hnone => absurd hnone List.not_mem_nil
  · intro dict hdict pair hpair hentry
    rcases mem_of_mem_insert hentry with rfl | hold
    · exact hpair
    · exact hdict hold

end Dictionary
end EthWire
