/-
# The text of a type holds the types it reaches

The text of a struct type is its declaration and, in the order of their octets, those of all declared types
that its members lead to, through whatever other types (`Schema.Refers`), each once.

The search for them has found, at each time, a set of types, and has others pending. Its steps are those of
`Schema.Explores`, and every law of it goes by them. It finds no type that nothing pending leads to
(`Schema.Explores.reaches_of_found`). When it ends, every pending type that is declared has been found, and
for each type that the search has found itself, so has been every declared one that the type refers to
(`Schema.Explores.found_of_pending`, `Schema.Explores.found_of_refers`): while a type is found, what it refers
to becomes pending. Starting from nothing found, what is found in the end is closed under reference, so it
holds every type on a path, cycles or not (`Schema.mem_reachable_iff`).

Key definitions: `Schema.Refers`, `Schema.Reaches`, `Schema.Explores`.
Key theorems: `Schema.mem_reachable_iff`, `Schema.pairwise_reachable`,
`Schema.type_text_holds_what_it_reaches`.
-/
import EthWire.Proofs.Json.Dictionary
import EthWire.Proofs.Text.Order
import EthWire.Proofs.TypedData.Encoding
import Mathlib.Data.List.TakeWhile
import Mathlib.Logic.Relation

namespace EthWire
namespace TypedData
namespace Schema

variable {schema : Schema}

/-! ### References -/

/-- A declared type refers to the type of a member, without its array suffixes. -/
def Refers (schema : Schema) (name other : String) : Prop :=
  ∃ members, schema.get? name = some members ∧ ∃ member ∈ members, baseName member.type = other

/-- A type leads to itself, to what it refers to, and so on. -/
def Reaches (schema : Schema) : String → String → Prop :=
  Relation.ReflTransGen schema.Refers

/-! ### The search -/

section

variable {found : Schema} {type : String} {pending : List String}

theorem explore_of_found (h : found.contains (baseName type) = true) :
    explore schema found (type :: pending) = explore schema found pending := by
  rw [explore, dif_pos h]

theorem explore_of_undeclared (hnew : ¬ found.contains (baseName type) = true)
    (h : schema.get? (baseName type) = none) :
    explore schema found (type :: pending) = explore schema found pending := by
  rw [explore, dif_neg hnew]
  split
  · rfl
  · rename_i hget
    rw [h] at hget
    cases hget

theorem explore_of_declared (hnew : ¬ found.contains (baseName type) = true) {members : List Member}
    (h : schema.get? (baseName type) = some members) :
    explore schema found (type :: pending)
      = explore schema (found.insert (baseName type) members) (members.map (·.type) ++ pending) := by
  rw [explore, dif_neg hnew]
  split
  · rename_i hget
    rw [h] at hget
    cases hget
  · rename_i hget
    obtain rfl := Option.some.inj (h.symm.trans hget)
    rfl

end

/-- How a search goes: from what is found and what is pending to what is found in the end. -/
inductive Explores (schema : Schema) : Schema → List String → Schema → Prop
  /-- Nothing is pending. -/
  | done (found : Schema) : Explores schema found [] found
  /-- The first pending type has been found, or is not declared. -/
  | skip {found final : Schema} {type : String} {pending : List String}
      (hold : found.contains (baseName type) = true ∨ schema.contains (baseName type) = false)
      (rest : Explores schema found pending final) : Explores schema found (type :: pending) final
  /-- The first pending type is found, and its members become pending. -/
  | enter {found final : Schema} {type : String} {pending : List String} {members : List Member}
      (hnew : ¬ found.contains (baseName type) = true) (hget : schema.get? (baseName type) = some members)
      (rest : Explores schema (found.insert (baseName type) members) (members.map (·.type) ++ pending) final) :
      Explores schema found (type :: pending) final

theorem explores_explore (found : Schema) (pending : List String) :
    Explores schema found pending (explore schema found pending) := by
  induction found, pending using explore.induct schema with
  | case1 found =>
    rw [explore]
    exact .done found
  | case2 found type pending hfound ih =>
    rw [explore_of_found hfound]
    exact .skip (.inl hfound) ih
  | case3 found type pending hnew hget ih =>
    rw [explore_of_undeclared hnew hget]
    exact .skip (.inr (by rw [Dictionary.contains, hget]; rfl)) ih
  | case4 found type pending hnew members hget ih =>
    rw [explore_of_declared hnew hget]
    exact .enter hnew hget ih

namespace Explores

variable {found final : Schema} {pending : List String}

theorem contains_final (h : Explores schema found pending final) {name : String}
    (hname : found.contains name = true) : final.contains name = true := by
  induction h with
  | done found => exact hname
  | skip _ _ ih => exact ih hname
  | enter _ _ _ ih =>
    apply ih
    rw [Dictionary.contains_insert, hname, Bool.or_true]

/-- Only what something pending leads to is found, besides what was found before. -/
theorem reaches_of_found (h : Explores schema found pending final) {name : String}
    (hname : final.contains name = true) :
    found.contains name = true ∨
      schema.contains name = true ∧ ∃ type ∈ pending, schema.Reaches (baseName type) name := by
  induction h with
  | done found => exact .inl hname
  | @skip found final type pending _ _ ih =>
    refine (ih hname).imp_right fun ⟨hdeclared, other, hother, hreaches⟩ => ?_
    exact ⟨hdeclared, other, List.mem_cons_of_mem type hother, hreaches⟩
  | @enter found final type pending members _ hget _ ih =>
    rcases ih hname with hbefore | ⟨hdeclared, other, hother, hreaches⟩
    · rw [Dictionary.contains_insert, Bool.or_eq_true, beq_iff_eq] at hbefore
      rcases hbefore with rfl | hbefore
      · exact .inr ⟨contains_of_get? hget, type, List.mem_cons_self, .refl⟩
      · exact .inl hbefore
    · refine .inr ⟨hdeclared, ?_⟩
      rcases List.mem_append.mp hother with hlisted | hpending
      · obtain ⟨member, hmember, rfl⟩ := List.mem_map.mp hlisted
        exact ⟨type, List.mem_cons_self, .head ⟨members, hget, member, hmember, rfl⟩ hreaches⟩
      · exact ⟨other, List.mem_cons_of_mem type hpending, hreaches⟩

/-- Every pending type that is declared is found. -/
theorem found_of_pending (h : Explores schema found pending final) {type : String} (hmem : type ∈ pending)
    (hdeclared : schema.contains (baseName type) = true) : final.contains (baseName type) = true := by
  induction h with
  | done found => exact absurd hmem List.not_mem_nil
  | skip hold rest ih =>
    rcases List.mem_cons.mp hmem with rfl | hmem
    · rcases hold with hfound | hundeclared
      · exact rest.contains_final hfound
      · rw [hundeclared] at hdeclared
        cases hdeclared
    · exact ih hmem
  | enter _ _ rest ih =>
    rcases List.mem_cons.mp hmem with rfl | hmem
    · apply rest.contains_final
      rw [Dictionary.contains_insert, beq_self_eq_true, Bool.true_or]
    · exact ih (List.mem_append_right _ hmem)

/-- What a type refers to that the search has found itself is found too, if it is declared. -/
theorem found_of_refers (h : Explores schema found pending final) {name other : String}
    (hname : final.contains name = true) (hnew : ¬ found.contains name = true)
    (hrefers : schema.Refers name other) (hdeclared : schema.contains other = true) :
    final.contains other = true := by
  induction h with
  | done found => exact absurd hname hnew
  | skip _ _ ih => exact ih hname hnew
  | @enter found final type pending members _ hget rest ih =>
    by_cases hsame : name = baseName type
    · -- the type that is found here: what it refers to becomes pending
      subst hsame
      obtain ⟨members', hget', member, hmember, rfl⟩ := hrefers
      obtain rfl := Option.some.inj (hget.symm.trans hget')
      exact rest.found_of_pending (List.mem_append_left _ (List.mem_map_of_mem hmember)) hdeclared
    · apply ih hname
      rw [Dictionary.contains_insert, Bool.or_eq_true, beq_iff_eq]
      exact not_or.mpr ⟨hsame, hnew⟩

theorem pairwise_final (h : Explores schema found pending final) (hfound : (found.map (·.1)).Pairwise (· < ·)) :
    (final.map (·.1)).Pairwise (· < ·) := by
  induction h with
  | done found => exact hfound
  | skip _ _ ih => exact ih hfound
  | enter _ _ _ ih => exact ih (Dictionary.pairwise_insert _ _ hfound)

end Explores

/-! ### The text -/

/-- The declared types that a type leads to are found, and no others. -/
theorem mem_reachable_iff {type other : String} :
    other ∈ schema.reachable type ↔ schema.contains other = true ∧ schema.Reaches (baseName type) other := by
  rw [reachable, ← Dictionary.contains_iff_mem_keys]
  constructor
  · intro h
    rcases (explores_explore [] [type]).reaches_of_found h with hnothing | ⟨hdeclared, start, hstart, hreaches⟩
    · cases hnothing
    · obtain rfl := List.mem_singleton.mp hstart
      exact ⟨hdeclared, hreaches⟩
  · rintro ⟨hdeclared, hreaches⟩
    -- along the path: a type that refers to another one is declared
    induction hreaches with
    | refl => exact (explores_explore [] [type]).found_of_pending List.mem_cons_self hdeclared
    | @tail name other _ hrefers ih =>
      obtain ⟨members, hget, -⟩ := id hrefers
      have hnothing : ¬ Dictionary.contains ([] : Schema) name = true := Bool.false_ne_true
      exact (explores_explore [] [type]).found_of_refers (ih (contains_of_get? hget)) hnothing hrefers hdeclared

theorem pairwise_reachable (schema : Schema) (type : String) : (schema.reachable type).Pairwise (· < ·) :=
  (explores_explore [] [type]).pairwise_final .nil

theorem baseName_of_not_mem {name : String} (h : '[' ∉ name.toList) : baseName name = name := by
  have hall : ∀ c ∈ name.toList, decide (c ≠ '[') = true := by
    intro c hc
    rw [decide_eq_true_iff]
    rintro rfl
    exact h hc
  rw [baseName, List.takeWhile_eq_self_iff.mpr hall, String.ofList_toList]

/-- **The text of a type is its declaration and those of the types that it leads to**: of exactly the other
declared ones, each once, in the ascending order of the octets of their names. Types may refer to themselves
and to each other. -/
theorem type_text_holds_what_it_reaches {schema : Schema} {name : String}
    (hdeclared : schema.contains name = true) (hplain : '[' ∉ name.toList) :
    ∃ others : List String,
      schema.typeText name = .ok (String.join ((name :: others).map schema.declaration)) ∧
      others.Pairwise (fun one other => Text.octets one < Text.octets other) ∧
      ∀ other, other ∈ others ↔ other ≠ name ∧ schema.contains other = true ∧ schema.Reaches name other := by
  refine ⟨(schema.reachable name).filter (· ≠ name), ?_, ?_, fun other => ?_⟩
  · rw [typeText, if_pos hdeclared]
  · exact ((pairwise_reachable schema name).imp Text.octets_lt_octets).filter _
  · rw [List.mem_filter, mem_reachable_iff, baseName_of_not_mem hplain, decide_eq_true_iff, and_comm]

/-- Two types that refer to each other, one of them to itself too, and a third that nothing refers to. -/
def circle : Schema :=
  [("Group", [⟨"members", "Person[]"⟩]),
    ("Person", [⟨"groups", "Group[][3]"⟩, ⟨"best", "Person"⟩, ⟨"name", "string"⟩]),
    ("Stray", [⟨"who", "Person"⟩])]

theorem types_in_a_circle_are_held_once :
    circle.typeText "Person"
      = .ok "Person(Group[][3] groups,Person best,string name)Group(Person[] members)" := by
  have hdeclared : circle.contains "Person" = true := rfl
  obtain ⟨others, htext, hsorted, hmem⟩ := type_text_holds_what_it_reaches hdeclared (by decide)
  have hgroup : "Group" ∈ others :=
    (hmem "Group").mpr ⟨by decide, rfl, .single ⟨_, rfl, ⟨"groups", "Group[][3]"⟩, by decide, by decide⟩⟩
  have hstray : "Stray" ∉ others := by
    intro hother
    obtain ⟨hne, -, hreaches⟩ := (hmem "Stray").mp hother
    obtain hsame | ⟨before, -, members, hget, member, hmember, hbase⟩ := hreaches.cases_tail
    · exact hne hsame
    · obtain ⟨front, back, hsplit, -⟩ := List.lookup_eq_some_iff.mp hget
      have hnone : ∀ entry ∈ circle, ∀ member ∈ entry.2, baseName member.type ≠ "Stray" := by decide
      exact hnone (before, members) (hsplit ▸ List.mem_append_right _ List.mem_cons_self) member hmember hbase
  have honly : ∀ other ∈ others, other = "Group" := by
    intro other hother
    obtain ⟨hne, hknown, -⟩ := (hmem other).mp hother
    have hkeys : other = "Group" ∨ other = "Person" ∨ other = "Stray" := by
      simpa [circle] using Dictionary.contains_iff_mem_keys.mp hknown
    rcases hkeys with rfl | rfl | rfl
    · rfl
    · exact absurd rfl hne
    · exact absurd hother hstray
  have hothers : others = ["Group"] := by
    have hnodup : others.Nodup := by
      refine hsorted.imp fun hlt => ?_
      rintro rfl
      exact List.lt_irrefl _ hlt
    have hone : ["Group"].Nodup := List.pairwise_singleton _ _
    refine List.perm_singleton.mp ((List.perm_ext_iff_of_nodup hnodup hone).mpr fun other => ?_)
    rw [List.mem_singleton]
    exact ⟨honly other, fun hsame => hsame ▸ hgroup⟩
  rw [htext, hothers]
  rfl

end Schema
end TypedData
end EthWire
