/-
# Printed text is parsed as the tree it was printed from

Every tree has its tokens (`Json.Tree.tokens`), and the machine that reads tokens builds the tree from them
again, wherever a value may stand (`Json.Machine.builds`). By induction on the tree: between the items of a
list the machine holds the items so far and waits for a separator, and so it does between the members of an
object. So a text that is cut into the tokens of a tree (`Json.Writes`) is parsed as the tree. Texts are
printed this way from their parts.

Key definitions: `Json.Tree.tokens`, `Json.Writes`.
Key theorems: `Json.Tree.ofTokens?_tokens`, `Json.writes_list`, `Json.writes_object`, `Json.Writes.parse?`.
-/
import EthWire.Proofs.Json.Tokens

namespace EthWire
namespace Json

/-! ### The tokens of a tree -/

namespace Tree

mutual

/-- The tokens of a tree. -/
def tokens : Tree → List Token
  | .null => [.null]
  | .bool b => [.bool b]
  | .number n => [.number n]
  | .string codes => [.string codes]
  | .list items => .openList :: ([.comma].intercalate (itemTokens items) ++ [.closeList])
  | .object members => .openObject :: ([.comma].intercalate (memberTokens members) ++ [.closeObject])

/-- The tokens of the items of a list. -/
def itemTokens : List Tree → List (List Token)
  | [] => []
  | tree :: rest => tree.tokens :: itemTokens rest

/-- The tokens of the members of an object, keys and colons included. -/
def memberTokens : List (List Nat × Tree) → List (List Token)
  | [] => []
  | (key, tree) :: rest => (.string key :: .colon :: tree.tokens) :: memberTokens rest

end

theorem itemTokens_eq_map : ∀ items : List Tree, itemTokens items = items.map tokens
  | [] => rfl
  | tree :: rest => by rw [itemTokens, itemTokens_eq_map rest, List.map_cons]

theorem memberTokens_eq_map : ∀ members : List (List Nat × Tree),
    memberTokens members = members.map fun member => .string member.1 :: .colon :: member.2.tokens
  | [] => rfl
  | (key, tree) :: rest => by rw [memberTokens, memberTokens_eq_map rest, List.map_cons]

end Tree

/-! ### The machine builds the tree -/

namespace Machine

/-- The tokens of the tree put it where a value may stand. -/
def Builds (tree : Tree) : Prop :=
  ∀ (frames : List Frame) (expect : Expect), expect = .value ∨ expect = .firstItem →
    tree.tokens.foldlM step? ⟨frames, expect⟩ = complete? tree frames

section

variable {α : Type} {tokens : α → List Token} {hold : List α → Frame} {frames : List Frame} {first next : Expect}

/-- Rows with commas in between are put one after another where the machine holds rows. -/
theorem foldlM_separated
    (hcomma : ∀ done, step? ⟨hold done :: frames, .separator⟩ .comma = some ⟨hold done :: frames, next⟩) :
    ∀ {rows : List α}, (∀ row ∈ rows, ∀ done expect, expect = next ∨ expect = first →
      (tokens row).foldlM step? ⟨hold done :: frames, expect⟩ = some ⟨hold (row :: done) :: frames, .separator⟩) →
    rows ≠ [] → ∀ done expect, expect = next ∨ expect = first →
      ([.comma].intercalate (rows.map tokens)).foldlM step? ⟨hold done :: frames, expect⟩
        = some ⟨hold (rows.reverse ++ done) :: frames, .separator⟩
  | [], _, hne, _, _, _ => absurd rfl hne
  | [row], hrows, _, done, expect, hexpect => by
    rw [List.map_singleton, List.intercalate_singleton, hrows row List.mem_cons_self done expect hexpect]
    rfl
  | row :: other :: rows, hrows, _, done, expect, hexpect => by
    obtain ⟨hrow, hothers⟩ := List.forall_mem_cons.mp hrows
    have hlater := foldlM_separated hcomma hothers (List.cons_ne_nil _ _) (row :: done) next (.inl rfl)
    rw [List.map_cons] at hlater ⊢
    rw [List.map_cons, List.intercalate_cons_cons, List.append_assoc, List.singleton_append, List.foldlM_append,
      hrow done expect hexpect, Option.bind_eq_bind, Option.bind_some, List.foldlM_cons, hcomma,
      Option.bind_eq_bind, Option.bind_some, hlater, List.reverse_cons (a := row), List.append_assoc,
      List.singleton_append]

end

theorem builds_list {items : List Tree} (h : ∀ item ∈ items, Builds item) : Builds (.list items) := by
  intro frames expect hexpect
  have hopen : step? ⟨frames, expect⟩ .openList = some ⟨.list [] :: frames, .firstItem⟩ := by
    rcases hexpect with rfl | rfl <;> rfl
  rw [Tree.tokens, Tree.itemTokens_eq_map, List.foldlM_cons, hopen, Option.bind_eq_bind, Option.bind_some]
  by_cases hne : items = []
  · subst hne
    exact bind_pure _
  · have hitems : ∀ item ∈ items, ∀ done expect, expect = .value ∨ expect = .firstItem →
        item.tokens.foldlM step? ⟨.list done :: frames, expect⟩
          = some ⟨.list (item :: done) :: frames, .separator⟩ :=
      fun item hitem done expect hexpect => h item hitem (.list done :: frames) expect hexpect
    have hclose : step? ⟨.list items.reverse :: frames, .separator⟩ .closeList
        = complete? (.list items.reverse.reverse) frames := rfl
    rw [List.foldlM_append, foldlM_separated (fun _ => rfl) hitems hne [] .firstItem (.inr rfl), List.append_nil,
      Option.bind_eq_bind, Option.bind_some, List.foldlM_cons, hclose, List.reverse_reverse]
    exact bind_pure _

theorem builds_object {members : List (List Nat × Tree)} (h : ∀ member ∈ members, Builds member.2) :
    Builds (.object members) := by
  intro frames expect hexpect
  have hopen : step? ⟨frames, expect⟩ .openObject = some ⟨.object [] :: frames, .firstKey⟩ := by
    rcases hexpect with rfl | rfl <;> rfl
  rw [Tree.tokens, Tree.memberTokens_eq_map, List.foldlM_cons, hopen, Option.bind_eq_bind, Option.bind_some]
  by_cases hne : members = []
  · subst hne
    exact bind_pure _
  · have hmembers : ∀ member ∈ members, ∀ done expect, expect = .key ∨ expect = .firstKey →
        (.string member.1 :: .colon :: member.2.tokens).foldlM step? ⟨.object done :: frames, expect⟩
          = some ⟨.object (member :: done) :: frames, .separator⟩ := by
      intro member hmember done expect hexpect
      have hkey : step? ⟨.object done :: frames, expect⟩ (.string member.1)
          = some ⟨.keyed done member.1 :: frames, .colon⟩ := by
        rcases hexpect with rfl | rfl <;> rfl
      have hcolon : step? ⟨.keyed done member.1 :: frames, .colon⟩ .colon
          = some ⟨.keyed done member.1 :: frames, .value⟩ := rfl
      rw [List.foldlM_cons, hkey, Option.bind_eq_bind, Option.bind_some, List.foldlM_cons, hcolon,
        Option.bind_eq_bind, Option.bind_some, h member hmember _ _ (.inl rfl)]
      rfl
    have hclose : step? ⟨.object members.reverse :: frames, .separator⟩ .closeObject
        = complete? (.object members.reverse.reverse) frames := rfl
    rw [List.foldlM_append, foldlM_separated (fun _ => rfl) hmembers hne [] .firstKey (.inr rfl), List.append_nil,
      Option.bind_eq_bind, Option.bind_some, List.foldlM_cons, hclose, List.reverse_reverse]
    exact bind_pure _

/-- The machine builds every tree from its tokens. -/
theorem builds : ∀ tree : Tree, Builds tree
  | .null => by
    rintro frames expect (rfl | rfl) <;> exact bind_pure _
  | .bool b => by
    rintro frames expect (rfl | rfl) <;> exact bind_pure _
  | .number n => by
    rintro frames expect (rfl | rfl) <;> exact bind_pure _
  | .string codes => by
    rintro frames expect (rfl | rfl) <;> exact bind_pure _
  | .list items => builds_list fun item _ => builds item
  | .object members => builds_object fun member _ => builds member.2
termination_by tree => sizeOf tree
decreasing_by
  · have hlt := List.sizeOf_lt_of_mem ‹item ∈ items›
    simp only [Tree.list.sizeOf_spec]
    omega
  · have hlt := List.sizeOf_lt_of_mem ‹member ∈ members›
    have hpair : sizeOf member = 1 + sizeOf member.1 + sizeOf member.2 := Prod.mk.sizeOf_spec _ _
    simp only [Tree.object.sizeOf_spec]
    omega

end Machine

theorem Tree.ofTokens?_tokens (tree : Tree) : Tree.ofTokens? tree.tokens = some tree := by
  have hbuilds := Machine.builds tree [] .value (.inl rfl)
  rw [Tree.ofTokens?, Machine.start, hbuilds]
  rfl

/-! ### Texts of trees -/

/-- The text is cut into the tokens of the tree. -/
def Writes (text : String) (tree : Tree) : Prop :=
  CutsInto text.toList tree.tokens

/-- A text of a tree is parsed as the tree. -/
theorem Writes.parse? {text : String} {tree : Tree} (h : Writes text tree) : Tree.parse? text = some tree := by
  have hcut := h [] fun c hc => by cases hc
  have hend : tokensFrom? .between [] = some [] := rfl
  rw [List.append_nil, hend, Option.map_some, List.append_nil] at hcut
  rw [Tree.parse?, tokens?, hcut, Option.bind_eq_bind, Option.bind_some, Tree.ofTokens?_tokens]

theorem writes_quote (text : String) : Writes (quote text) (.string (codesOf text)) :=
  cutsInto_quote text

theorem writes_list {rows : List (String × Tree)} (h : ∀ row ∈ rows, Writes row.1 row.2) :
    Writes (listText (rows.map (·.1))) (.list (rows.map (·.2))) := by
  have hrows : ∀ row ∈ rows.map fun row => (row.1, row.2.tokens), CutsInto row.1.toList row.2 := by
    intro row hrow
    obtain ⟨item, hitem, rfl⟩ := List.mem_map.mp hrow
    exact h item hitem
  have hcut := cutsInto_list hrows
  rw [List.map_map, List.map_map] at hcut
  rw [Writes, Tree.tokens, Tree.itemTokens_eq_map, List.map_map]
  exact hcut

/-- The members of an object have a key, a text and its tree. -/
theorem writes_object {rows : List ((String × String) × Tree)} (h : ∀ row ∈ rows, Writes row.1.2 row.2) :
    Writes (objectText (rows.map (·.1))) (.object (rows.map fun row => (codesOf row.1.1, row.2))) := by
  have hrows : ∀ row ∈ rows.map fun row => (row.1, row.2.tokens), CutsInto row.1.2.toList row.2 := by
    intro row hrow
    obtain ⟨member, hmember, rfl⟩ := List.mem_map.mp hrow
    exact h member hmember
  have hcut := cutsInto_object hrows
  rw [List.map_map, List.map_map] at hcut
  rw [Writes, Tree.tokens, Tree.memberTokens_eq_map, List.map_map]
  exact hcut

end Json
end EthWire
