/-
# Nodes of names

The node of a name is found from the right: the last label is hashed with zero, and each label in front of others
with the node of these (`Name.nodeOf_cons`). So a name is one more label than the name behind its first point,
and its node hashes that name's node (`Name.node_append`).

A label may be written as its digest in brackets. Such a label has no point in it, so the name is cut at the same
places, and it is read as the digest that it holds, also where that is the zero of an empty label
(`Name.labelDigest_encoded`). So the node does not tell which labels were written in this way.

Key definitions: `Name.labels`, `Name.joined`, `Name.encoded`, `Name.Respells`.
Key theorems: `Name.node_append`, `Name.labelDigest_encoded`, `Name.node_joined_of_respells`,
`Name.encoded_labels_have_the_same_node`.
-/
import EthWire.Name
import EthWire.Proofs.Text.HexReader
import Mathlib.Data.List.Forall2

namespace EthWire

namespace Name

/-! ### Labels -/

/-- The labels of a name, from the left. -/
def labels (name : String) : List String :=
  (Text.splitWhere (· == '.') name.toList).map String.ofList

/-- The name of these labels. -/
def joined (labels : List String) : String :=
  ".".intercalate labels

theorem map_toList_labels (name : String) : (labels name).map String.toList = name.toList.splitOn '.' := by
  have hback : String.toList ∘ String.ofList = id := by
    funext chars
    exact String.toList_ofList
  rw [labels, List.map_map, hback, List.map_id, Text.splitWhere_eq_splitOnP]
  rfl

theorem labels_ne_nil (name : String) : labels name ≠ [] := by
  unfold labels
  rw [ne_eq, List.map_eq_nil_iff]
  exact Text.splitWhere_ne_nil _ _

theorem not_mem_of_mem_labels {name label : String} (h : label ∈ labels name) : '.' ∉ label.toList := by
  obtain ⟨piece, hpiece, rfl⟩ := List.mem_map.mp h
  rw [String.toList_ofList]
  intro hmem
  have hno := Text.eq_false_of_mem_splitWhere hpiece '.' hmem
  cases hno

theorem joined_labels (name : String) : joined (labels name) = name := by
  rw [← String.toList_inj, joined, String.toList_intercalate, map_toList_labels]
  exact List.intercalate_splitOn '.'

/-- Labels without points are found again in the name that they make up. -/
theorem labels_joined {all : List String} (hne : all ≠ []) (h : ∀ label ∈ all, '.' ∉ label.toList) :
    labels (joined all) = all := by
  rw [← List.map_inj_right fun _ _ => String.toList_inj.mp, map_toList_labels, joined, String.toList_intercalate]
  apply List.splitOn_intercalate '.'
  · exact List.forall_mem_map.mpr h
  · rw [ne_eq, List.map_eq_nil_iff]
    exact hne

theorem labels_of_not_mem {label : String} (h : '.' ∉ label.toList) : labels label = [label] := by
  have hjoined : joined [label] = label := String.intercalate_singleton
  have hlabels := labels_joined (List.cons_ne_nil label []) (List.forall_mem_singleton.mpr h)
  rwa [hjoined] at hlabels

theorem joined_cons {label : String} {others : List String} (hne : others ≠ []) :
    joined (label :: others) = label ++ "." ++ joined others := by
  obtain ⟨next, rest, rfl⟩ := List.exists_cons_of_ne_nil hne
  rw [← String.toList_inj, joined, joined, String.toList_append, String.toList_append, String.toList_intercalate,
    String.toList_intercalate, List.map_cons, List.map_cons, List.intercalate_cons_cons]

theorem labels_append {label : String} (h : '.' ∉ label.toList) (name : String) :
    labels (label ++ "." ++ name) = label :: labels name := by
  have hne := labels_ne_nil name
  have hall : ∀ other ∈ label :: labels name, '.' ∉ other.toList :=
    List.forall_mem_cons.mpr ⟨h, fun _ => not_mem_of_mem_labels⟩
  have hname := @joined_cons label _ hne
  rw [joined_labels] at hname
  rw [← hname, labels_joined (List.cons_ne_nil _ _) hall]

/-! ### Nodes -/

/-- The node of the name of these labels. -/
def nodeOf (all : List String) : Except Error Word :=
  all.foldrM (fun label parent => child parent label) 0

theorem nodeOf_cons (label : String) (others : List String) :
    nodeOf (label :: others) = nodeOf others >>= fun parent => child parent label :=
  List.foldrM_cons

theorem node_eq_nodeOf {name : String} (h : name ≠ "") : node name = nodeOf (labels name) := by
  have hempty : name.isEmpty = false := by
    simpa using h
  rw [node, hempty, nodeOf, ← List.foldlM_reverse]
  rfl

theorem node_of_not_mem {label : String} (h : '.' ∉ label.toList) (hne : label ≠ "") : node label = child 0 label := by
  rw [node_eq_nodeOf hne, labels_of_not_mem h, nodeOf_cons]
  rfl

/-- The node of a longer name hashes the node of the name behind its first point and the digest of the label in
front of it. Where either of them fails, it fails alike. -/
theorem node_append {label name : String} (hlabel : '.' ∉ label.toList) (hname : name ≠ "") :
    node (label ++ "." ++ name) = node name >>= fun parent => child parent label := by
  have hne : label ++ "." ++ name ≠ "" := by
    intro hempty
    have hchars := congrArg String.toList hempty
    simp at hchars
  rw [node_eq_nodeOf hne, node_eq_nodeOf hname, labels_append hlabel, nodeOf_cons]

theorem exists_nodeOf : ∀ {all : List String}, (∀ label ∈ all, ∃ digest, labelDigest label = .ok digest) →
    ∃ word, nodeOf all = .ok word
  | [], _ => ⟨0, rfl⟩
  | label :: others, h => by
    obtain ⟨⟨digest, hdigest⟩, hothers⟩ := List.forall_mem_cons.mp h
    obtain ⟨parent, hparent⟩ := exists_nodeOf hothers
    refine ⟨keccak256 (parent.toBytes ++ digest.toBytes), ?_⟩
    rw [nodeOf_cons]
    exact bind_eq_ok_iff.mpr ⟨parent, hparent, bind_eq_ok_iff.mpr ⟨digest, hdigest, rfl⟩⟩

/-! ### Encoded labels -/

/-- The label that is written as its digest in brackets. -/
def encoded (digest : Word) : String :=
  "[" ++ Hex.text digest.toBytes ++ "]"

theorem bracketContent?_eq_some_iff {label content : List Char} :
    bracketContent? label = some content ↔ label = '[' :: (content ++ [']']) := by
  unfold bracketContent?
  split
  · rename_i rest
    rw [Option.ite_none_right_eq_some, Option.some.injEq, List.cons.injEq, List.getLast?_eq_some_iff]
    constructor
    · rintro ⟨⟨front, rfl⟩, rfl⟩
      rw [List.dropLast_concat]
      exact ⟨rfl, rfl⟩
    · rintro ⟨-, rfl⟩
      exact ⟨⟨content, rfl⟩, List.dropLast_concat⟩
  · rename_i hopen
    refine iff_of_false (fun h => by cases h) ?_
    rintro rfl
    exact hopen _ rfl

theorem toList_encoded (digest : Word) :
    (encoded digest).toList = '[' :: (Hex.encode digest.toBytes ++ [']']) := by
  simp [encoded, Hex.text]

theorem encoded_ne_empty (digest : Word) : encoded digest ≠ "" := by
  intro h
  have hchars := toList_encoded digest
  rw [h] at hchars
  cases hchars

/-- A label in brackets is read as the digest that it holds. -/
theorem labelDigest_encoded (digest : Word) : labelDigest (encoded digest) = .ok digest := by
  have hdigits : ∀ c ∈ Hex.encode digest.toBytes, Numeral.isHexDigit c = true :=
    fun _ => Hex.isHexDigit_of_mem_encode
  have hcontent := bracketContent?_eq_some_iff.mpr (toList_encoded digest)
  have hsize : Text.octetCount (String.ofList (Hex.encode digest.toBytes)) = 64 := by
    rw [Hex.octetCount_of_isHexDigit hdigits, Hex.length_encode, Word.length_toBytes]
  have hread : encodedLabel? (encoded digest) = .ok (some digest) := by
    unfold encodedLabel?
    rw [hcontent]
    simp only [hsize, Hex.decode_ofList hdigits, Hex.ofPairs_encode, Word.length_toBytes, Word.ofBytes_toBytes]
    rfl
  have hempty : (encoded digest).isEmpty = false := by
    simpa using encoded_ne_empty digest
  unfold labelDigest
  rw [hempty, hread]
  rfl

theorem labelDigest_of_no_bracket {label : String} (hne : label ≠ "") (h : bracketContent? label.toList = none) :
    labelDigest label = .ok (keccak256 (Text.octets label)) := by
  have hempty : label.isEmpty = false := by
    simpa using hne
  unfold labelDigest encodedLabel?
  rw [hempty, h]
  rfl

theorem not_mem_encoded (digest : Word) : '.' ∉ (encoded digest).toList := by
  have hdigits : '.' ∉ Hex.encode digest.toBytes := by
    intro hmem
    cases Hex.isHexDigit_of_mem_encode hmem
  rw [toList_encoded]
  simpa using hdigits

/-- A label is written as it is, or as its digest. -/
def Respells (label other : String) : Prop :=
  other = label ∨ ∃ digest, labelDigest label = .ok digest ∧ other = encoded digest

theorem Respells.labelDigest_eq {label other : String} (h : Respells label other) :
    labelDigest other = labelDigest label := by
  rcases h with rfl | ⟨digest, hdigest, rfl⟩
  · rfl
  · rw [labelDigest_encoded, hdigest]

theorem nodeOf_of_respells {all others : List String} (h : List.Forall₂ Respells all others) :
    nodeOf others = nodeOf all := by
  induction h with
  | nil => rfl
  | cons hlabel _ ih =>
    rw [nodeOf_cons, nodeOf_cons, ih]
    unfold child
    rw [hlabel.labelDigest_eq]

theorem Respells.not_mem {label other : String} (h : Respells label other) (hlabel : '.' ∉ label.toList) :
    '.' ∉ other.toList := by
  rcases h with rfl | ⟨digest, -, rfl⟩
  · exact hlabel
  · exact not_mem_encoded digest

theorem not_mem_of_respells {all others : List String} (h : List.Forall₂ Respells all others)
    (hall : ∀ label ∈ all, '.' ∉ label.toList) : ∀ other ∈ others, '.' ∉ other.toList := by
  induction h with
  | nil => simp
  | cons hlabel _ ih =>
    obtain ⟨hfirst, hrest⟩ := List.forall_mem_cons.mp hall
    exact List.forall_mem_cons.mpr ⟨hlabel.not_mem hfirst, ih hrest⟩

/-- Only the empty name has the empty label alone, and no label is respelled as the empty one. -/
theorem joined_ne_empty {name : String} {others : List String} (hname : name ≠ "")
    (h : List.Forall₂ Respells (labels name) others) (hfound : labels (joined others) = others) :
    joined others ≠ "" := by
  intro hempty
  rw [hempty] at hfound
  have hothers : others = [""] := hfound.symm
  subst hothers
  generalize hall : labels name = all at h
  cases h with
  | @cons label _ _ _ hlabel hnil =>
    cases hnil
    rcases hlabel with hsame | ⟨digest, -, hdigest⟩
    · apply hname
      rw [← joined_labels name, hall, ← hsame]
      rfl
    · exact encoded_ne_empty digest hdigest.symm

/-- The node does not tell which labels were encoded. -/
theorem node_joined_of_respells {name : String} {others : List String} (hname : name ≠ "")
    (h : List.Forall₂ Respells (labels name) others) : node (joined others) = node name := by
  have hne : others ≠ [] := by
    rintro rfl
    exact labels_ne_nil name (List.forall₂_nil_right_iff.mp h)
  have hfound : labels (joined others) = others := by
    apply labels_joined hne
    exact not_mem_of_respells h fun _ => not_mem_of_mem_labels
  rw [node_eq_nodeOf (joined_ne_empty hname h hfound), hfound, nodeOf_of_respells h, node_eq_nodeOf hname]

/-- **A name is hashed label by label, and a label may be given as its digest.** A single label is hashed with zero,
and a label in front of a name with the node of that name, or fails where one of them does; a name in which some
labels are written as their digests in brackets has the same node; and there is a node where all labels have
digests. -/
theorem encoded_labels_have_the_same_node :
    (∀ label : String, '.' ∉ label.toList → label ≠ "" →
      node label = do
        let digest ← labelDigest label
        return keccak256 ((0 : Word).toBytes ++ digest.toBytes)) ∧
    (∀ label name : String, '.' ∉ label.toList → name ≠ "" →
      node (label ++ "." ++ name) = do
        let parent ← node name
        let digest ← labelDigest label
        return keccak256 (parent.toBytes ++ digest.toBytes)) ∧
    (∀ (name : String) (others : List String), name ≠ "" → List.Forall₂ Respells (labels name) others →
      node (joined others) = node name) ∧
    (∀ name : String, name ≠ "" → (∀ label ∈ labels name, ∃ digest, labelDigest label = .ok digest) →
      ∃ word, node name = .ok word) := by
  refine ⟨fun label => node_of_not_mem, fun label name => node_append, fun name others => node_joined_of_respells,
    fun name hname hdigests => ?_⟩
  rw [node_eq_nodeOf hname]
  exact exists_nodeOf hdigests

/-- An empty label in front of another one, written as the digest zero. -/
theorem empty_label_is_encoded :
    '.' ∉ "foo".toList ∧ "foo" ≠ "" ∧ ".eth" ≠ "" ∧ List.Forall₂ Respells (labels ".eth") [encoded 0, "eth"] ∧
      (∀ label ∈ labels ".eth", ∃ digest, labelDigest label = .ok digest) ∧
      (node "foo" = do
        let digest ← labelDigest "foo"
        return keccak256 ((0 : Word).toBytes ++ digest.toBytes)) ∧
      (node ("foo" ++ "." ++ ".eth") = do
        let parent ← node ".eth"
        let digest ← labelDigest "foo"
        return keccak256 (parent.toBytes ++ digest.toBytes)) ∧
      node (joined [encoded 0, "eth"]) = node ".eth" ∧ ∃ word, node ".eth" = .ok word := by
  have hlabels : labels ".eth" = ["", "eth"] := by decide
  have hempty : labelDigest "" = .ok 0 := rfl
  have heth : labelDigest "eth" = .ok (keccak256 (Text.octets "eth")) := labelDigest_of_no_bracket (by decide) rfl
  have hrespells : List.Forall₂ Respells (labels ".eth") [encoded 0, "eth"] := by
    rw [hlabels]
    exact .cons (.inr ⟨0, hempty, rfl⟩) (.cons (.inl rfl) .nil)
  have hdigests : ∀ label ∈ labels ".eth", ∃ digest, labelDigest label = .ok digest := by
    rw [hlabels]
    simp [hempty, heth]
  obtain ⟨hsingle, hfront, hsame, hexists⟩ := encoded_labels_have_the_same_node
  exact ⟨by decide, by decide, by decide, hrespells, hdigests, hsingle _ (by decide) (by decide),
    hfront _ _ (by decide) (by decide), hsame _ _ (by decide) hrespells, hexists _ (by decide) hdigests⟩

end Name
end EthWire
