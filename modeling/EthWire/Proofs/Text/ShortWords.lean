/-
# Words that fall short

A word is written as 64 hex digits. That the text takes 64 octets is tested before it is read, and the reader of
hex text skips a `0x` which the test has counted. So one shape of text passes the test and holds only 31 octets,
namely `0x` and 62 characters of hex text (`Hex.IsShortWord`). Whatever else passes and is read holds 32: no
character that takes more than one octet is hex text, and without `0x` the characters are 32 pairs.

A key may have a `0x` in front of the text that is tested, so it falls short behind a second one. A label falls
short if there is one between its brackets, and a name if one of its labels does. Labels and names fail for no
other reason.

Key definitions: `Hex.IsShortWord`, `Name.IsShortLabel`.
Key theorems: `Hex.isShortWord_of_decode`, `PrivateKey.parse_eq_wordSize_iff`, `Name.labelDigest_eq_error_iff`,
`Name.node_eq_error_iff`, `words_fall_short_only_behind_0x`.
-/
import EthWire.Curve.Ecdsa
import EthWire.Proofs.Name
import EthWire.Signing.PrivateKey

namespace EthWire

/-! ### Texts of 64 octets -/

namespace Hex

variable {text : List Char} {bytes : Bytes}

/-- A `0x` and 62 characters of hex text, which are 31 octets. -/
def IsShortWord (text : List Char) : Prop :=
  ∃ rest, text = '0' :: 'x' :: rest ∧ isHexText rest = true ∧ rest.length = 62

/-- A text that takes 64 octets and is read holds 32 octets, unless it has a `0x` in front. -/
theorem isShortWord_of_decode (hcount : Text.octetCount (String.ofList text) = 64)
    (hread : decode (String.ofList text) = .ok bytes) (hne : bytes.length ≠ 32) :
    IsShortWord text ∧ bytes.length = 31 := by
  rcases decode_ofList_eq_ok_iff.mp hread with ⟨htext, rfl⟩ | ⟨rest, rfl, hrest, rfl⟩
  · rw [octetCount_of_isHexText htext] at hcount
    rw [length_ofPairs, hcount] at hne
    exact absurd rfl hne
  · rw [Text.octetCount_after0x, octetCount_of_isHexText hrest] at hcount
    have hlength : rest.length = 62 := by omega
    rw [length_ofPairs, hlength]
    exact ⟨⟨rest, rfl, hrest, hlength⟩, rfl⟩

theorem IsShortWord.octetCount_eq (h : IsShortWord text) : Text.octetCount (String.ofList text) = 64 := by
  obtain ⟨rest, rfl, hrest, hlength⟩ := h
  rw [Text.octetCount_after0x, octetCount_of_isHexText hrest, hlength]

theorem IsShortWord.exists_decode (h : IsShortWord text) :
    ∃ bytes, decode (String.ofList text) = .ok bytes ∧ bytes.length = 31 := by
  obtain ⟨rest, rfl, hrest, hlength⟩ := h
  refine ⟨ofPairs rest, decode_ofList_eq_ok_iff.mpr (.inr ⟨rest, rfl, hrest, rfl⟩), ?_⟩
  rw [length_ofPairs, hlength]

theorem decode_ne_wordSize (text : String) (size : Nat) : decode text ≠ .error (.wordSize size) := by
  intro h
  obtain ⟨pair, -, hpair⟩ := exists_of_mapM_eq_error h
  unfold readPair at hpair
  split at hpair
  · split at hpair <;> cases hpair
  · cases hpair

end Hex

/-! ### Keys -/

namespace PrivateKey

theorem parseWord_eq_wordSize_iff {text : String} {size : Nat} :
    parseWord text = .error (.wordSize size) ↔ Hex.IsShortWord (Text.after0x text.toList) ∧ size = 31 := by
  unfold parseWord
  rw [guard_eq_error_iff, Decidable.not_not]
  simp only [bind_eq_error_iff, guard_eq_error_iff, Hex.decode_ne_wordSize, pure_ne_error, reduceCtorEq, and_false,
    or_false, false_or, Error.wordSize.injEq]
  constructor
  · rintro ⟨hcount, bytes, hread, hne, rfl⟩
    exact Hex.isShortWord_of_decode hcount hread hne
  · rintro ⟨hshort, rfl⟩
    obtain ⟨bytes, hread, hlength⟩ := hshort.exists_decode
    refine ⟨hshort.octetCount_eq, bytes, hread, ?_, hlength⟩
    rw [hlength]
    decide

theorem ofWord_ne_wordSize (scheme : Scheme) (secret : Word) (size : Nat) :
    ofWord scheme secret ≠ .error (.wordSize size) := by
  intro h
  unfold ofWord Address.ofPublicKey at h
  split at h
  · split at h <;> cases h
  · cases h

/-- A key falls short exactly behind a second `0x`. -/
theorem parse_eq_wordSize_iff {scheme : Scheme} {text : String} {size : Nat} :
    parse scheme text = .error (.wordSize size) ↔ Hex.IsShortWord (Text.after0x text.toList) ∧ size = 31 := by
  rw [parse, bind_eq_error_iff, parseWord_eq_wordSize_iff]
  constructor
  · rintro (h | ⟨secret, -, hword⟩)
    · exact h
    · exact absurd hword (ofWord_ne_wordSize scheme secret size)
  · exact .inl

end PrivateKey

/-! ### Labels and names -/

namespace Name

/-- A label in brackets whose content falls short. -/
def IsShortLabel (label : String) : Prop :=
  ∃ content, label.toList = '[' :: (content ++ [']']) ∧ Hex.IsShortWord content

theorem encodedLabel?_eq_error_iff {label : String} {cause : Error} :
    encodedLabel? label = .error cause ↔ IsShortLabel label ∧ cause = .wordSize 31 := by
  unfold encodedLabel?
  constructor
  · intro h
    split at h
    · cases h
    · rename_i content hcontent
      dsimp only at h
      split at h
      · cases h
      · rename_i hcount
        split at h
        · cases h
        · rename_i bytes hread
          rw [guard_eq_error_iff] at h
          rcases h with ⟨hne, rfl⟩ | ⟨-, hpure⟩
          · obtain ⟨hshort, hlength⟩ := Hex.isShortWord_of_decode (Decidable.not_not.mp hcount) hread hne
            rw [hlength]
            exact ⟨⟨content, bracketContent?_eq_some_iff.mp hcontent, hshort⟩, rfl⟩
          · exact absurd hpure pure_ne_error
  · rintro ⟨⟨content, hlabel, hshort⟩, rfl⟩
    obtain ⟨bytes, hread, hlength⟩ := hshort.exists_decode
    rw [bracketContent?_eq_some_iff.mpr hlabel]
    simp only [hshort.octetCount_eq, hread, hlength]
    rfl

/-- A label fails exactly if it falls short. -/
theorem labelDigest_eq_error_iff {label : String} {cause : Error} :
    labelDigest label = .error cause ↔ IsShortLabel label ∧ cause = .wordSize 31 := by
  rw [← encodedLabel?_eq_error_iff]
  unfold labelDigest
  split
  · rename_i hempty
    obtain rfl : label = "" := by
      simpa using hempty
    exact iff_of_false pure_ne_error pure_ne_error
  · rw [bind_eq_error_iff]
    constructor
    · rintro (h | ⟨digest, hdigest, hpure⟩)
      · exact h
      · split at hpure <;> exact absurd hpure pure_ne_error
    · exact .inl

theorem nodeOf_eq_error_iff : ∀ {all : List String} {cause : Error},
    nodeOf all = .error cause ↔ (∃ label ∈ all, IsShortLabel label) ∧ cause = .wordSize 31
  | [], cause => by
    refine iff_of_false pure_ne_error ?_
    simp
  | label :: others, cause => by
    rw [nodeOf_cons, bind_eq_error_iff]
    unfold child
    constructor
    · rintro (hothers | ⟨parent, -, hchild⟩)
      · obtain ⟨⟨other, hmem, hother⟩, rfl⟩ := nodeOf_eq_error_iff.mp hothers
        exact ⟨⟨other, List.mem_cons_of_mem label hmem, hother⟩, rfl⟩
      · obtain ⟨hshort, rfl⟩ := labelDigest_eq_error_iff.mp (bind_pure_eq_error_iff.mp hchild)
        exact ⟨⟨label, List.mem_cons_self, hshort⟩, rfl⟩
    · rintro ⟨⟨short, hmem, hshort⟩, rfl⟩
      cases hothers : nodeOf others with
      | error cause =>
        -- the labels behind have failed already, and for the same cause
        obtain ⟨-, rfl⟩ := nodeOf_eq_error_iff.mp hothers
        exact .inl rfl
      | ok parent =>
        rcases List.mem_cons.mp hmem with rfl | hmem
        · exact .inr ⟨parent, rfl, bind_eq_error_iff.mpr (.inl (labelDigest_eq_error_iff.mpr ⟨hshort, rfl⟩))⟩
        · have hfails := nodeOf_eq_error_iff.mpr ⟨⟨short, hmem, hshort⟩, rfl⟩
          rw [hothers] at hfails
          cases hfails

/-- A name fails exactly if one of its labels falls short. -/
theorem node_eq_error_iff {name : String} {cause : Error} :
    node name = .error cause ↔ (∃ label ∈ labels name, IsShortLabel label) ∧ cause = .wordSize 31 := by
  by_cases hname : name = ""
  · subst hname
    refine iff_of_false pure_ne_error ?_
    rintro ⟨⟨label, hmem, content, hlabel, -⟩, -⟩
    obtain rfl : label = "" := List.mem_singleton.mp hmem
    cases hlabel
  · rw [node_eq_nodeOf hname, nodeOf_eq_error_iff]

end Name

/-! ### Which texts fall short -/

/-- **Words fall short only behind a `0x` that has been counted.** A text that takes 64 octets and is read holds 32
of them, unless it is `0x` and 62 characters of hex text. A key fails for its size exactly if the text behind its
own `0x` has this shape, a label fails exactly if it has this shape in brackets, and a name exactly if one of its
labels fails. -/
theorem words_fall_short_only_behind_0x (scheme : Scheme) (text : String) (size : Nat) (cause : Error) :
    ((Text.octetCount text = 64 ∧ ∃ bytes, Hex.decode text = .ok bytes ∧ bytes.length ≠ 32) ↔
      Hex.IsShortWord text.toList) ∧
    (PrivateKey.parse scheme text = .error (.wordSize size) ↔
      Hex.IsShortWord (Text.after0x text.toList) ∧ size = 31) ∧
    (Name.labelDigest text = .error cause ↔ Name.IsShortLabel text ∧ cause = .wordSize 31) ∧
    (Name.node text = .error cause ↔
      (∃ label ∈ Name.labels text, Name.IsShortLabel label) ∧ cause = .wordSize 31) := by
  have htext : String.ofList text.toList = text := String.ofList_toList
  refine ⟨?_, PrivateKey.parse_eq_wordSize_iff, Name.labelDigest_eq_error_iff, Name.node_eq_error_iff⟩
  constructor
  · rintro ⟨hcount, bytes, hread, hne⟩
    rw [← htext] at hcount hread
    exact (Hex.isShortWord_of_decode hcount hread hne).1
  · intro hshort
    obtain ⟨bytes, hread, hlength⟩ := hshort.exists_decode
    have hcount := hshort.octetCount_eq
    rw [htext] at hcount hread
    refine ⟨hcount, bytes, hread, ?_⟩
    rw [hlength]
    decide

/-- A `0x` and 62 times the digit 4. -/
def Hex.shortWord : List Char :=
  '0' :: 'x' :: List.replicate 62 '4'

/-- A label with this text between its brackets. -/
def Name.shortLabel : String :=
  String.ofList ('[' :: (Hex.shortWord ++ [']']))

/-- The text behind the `0x` of a key, the label, and a name with this label all fail. -/
theorem counted_0x_leaves_too_few_octets :
    PrivateKey.parse secp256k1 (String.ofList ('0' :: 'x' :: Hex.shortWord)) = .error (.wordSize 31) ∧
      Name.labelDigest Name.shortLabel = .error (.wordSize 31) ∧
      Name.node (Name.shortLabel ++ "." ++ "eth") = .error (.wordSize 31) := by
  have hword : Hex.IsShortWord Hex.shortWord := ⟨_, rfl, by decide, rfl⟩
  have hlabel : Name.IsShortLabel Name.shortLabel := ⟨Hex.shortWord, String.toList_ofList, hword⟩
  have hpoint : '.' ∉ Name.shortLabel.toList := by
    rw [Name.shortLabel, String.toList_ofList]
    decide
  refine ⟨PrivateKey.parse_eq_wordSize_iff.mpr ⟨?_, rfl⟩, Name.labelDigest_eq_error_iff.mpr ⟨hlabel, rfl⟩,
    Name.node_eq_error_iff.mpr ⟨⟨Name.shortLabel, ?_, hlabel⟩, rfl⟩⟩
  · rw [String.toList_ofList]
    exact hword
  · rw [Name.labels_append hpoint]
    exact List.mem_cons_self

end EthWire
