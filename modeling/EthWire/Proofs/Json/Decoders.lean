/-
# What is printed from its parts is read from them

A decoder reads a text as a value at a level if the text is parsed as a tree that the decoder reads so
(`Json.Reads`). Each way of printing a composed value has its law: a list is read from the texts of its items,
a dictionary from those of its values, provided that its keys are in order, and a record from those of its
fields, provided that it knows their names. The text of a string is read as the string.

Key definition: `Json.Reads`.
Key theorems: `Json.textOfCodes?_codesOf`, `Json.reads_list`, `Json.reads_dictionary`,
`Json.Record.exists_open?`.
-/
import EthWire.Json.Decoder
import EthWire.Proofs.Json.Dictionary
import EthWire.Proofs.Json.Trees

namespace EthWire
namespace Json

/-! ### Texts -/

theorem charsOfCodes?_map_toNat : ∀ chars : List Char, charsOfCodes? (chars.map Char.toNat) = some chars
  | [] => rfl
  | c :: chars => by
    have hvalid : c.toNat < 0xd800 ∨ 0xdfff < c.toNat ∧ c.toNat < 0x110000 := c.valid
    have hhigh : isHighSurrogate c.toNat = false := by
      rw [isHighSurrogate, Bool.and_eq_false_iff, decide_eq_false_iff_not, decide_eq_false_iff_not]
      omega
    have hlow : isLowSurrogate c.toNat = false := by
      rw [isLowSurrogate, Bool.and_eq_false_iff, decide_eq_false_iff_not, decide_eq_false_iff_not]
      omega
    rw [List.map_cons, charsOfCodes?.eq_def]
    simp only [hhigh, hlow, if_neg Bool.false_ne_true, charsOfCodes?_map_toNat chars, Char.ofNat_toNat,
      Option.map_some]

/-- The codes of a text are its characters again. -/
theorem textOfCodes?_codesOf (text : String) : textOfCodes? (codesOf text) = some text := by
  rw [textOfCodes?, codesOf, charsOfCodes?_map_toNat, Option.map_some, String.ofList_toList]

/-! ### Rows -/

section

variable {α β γ : Type}

theorem exists_rows {P : α → β → Prop} : ∀ {items : List α}, (∀ item ∈ items, ∃ other, P item other) →
    ∃ rows : List (α × β), rows.map (·.1) = items ∧ ∀ row ∈ rows, P row.1 row.2
  | [], _ => ⟨[], rfl, by simp⟩
  | item :: items, h => by
    obtain ⟨⟨other, hother⟩, hitems⟩ := List.forall_mem_cons.mp h
    obtain ⟨rows, rfl, hrows⟩ := exists_rows hitems
    exact ⟨(item, other) :: rows, rfl, List.forall_mem_cons.mpr ⟨hother, hrows⟩⟩

theorem mapM_rows {rows : List γ} {read : α → Option β} {source : γ → α} {result : γ → β}
    (h : ∀ row ∈ rows, read (source row) = some (result row)) :
    (rows.map source).mapM read = some (rows.map result) := by
  induction rows with
  | nil => rfl
  | cons row rows ih =>
    obtain ⟨hrow, hrows⟩ := List.forall_mem_cons.mp h
    rw [List.map_cons, List.mapM_cons, hrow, ih hrows]
    rfl

theorem exists_of_mem_mapM {read : α → Option β} {items : List α} {results : List β} {result : β}
    (h : items.mapM read = some results) (hmem : result ∈ results) : ∃ item ∈ items, read item = some result := by
  induction items generalizing results with
  | nil =>
    obtain rfl := Option.some.inj h
    exact absurd hmem List.not_mem_nil
  | cons item items ih =>
    simp only [List.mapM_cons, Option.bind_eq_bind, Option.bind_eq_some_iff] at h
    obtain ⟨first, hfirst, others, hothers, hresults⟩ := h
    obtain rfl := Option.some.inj hresults
    rcases List.mem_cons.mp hmem with rfl | hmem
    · exact ⟨item, List.mem_cons_self, hfirst⟩
    · obtain ⟨other, hother, hread⟩ := ih hothers hmem
      exact ⟨other, List.mem_cons_of_mem item hother, hread⟩

end

/-! ### Decoders -/

section

variable {α : Type}

/-- The decoder reads the tree of the text as the value. -/
def Reads (decoder : Decoder α) (levels : Nat) (text : String) (a : α) : Prop :=
  ∃ tree, Writes text tree ∧ decoder levels tree = some a

variable {decoder : Decoder α} {levels : Nat}

theorem Reads.run? {text : String} {a : α} (h : Reads decoder maxDepth text a) : decoder.run? text = some a := by
  obtain ⟨tree, hwrites, hread⟩ := h
  rw [Decoder.run?, hwrites.parse?, Option.bind_eq_bind, Option.bind_some, hread]

theorem Decoder.string_codesOf (levels : Nat) (text : String) :
    Decoder.string levels (.string (codesOf text)) = some text :=
  textOfCodes?_codesOf text

theorem Decoder.parsed_codesOf {ε : Type} {parse : String → Except ε α} {text : String} {a : α}
    (h : parse text = .ok a) (levels : Nat) : Decoder.parsed parse levels (.string (codesOf text)) = some a := by
  rw [Decoder.parsed, Decoder.string_codesOf, Option.bind_eq_bind, Option.bind_some, h]
  rfl

/-- A list is read from the texts of its items. -/
theorem reads_list {items : List α} {text : α → String} (h : ∀ item ∈ items, Reads decoder levels (text item) item) :
    Reads decoder.list (levels + 1) (listText (items.map text)) items := by
  obtain ⟨rows, rfl, hrows⟩ := exists_rows h
  have htexts : ∀ row ∈ rows.map fun row => (text row.1, row.2), Writes row.1 row.2 := by
    intro row hrow
    obtain ⟨item, hitem, rfl⟩ := List.mem_map.mp hrow
    exact (hrows item hitem).1
  have hwrites := writes_list htexts
  rw [List.map_map, List.map_map] at hwrites
  refine ⟨.list (rows.map (·.2)), ?_, mapM_rows fun row hrow => (hrows row hrow).2⟩
  rw [List.map_map]
  exact hwrites

/-- A dictionary is read from the texts of its values. -/
theorem reads_dictionary {dict : Dictionary α} {text : α → String} (hsorted : (dict.map (·.1)).Pairwise (· < ·))
    (h : ∀ entry ∈ dict, Reads decoder levels (text entry.2) entry.2) :
    Reads decoder.dictionary (levels + 1) (objectText (dict.map fun entry => (entry.1, text entry.2))) dict := by
  obtain ⟨rows, rfl, hrows⟩ := exists_rows h
  have htexts : ∀ row ∈ rows.map fun row => ((row.1.1, text row.1.2), row.2), Writes row.1.2 row.2 := by
    intro row hrow
    obtain ⟨member, hmember, rfl⟩ := List.mem_map.mp hrow
    exact (hrows member hmember).1
  have hwrites := writes_object htexts
  rw [List.map_map, List.map_map] at hwrites
  refine ⟨.object (rows.map fun row => (codesOf row.1.1, row.2)), ?_, ?_⟩
  · rw [List.map_map]
    exact hwrites
  · have hread : ∀ row ∈ rows, (do some (← textOfCodes? (codesOf row.1.1), ← decoder levels row.2))
        = some row.1 := by
      intro row hrow
      rw [textOfCodes?_codesOf, (hrows row hrow).2]
      rfl
    rw [Decoder.dictionary, mapM_rows hread, Option.map_some, Dictionary.ofList_of_pairwise hsorted]

end

theorem pairwise_of_dictionary {α : Type} {decoder : Decoder α} {levels : Nat} {tree : Tree} {dict : Dictionary α}
    (h : decoder.dictionary levels tree = some dict) : (dict.map (·.1)).Pairwise (· < ·) := by
  cases tree with
  | object members =>
    cases levels with
    | zero => cases h
    | succ levels =>
      obtain ⟨pairs, -, rfl⟩ := Option.map_eq_some_iff.mp h
      exact Dictionary.pairwise_ofList pairs
  | _ => cases levels <;> cases h

/-! ### Records -/

namespace Record

/-- The fields of a record nest one level less than the record. -/
theorem levels_of_open? {names : List String} {levels : Nat} {tree : Tree} {record : Record}
    (h : open? names levels tree = some record) : levels = record.levels + 1 := by
  cases tree with
  | list items =>
    cases levels with
    | zero => cases h
    | succ levels =>
      obtain ⟨-, hrecord⟩ := Option.ite_none_right_eq_some.mp h
      rw [← Option.some.inj hrecord]
  | object members =>
    cases levels with
    | zero => cases h
    | succ levels =>
      obtain ⟨fields, -, rfl⟩ := Option.map_eq_some_iff.mp h
      rfl
  | _ => cases h

theorem eraseDups_of_nodup : ∀ {names : List String}, names.Nodup → names.eraseDups = names
  | [], _ => rfl
  | name :: names, h => by
    obtain ⟨hname, hnames⟩ := List.nodup_cons.mp h
    have hothers : (names.filter fun other => !other == name) = names := by
      refine List.filter_eq_self.mpr fun other hother => ?_
      rw [Bool.not_eq_true', beq_eq_false_iff_ne]
      rintro rfl
      exact hname hother
    rw [List.eraseDups_cons, hothers, eraseDups_of_nodup hnames]

variable {names : List String} {fields : List (String × Tree)}

theorem known?_eq_some (hnames : (fields.map (·.1)).Sublist names) (hnodup : names.Nodup) :
    known? names (fields.map fun field => (codesOf field.1, field.2)) = some fields := by
  have hnamed : ∀ field ∈ fields, (do some (← textOfCodes? (codesOf field.1), field.2)) = some field := by
    intro field _
    rw [textOfCodes?_codesOf]
    rfl
  have hknown : ∀ field ∈ fields, names.contains field.1 = true := fun field hfield =>
    List.contains_iff_mem.mpr (hnames.subset (List.mem_map_of_mem hfield))
  have hall : (fields.filter fun field => names.contains field.1) = fields := List.filter_eq_self.mpr hknown
  have hlength : (fields.map (·.1)).eraseDups.length = fields.length := by
    rw [eraseDups_of_nodup (hnames.nodup hnodup), List.length_map]
  rw [known?, mapM_rows hnamed, List.map_id', Option.bind_eq_bind, Option.bind_some, hall]
  exact if_pos hlength

/-- A written record is opened as it stands, if its fields are known and in the order of their names. Its rows
have a name, a text and its tree. -/
theorem exists_open? {rows : List ((String × String) × Tree)} (hnames : (rows.map (·.1.1)).Sublist names)
    (hnodup : names.Nodup) (hwrites : ∀ row ∈ rows, Writes row.1.2 row.2) :
    ∃ tree, Writes (objectText (rows.map (·.1))) tree ∧
      ∀ levels, open? names (levels + 1) tree = some ⟨levels, rows.map fun row => (row.1.1, row.2)⟩ := by
  have hopen : ∀ levels members, open? names (levels + 1) (.object members)
      = (known? names members).map fun fields => ⟨levels, fields⟩ := fun _ _ => rfl
  refine ⟨_, writes_object hwrites, fun levels => ?_⟩
  have hfields : ((rows.map fun row => (row.1.1, row.2)).map (·.1)).Sublist names := by
    rw [List.map_map]
    exact hnames
  have hknown := known?_eq_some hfields hnodup
  rw [List.map_map] at hknown
  rw [hopen]
  exact Option.map_eq_some_iff.mpr ⟨_, hknown, rfl⟩

variable {α : Type} {record : Record} {name : String} {decoder : Decoder α}

theorem required?_eq_some {tree : Tree} {a : α} (hlookup : record.fields.lookup name = some tree)
    (hread : decoder record.levels tree = some a) : record.required? name decoder = some a := by
  rw [required?, hlookup, Option.bind_eq_bind, Option.bind_some, hread]

theorem withDefault?_eq_some {tree : Tree} {a default : α} (hlookup : record.fields.lookup name = some tree)
    (hread : decoder record.levels tree = some a) : record.withDefault? name default decoder = some a := by
  rw [withDefault?, hlookup]
  exact hread

theorem optional?_eq_some {o : Option α} {text : α → String}
    (hlookup : record.fields.lookup name = o.map fun a => .string (codesOf (text a)))
    (hread : ∀ a, decoder record.levels (.string (codesOf (text a))) = some a) :
    record.optional? name decoder = some o := by
  rw [optional?, withDefault?, hlookup]
  cases o with
  | none => rfl
  | some a =>
    rw [Option.map_some]
    show (decoder record.levels (.string (codesOf (text a)))).map some = some (some a)
    rw [hread, Option.map_some]

theorem lookup_toList_map {β : Type} (o : Option α) (key name : String) (f : α → β) :
    (o.map fun a => (key, f a)).toList.lookup name = if name = key then o.map f else none := by
  cases o with
  | none => simp
  | some a =>
    rw [Option.map_some, Option.map_some, Option.toList_some, List.lookup_cons, List.lookup_nil]
    split
    · rename_i heq
      rw [if_pos (eq_of_beq heq)]
    · rename_i hne
      rw [if_neg (ne_of_beq_false hne)]

end Record

end Json
end EthWire
