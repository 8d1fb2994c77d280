/-
# Logs are read back

The indexed inputs of an event go into the topics and the others into the data, each of the two in order.
The reader walks over all inputs as they are declared and takes the next topic or the next value, so the
values come back in the order of their declaration, however the two sorts alternate
(`Abi.mergeInputs_of_inputTopics`).

A topic is one word. Elementary values fit it and are read back from it; of an indexed string or octet
string it holds the digest, and the reader gives that as 32 octets. Arrays and tuples have no topic, so of
the types of indexed inputs nothing has to be asked.

Key definitions: `Abi.valuesWhere`, `Abi.Input.logged`.
Key theorems: `Abi.readTopic_of_inputTopic`, `Abi.mergeInputs_of_inputTopics`,
`Abi.valuesWhere_of_mergeInputs`, `Abi.logged_values_are_read_back_iff`.
-/
import EthWire.Abi.Event
import EthWire.Proofs.Abi.DefinitionText
import EthWire.Proofs.Abi.Typing

namespace EthWire
namespace Abi

/-! ### Topics -/

/-- What a log gives for the value of an input: of an indexed string or octet string the digest. -/
def Input.logged (input : Input) (value : Value) : Value :=
  if input.indexed then
    match value with
    | .string content => .fixedBytes (keccak256 (Text.octets content)).toBytes
    | .bytes content => .fixedBytes (keccak256 content).toBytes
    | value => value
  else value

/-- The values of a type that a topic holds as they are take one word. -/
theorem length_of_encodeValue {kind : Kind} {value : Value} {body : Bytes}
    (hkind : kind.isHashedTopic = false) (h : encodeValue kind value = .ok body) : body.length = 32 := by
  cases hasKind_of_encodeValue h with
  | uint _ =>
    obtain ⟨word, -, rfl⟩ := map_eq_ok_iff.mp h
    exact Word.length_toBytes word
  | int _ =>
    obtain ⟨word, -, rfl⟩ := map_eq_ok_iff.mp h
    exact Word.length_toBytes word
  | address _ =>
    obtain rfl := Except.ok.inj h
    exact Word.length_toBytes _
  | bool _ =>
    obtain rfl := Except.ok.inj h
    exact Word.length_toBytes _
  | fixedBytes pos le length =>
    obtain ⟨content, hcontent, rfl⟩ := map_eq_ok_iff.mp h
    obtain ⟨-, -, -, rfl⟩ := checkedFixedBytes_eq_ok_iff.mp hcontent
    rw [← length] at pos le
    obtain ⟨word, hword, -⟩ := exists_word_of_padRight pos le
    rw [hword]
    exact Word.length_toBytes word
  | _ => simp [Kind.isHashedTopic] at hkind

theorem inputTopic_of_not_hashed {kind : Kind} (hkind : kind.isHashedTopic = false) (value : Value) :
    inputTopic kind value = (encodeValue kind value).map Word.ofBytes := by
  cases kind with
  | string => simp [Kind.isHashedTopic] at hkind
  | bytes => simp [Kind.isHashedTopic] at hkind
  | array elem => simp [Kind.isHashedTopic] at hkind
  | fixedArray elem length => simp [Kind.isHashedTopic] at hkind
  | tuple members => simp [Kind.isHashedTopic] at hkind
  | _ => rfl

theorem isSequence_of_not_hashed {kind : Kind} (hkind : kind.isHashedTopic = false) : kind.isSequence = false := by
  cases kind with
  | array elem => simp [Kind.isHashedTopic] at hkind
  | fixedArray elem length => simp [Kind.isHashedTopic] at hkind
  | tuple members => simp [Kind.isHashedTopic] at hkind
  | _ => rfl

theorem decodeValue_of_inputTopic {kind : Kind} {value : Value} {topic : Word}
    (hkind : kind.isHashedTopic = false) (h : inputTopic kind value = .ok topic) :
    decodeValue kind topic.toBytes = .ok value := by
  rw [inputTopic_of_not_hashed hkind] at h
  obtain ⟨body, hbody, rfl⟩ := map_eq_ok_iff.mp h
  have hlength : body.length = 32 := length_of_encodeValue hkind hbody
  have hgives := gives_of_elementary (isSequence_of_not_hashed hkind) hbody (by omega)
  have hread : decodeValue kind (body ++ []) = .ok value := hgives.read []
  rw [List.append_nil] at hread
  rw [Word.toBytes_ofBytes hlength, hread]

theorem Input.logged_of_not_hashed {kind : Kind} {value : Value} (hkind : kind.isHashedTopic = false)
    (hvalue : value.HasKind kind) : Input.logged ⟨kind, true⟩ value = value := by
  cases hvalue with
  | string _ => simp [Kind.isHashedTopic] at hkind
  | bytes _ => simp [Kind.isHashedTopic] at hkind
  | _ => rfl

/-- A topic is read as the value or its digest. -/
theorem readTopic_of_inputTopic {kind : Kind} {value : Value} {topic : Word}
    (h : inputTopic kind value = .ok topic) :
    readTopic kind topic = .ok (Input.logged ⟨kind, true⟩ value) := by
  have hwritten := h
  unfold inputTopic at hwritten
  split at hwritten
  · obtain rfl := Except.ok.inj hwritten
    rfl
  · obtain rfl := Except.ok.inj hwritten
    rfl
  · exact absurd hwritten (by simp)
  · exact absurd hwritten (by simp)
  · exact absurd hwritten (by simp)
  · rename_i harray hfixedArray htuple hstring hbytes
    obtain ⟨body, hbody, -⟩ := map_eq_ok_iff.mp hwritten
    have htyped := hasKind_of_encodeValue hbody
    -- the branches above have taken the types that are hashed
    have hkind : kind.isHashedTopic = false := by
      cases htyped with
      | string content => exact (hstring content rfl rfl).elim
      | bytes content => exact (hbytes content rfl rfl).elim
      | array _ => exact (harray _ rfl).elim
      | fixedArray _ _ => exact (hfixedArray _ _ rfl).elim
      | tuple _ _ => exact (htuple _ rfl).elim
      | _ => rfl
    rw [readTopic, hkind, Input.logged_of_not_hashed hkind htyped]
    exact decodeValue_of_inputTopic hkind h

/-! ### Topics and data are merged -/

/-- The values of the inputs that are indexed, or of those that are not, in the order of the inputs. -/
def valuesWhere (indexed : Bool) (inputs : List Input) (values : List Value) : List Value :=
  ((inputs.zip values).filter fun pair => pair.1.indexed == indexed).map (·.2)

theorem valuesWhere_cons {indexed flag : Bool} {kind : Kind} {inputs : List Input} {value : Value}
    {values : List Value} :
    valuesWhere indexed (⟨kind, flag⟩ :: inputs) (value :: values) =
      if flag = indexed then value :: valuesWhere indexed inputs values
      else valuesWhere indexed inputs values := by
  by_cases h : flag = indexed
  · rw [if_pos h, valuesWhere, List.zip_cons_cons, List.filter_cons_of_pos (by simpa using h), List.map_cons,
      valuesWhere]
  · rw [if_neg h, valuesWhere, List.zip_cons_cons, List.filter_cons_of_neg (by simpa using h), valuesWhere]

theorem inputTopics_cons_some_eq_ok_iff {kind : Kind} {kinds : List Kind} {value : Value}
    {arguments : List (Option Value)} {topics : List (Option Word)} :
    inputTopics (kind :: kinds) (some value :: arguments) = .ok topics ↔
      ∃ topic others, inputTopic kind value = .ok topic ∧ inputTopics kinds arguments = .ok others ∧
        topics = some topic :: others := by
  rw [inputTopics]
  simp only [bind_eq_ok_iff, pure_eq_ok_iff]
  constructor
  · rintro ⟨topic, htopic, others, hothers, rfl⟩
    exact ⟨topic, others, htopic, hothers, rfl⟩
  · rintro ⟨topic, others, htopic, hothers, rfl⟩
    exact ⟨topic, htopic, others, hothers, rfl⟩

/-- The topics and the values of the data are merged to the values of all inputs. The topics of all
indexed inputs are given, so none of them is open. -/
theorem mergeInputs_of_inputTopics : ∀ {inputs : List Input} {values : List Value}
    {topics : List (Option Word)}, values.length = inputs.length →
    inputTopics ((inputs.filter (·.indexed)).map (·.kind)) ((valuesWhere true inputs values).map some)
      = .ok topics →
    ∃ words, topics = words.map some ∧ words.length = (inputs.filter (·.indexed)).length ∧
      mergeInputs inputs words (valuesWhere false inputs values)
        = .ok (List.zipWith Input.logged inputs values)
  | [], values, topics, _, h => by
    have htopics : topics = [] := (Except.ok.inj h).symm
    exact ⟨[], htopics, rfl, rfl⟩
  | _ :: _, [], _, hcount, _ => absurd hcount (by simp)
  | ⟨kind, true⟩ :: inputs, value :: values, topics, hcount, h => by
    rw [valuesWhere_cons, if_pos rfl, List.filter_cons_of_pos rfl, List.map_cons, List.map_cons] at h
    obtain ⟨topic, others, htopic, hothers, rfl⟩ := inputTopics_cons_some_eq_ok_iff.mp h
    obtain ⟨words, rfl, hlength, hmerge⟩ := mergeInputs_of_inputTopics (Nat.succ.inj hcount) hothers
    have hread : readTopic kind topic = .ok (Input.logged ⟨kind, true⟩ value) :=
      readTopic_of_inputTopic htopic
    refine ⟨topic :: words, rfl, ?_, ?_⟩
    · rw [List.filter_cons_of_pos rfl, List.length_cons, List.length_cons, hlength]
    · rw [valuesWhere_cons, if_neg (by decide), mergeInputs, hread, hmerge]
      rfl
  | ⟨kind, false⟩ :: inputs, value :: values, topics, hcount, h => by
    have hfilter : (⟨kind, false⟩ :: inputs : List Input).filter (·.indexed) = inputs.filter (·.indexed) := rfl
    rw [valuesWhere_cons, if_neg (by decide), hfilter] at h
    obtain ⟨words, rfl, hlength, hmerge⟩ := mergeInputs_of_inputTopics (Nat.succ.inj hcount) h
    refine ⟨words, rfl, ?_, ?_⟩
    · rw [hfilter, hlength]
    · rw [valuesWhere_cons, if_pos rfl, mergeInputs, hmerge]
      rfl

/-- The values of the data stand in what is merged at the inputs that are not indexed. -/
theorem valuesWhere_of_mergeInputs : ∀ {inputs : List Input} {words : List Word} {values logged : List Value},
    values.length = (inputs.filter (!·.indexed)).length → mergeInputs inputs words values = .ok logged →
    valuesWhere false inputs logged = values
  | [], _, values, logged, hcount, _ => (List.length_eq_zero_iff.mp hcount).symm
  | ⟨kind, true⟩ :: inputs, [], _, _, _, h => by
    rw [mergeInputs] at h
    cases h
  | ⟨kind, true⟩ :: inputs, word :: words, values, logged, hcount, h => by
    rw [mergeInputs] at h
    simp only [bind_eq_ok_iff, pure_eq_ok_iff] at h
    obtain ⟨value, -, others, hothers, rfl⟩ := h
    rw [valuesWhere_cons, if_neg (by decide)]
    exact valuesWhere_of_mergeInputs hcount hothers
  | ⟨kind, false⟩ :: inputs, _, [], _, hcount, _ => by cases hcount
  | ⟨kind, false⟩ :: inputs, words, value :: values, logged, hcount, h => by
    rw [mergeInputs] at h
    simp only [bind_eq_ok_iff, pure_eq_ok_iff] at h
    obtain ⟨others, hothers, rfl⟩ := h
    rw [valuesWhere_cons, if_pos rfl, valuesWhere_of_mergeInputs (Nat.succ.inj hcount) hothers]

theorem valuesWhere_logged : ∀ (inputs : List Input) (values : List Value),
    valuesWhere false inputs (List.zipWith Input.logged inputs values) = valuesWhere false inputs values
  | [], _ => rfl
  | _ :: _, [] => rfl
  | ⟨kind, true⟩ :: inputs, value :: values => by
    rw [List.zipWith_cons_cons, valuesWhere_cons, valuesWhere_cons, if_neg (by decide), if_neg (by decide),
      valuesWhere_logged inputs values]
  | ⟨kind, false⟩ :: inputs, value :: values => by
    rw [List.zipWith_cons_cons, valuesWhere_cons, valuesWhere_cons, if_pos rfl, if_pos rfl,
      valuesWhere_logged inputs values]
    rfl

/-! ### Logs -/

section

variable {definition : String} {parsed : Definition}

/-- A log is read if its first topic is the event's, the other topics are as many as the indexed inputs,
and the data hold the values of the remaining inputs. -/
theorem decodeLog_eq_ok_iff {topics : List Word} {data : Bytes} {logged : List Value}
    (hparsed : Definition.parse definition = .ok parsed) :
    decodeLog definition topics data = .ok logged ↔
      ∃ words values, topics = parsed.topic :: words ∧ words.length = parsed.indexedKinds.length ∧
        decode parsed.dataKinds data = .ok values ∧
        mergeInputs parsed.inputs words values = .ok logged := by
  rw [decodeLog, hparsed]
  cases topics with
  | nil =>
    constructor
    · intro h
      exact absurd h throw_ne_ok
    · rintro ⟨words, values, htopics, -⟩
      exact absurd htopics (by simp)
  | cons first words =>
    simp only [bind_eq_ok_iff, guard_eq_ok_iff, Except.ok.injEq, exists_eq_left', ne_eq, Decidable.not_not]
    constructor
    · rintro ⟨rfl, hlength, values, hvalues, hmerge⟩
      exact ⟨words, values, rfl, hlength, hvalues, hmerge⟩
    · rintro ⟨words, values, htopics, hlength, hvalues, hmerge⟩
      obtain ⟨rfl, rfl⟩ := List.cons.inj htopics
      exact ⟨rfl, hlength, values, hvalues, hmerge⟩

theorem decodeLog_cons {words : List Word} (hparsed : Definition.parse definition = .ok parsed)
    (hcount : words.length = parsed.indexedKinds.length) (data : Bytes) :
    decodeLog definition (parsed.topic :: words) data
      = decode parsed.dataKinds data >>= fun values => mergeInputs parsed.inputs words values := by
  rw [decodeLog, hparsed]
  simp only [bind, Except.bind, hcount]
  rw [if_neg (not_not_intro rfl), if_neg (not_not_intro rfl)]

theorem encodeTopics_eq_ok_iff {arguments : List (Option Value)} {topics : List (Option Word)}
    (hparsed : Definition.parse definition = .ok parsed) :
    encodeTopics definition arguments = .ok topics ↔
      arguments.length ≤ parsed.indexedKinds.length ∧
        ∃ others, inputTopics parsed.indexedKinds arguments = .ok others ∧
          topics = some parsed.topic :: others := by
  rw [encodeTopics, hparsed]
  simp only [bind_eq_ok_iff, guard_eq_ok_iff, pure_eq_ok_iff, Except.ok.injEq, exists_eq_left', Nat.not_lt]
  constructor
  · rintro ⟨hcount, others, hothers, rfl⟩
    exact ⟨hcount, others, hothers, rfl⟩
  · rintro ⟨hcount, others, hothers, rfl⟩
    exact ⟨hcount, others, hothers, rfl⟩

/-- **What an event logs is read back** in the order of the inputs, with the digests of indexed strings, unless
there is an empty list in the data whose elements cannot be counted. Topics are given for all indexed inputs, so
none of them is open; an array or a tuple among them has no topic. Octet strings are shorter than 2^64. -/
theorem logged_values_are_read_back_iff {values : List Value} {topics : List (Option Word)} {data : Bytes}
    (hparsed : Definition.parse definition = .ok parsed)
    (hnoEmpty : ∀ kind ∈ parsed.dataKinds, kind.noEmpty = true)
    (hcount : values.length = parsed.inputs.length)
    (htopics : encodeTopics definition ((valuesWhere true parsed.inputs values).map some) = .ok topics)
    (hdata : encode parsed.dataKinds (valuesWhere false parsed.inputs values) = .ok data)
    (hlen : data.length < 2 ^ 64) :
    ∃ words, topics = words.map some ∧
      (decodeLog definition words data = .ok (List.zipWith Input.logged parsed.inputs values) ↔
        ListsCounted parsed.dataKinds (valuesWhere false parsed.inputs values)) := by
  obtain ⟨-, others, hothers, rfl⟩ := (encodeTopics_eq_ok_iff hparsed).mp htopics
  obtain ⟨words, rfl, hlength, hmerge⟩ := mergeInputs_of_inputTopics hcount hothers
  have hindexed : words.length = parsed.indexedKinds.length := by
    rw [hlength, Definition.indexedKinds, List.length_map]
  have hread := decode_iff_of_encode hnoEmpty hlen hdata
  refine ⟨parsed.topic :: words, rfl, ?_⟩
  rw [decodeLog_eq_ok_iff hparsed]
  constructor
  · rintro ⟨words', found, htopics, -, hfound, hmerged⟩
    obtain ⟨hlen, -⟩ := Value.hasKind_tuple_iff.mp (hasKind_of_decode hfound)
    rw [Definition.dataKinds, List.length_map] at hlen
    -- the values that are read are those that were written, since the log has them at their places
    have hsame := valuesWhere_of_mergeInputs hlen hmerged
    rw [valuesWhere_logged] at hsame
    rw [hsame]
    exact listsCounted_of_decode hfound
  · intro hlists
    exact ⟨words, _, rfl, hindexed, hread.mpr hlists, hmerge⟩

end

/-! ### An event -/

/-- An event with an input in its data between two that are topics. -/
def sampleEvent : String := "event Registered(string indexed name, string note, uint8 indexed level)"

/-- Its inputs. -/
def sampleInputs : List Input := [⟨.string, true⟩, ⟨.string, false⟩, ⟨.uint 8, true⟩]

theorem parse_sampleEvent : Definition.parse sampleEvent = .ok ⟨"Registered", sampleInputs, []⟩ := by
  have hstring : Kind.parse "string".toList = .ok .string :=
    Kind.parse_of_name (by decide +kernel) (by decide +kernel) rfl
  have hlevel : Kind.parse "uint8".toList = .ok (.uint 8) :=
    Kind.parse_of_name (by decide +kernel) (by decide +kernel) rfl
  have hinputs : ["string indexed name".toList, " string note".toList, " uint8 indexed level".toList].mapM
      readInput = .ok sampleInputs := by
    simp only [mapM_cons_eq_ok_iff]
    refine ⟨_, _, readInput_of_name (by decide +kernel) rfl hstring, ?_, rfl⟩
    refine ⟨_, _, readInput_of_name (by decide +kernel) rfl hstring, ?_, rfl⟩
    exact ⟨_, _, readInput_of_name (by decide +kernel) rfl hlevel, rfl, rfl⟩
  have hname : isIdentifier (Text.trim "Registered".toList) = true := by decide +kernel
  exact Definition.parse_eq_ok rfl hname rfl rfl hinputs rfl rfl

/-- The name comes back as its digest, and the note between the topics at its place. -/
theorem registration_is_read_back :
    let values : List Value := [.string "alice", .string "hi", .uint 3]
    ∃ topics data words,
      encodeTopics sampleEvent ((valuesWhere true sampleInputs values).map some) = .ok topics ∧
      encode [.string] (valuesWhere false sampleInputs values) = .ok data ∧ data.length = 96 ∧
      topics = words.map some ∧
      decodeLog sampleEvent words data
        = .ok [.fixedBytes (keccak256 (Text.octets "alice")).toBytes, .string "hi", .uint 3] := by
  intro values
  obtain ⟨topics, htopics⟩ : ∃ topics,
      encodeTopics sampleEvent ((valuesWhere true sampleInputs values).map some) = .ok topics := by
    simp only [encodeTopics_eq_ok_iff parse_sampleEvent]
    exact ⟨_, by decide, _, rfl, rfl⟩
  obtain ⟨data, hdata, hlength⟩ : ∃ data,
      encode [.string] (valuesWhere false sampleInputs values) = .ok data ∧ data.length = 96 :=
    ⟨_, rfl, by decide +kernel⟩
  obtain ⟨words, hwords, hread⟩ :=
    logged_values_are_read_back_iff parse_sampleEvent (by decide) rfl htopics hdata (by omega)
  have hlists : ListsCounted [.string] (valuesWhere false sampleInputs values) :=
    listsCounted_of_countedThroughout (by decide) _
  exact ⟨topics, data, words, htopics, hdata, hlength, hwords, hread.mpr hlists⟩

/-- An event of lists that cannot be counted: without elements such a list is written into the data, and the log
is not read. -/
theorem log_with_an_uncounted_list_is_not_read :
    ∃ parsed data, Definition.parse "E((uint8[18446744073709551615],bool)[])" = .ok parsed ∧
      (∀ kind ∈ parsed.dataKinds, kind.noEmpty = true) ∧
      encodeTopics "E((uint8[18446744073709551615],bool)[])" [] = .ok [some parsed.topic] ∧
      encode parsed.dataKinds [.array []] = .ok data ∧ data.length = 64 ∧
      decodeLog "E((uint8[18446744073709551615],bool)[])" [parsed.topic] data = .error .abiHeadSum := by
  have hparsed : Definition.parse "E((uint8[18446744073709551615],bool)[])"
      = .ok ⟨"E", [⟨.array uncountedPair, false⟩], []⟩ :=
    Definition.parse_canonical_eq ⟨"E", [⟨.array uncountedPair, false⟩], []⟩ (by decide)
      (List.forall_mem_singleton.mpr (.array isAdmitted_uncountedPair))
  refine ⟨_, _, hparsed, by decide, (encodeTopics_eq_ok_iff hparsed).mpr ⟨Nat.zero_le _, [], rfl, rfl⟩, rfl, rfl, ?_⟩
  rw [decodeLog_cons hparsed rfl]
  rfl

end Abi
end EthWire
