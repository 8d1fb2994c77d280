/-
# Calls, results, failures and deployments are read back

Call data and deployment data are a front and written arguments behind it: the front is the selector of
the definition or the creation code, and the reader goes on only behind the front that it expects. So
reading data succeeds exactly on that front followed by arguments that are read
(`Abi.decodeCall_eq_ok_iff`, `Abi.decodeDeployment_eq_ok_iff`), which says at once what is read back and
what is refused.

Failures are read against a list of definitions. The reader asks one after another and stops at the first
whose selector stands in front, or at the first that is no definition (`Abi.matchFailure_eq_ok_iff`).

Key theorems: `Abi.decodeCall_eq_ok_iff`, `Abi.decodeDeployment_eq_ok_iff`, `Abi.matchFailure_eq_ok_iff`,
`Abi.decodeFailure_eq_ok_iff`, `Abi.decodeFailure_append`, `Abi.data_of_a_definition_is_read_back_iff`.
-/
import EthWire.Abi.Call
import EthWire.Proofs.Abi.DefinitionText
import EthWire.Proofs.Abi.Typing

namespace EthWire
namespace Abi

/-! ### Selectors -/

theorem Definition.length_selector (parsed : Definition) : parsed.selector.length = 4 := by
  rw [selector, List.length_take, Word.length_toBytes]
  rfl

theorem splitSelector_eq_ok_iff {data selector arguments : Bytes} :
    splitSelector data = .ok (selector, arguments) ↔ selector.length = 4 ∧ data = selector ++ arguments := by
  rw [splitSelector, ite_error_eq_ok_iff, Except.ok.injEq, Prod.mk.injEq, Nat.not_lt]
  constructor
  · rintro ⟨hlen, rfl, rfl⟩
    exact ⟨List.length_take_of_le hlen, (List.take_append_drop 4 data).symm⟩
  · rintro ⟨hselector, rfl⟩
    refine ⟨?_, ?_, ?_⟩
    · rw [List.length_append]
      omega
    · exact List.take_left' hselector
    · exact List.drop_left' hselector

/-! ### One definition -/

section

variable {definition : String} {parsed : Definition} {values : List Value} {data code : Bytes}

theorem encodeCall_eq_ok_iff (hparsed : Definition.parse definition = .ok parsed) :
    encodeCall definition values = .ok data ↔
      ∃ arguments, encode parsed.inputKinds values = .ok arguments ∧ data = parsed.selector ++ arguments := by
  rw [encodeCall, hparsed]
  simp only [bind_eq_ok_iff, pure_eq_ok_iff, Except.ok.injEq, exists_eq_left', @eq_comm _ data]

theorem decodeCall_eq_ok_iff (hparsed : Definition.parse definition = .ok parsed) :
    decodeCall definition data = .ok values ↔
      ∃ arguments, data = parsed.selector ++ arguments ∧ decode parsed.inputKinds arguments = .ok values := by
  rw [decodeCall, hparsed]
  simp only [bind_eq_ok_iff, guard_eq_ok_iff, Except.ok.injEq, exists_eq_left', Prod.exists,
    splitSelector_eq_ok_iff, ne_eq, Decidable.not_not]
  constructor
  · rintro ⟨_, arguments, ⟨-, hdata⟩, rfl, hread⟩
    exact ⟨arguments, hdata, hread⟩
  · rintro ⟨arguments, hdata, hread⟩
    exact ⟨parsed.selector, arguments, ⟨parsed.length_selector, hdata⟩, rfl, hread⟩

theorem encodeResult_eq (hparsed : Definition.parse definition = .ok parsed) :
    encodeResult definition values = encode parsed.outputs values := by
  rw [encodeResult, hparsed]
  rfl

theorem decodeResult_eq (hparsed : Definition.parse definition = .ok parsed) :
    decodeResult definition data = decode parsed.outputs data := by
  rw [decodeResult, hparsed]
  rfl

theorem encodeDeployment_eq_ok_iff (hparsed : Definition.parse definition = .ok parsed) :
    encodeDeployment code definition values = .ok data ↔
      ∃ arguments, encode parsed.inputKinds values = .ok arguments ∧ data = code ++ arguments := by
  rw [encodeDeployment, hparsed]
  simp only [bind_eq_ok_iff, pure_eq_ok_iff, Except.ok.injEq, exists_eq_left', @eq_comm _ data]

theorem decodeDeployment_eq_ok_iff (hparsed : Definition.parse definition = .ok parsed) :
    decodeDeployment code definition data = .ok values ↔
      ∃ arguments, data = code ++ arguments ∧ decode parsed.inputKinds arguments = .ok values := by
  rw [decodeDeployment, hparsed]
  simp only [bind_eq_ok_iff, Except.ok.injEq, exists_eq_left', List.isPrefixOf_iff_prefix]
  constructor
  · intro h
    split at h
    · rename_i hfront
      obtain ⟨arguments, rfl⟩ := hfront
      rw [List.drop_left] at h
      exact ⟨arguments, rfl, h⟩
    · exact absurd h throw_ne_ok
  · rintro ⟨arguments, rfl, hread⟩
    rw [if_pos (List.prefix_append code arguments), List.drop_left]
    exact hread

end

/-! ### The definitions of failures -/

/-- Whether a text is a definition with another selector. -/
def HasOtherSelector (selector : Bytes) (definition : String) : Prop :=
  ∃ parsed, Definition.parse definition = .ok parsed ∧ parsed.selector ≠ selector

/-- A failure is that of the first definition with its selector, all before being definitions with
others. -/
theorem matchFailure_eq_ok_iff {selector arguments : Bytes} {text : String} {values : List Value} :
    ∀ {definitions : List String}, matchFailure selector arguments definitions = .ok (text, values) ↔
      ∃ before definition after parsed, definitions = before ++ definition :: after ∧
        (∀ earlier ∈ before, HasOtherSelector selector earlier) ∧
        Definition.parse definition = .ok parsed ∧ parsed.selector = selector ∧ parsed.canonical = text ∧
        decode parsed.inputKinds arguments = .ok values
  | [] => by
    constructor
    · intro h
      exact absurd h (by simp [matchFailure])
    · rintro ⟨before, definition, after, parsed, hsplit, -⟩
      exact absurd hsplit (by simp)
  | head :: definitions => by
    rw [matchFailure, bind_eq_ok_iff]
    constructor
    · rintro ⟨parsed, hparsed, h⟩
      by_cases hselector : parsed.selector = selector
      · rw [if_pos hselector] at h
        simp only [bind_eq_ok_iff, pure_eq_ok_iff, Prod.mk.injEq] at h
        obtain ⟨_, hread, htext, rfl⟩ := h
        exact ⟨[], head, definitions, parsed, rfl, by simp, hparsed, hselector, htext, hread⟩
      · rw [if_neg hselector] at h
        obtain ⟨before, definition, after, found, rfl, hbefore, hfound⟩ := matchFailure_eq_ok_iff.mp h
        refine ⟨head :: before, definition, after, found, rfl, ?_, hfound⟩
        exact List.forall_mem_cons.mpr ⟨⟨parsed, hparsed, hselector⟩, hbefore⟩
    · rintro ⟨before, definition, after, parsed, hsplit, hbefore, hparsed, hselector, htext, hread⟩
      cases before with
      | nil =>
        obtain ⟨rfl, rfl⟩ := List.cons.inj hsplit
        refine ⟨parsed, hparsed, ?_⟩
        rw [if_pos hselector, hread, htext]
        rfl
      | cons earlier before =>
        obtain ⟨rfl, rfl⟩ := List.cons.inj hsplit
        obtain ⟨⟨other, hother, hdiffers⟩, hbefore⟩ := List.forall_mem_cons.mp hbefore
        refine ⟨other, hother, ?_⟩
        rw [if_neg hdiffers]
        exact matchFailure_eq_ok_iff.mpr
          ⟨before, definition, after, parsed, rfl, hbefore, hparsed, hselector, htext, hread⟩

/-- What the data of a failure are read as: the first definition among the given and the built-in ones
whose selector they start with, and its arguments. -/
theorem decodeFailure_eq_ok_iff {errors : List String} {data : Bytes} {text : String} {values : List Value} :
    decodeFailure errors data = .ok (text, values) ↔
      ∃ before definition after parsed arguments, errors ++ builtinErrors = before ++ definition :: after ∧
        (∀ earlier ∈ before, HasOtherSelector parsed.selector earlier) ∧
        Definition.parse definition = .ok parsed ∧ parsed.canonical = text ∧
        data = parsed.selector ++ arguments ∧ decode parsed.inputKinds arguments = .ok values := by
  rw [decodeFailure]
  simp only [bind_eq_ok_iff, Prod.exists, splitSelector_eq_ok_iff, matchFailure_eq_ok_iff]
  constructor
  · rintro ⟨selector, arguments, ⟨-, hdata⟩, before, definition, after, parsed, hsplit, hbefore, hparsed, rfl,
      htext, hread⟩
    exact ⟨before, definition, after, parsed, arguments, hsplit, hbefore, hparsed, htext, hdata, hread⟩
  · rintro ⟨before, definition, after, parsed, arguments, hsplit, hbefore, hparsed, htext, hdata, hread⟩
    exact ⟨parsed.selector, arguments, ⟨parsed.length_selector, hdata⟩, before, definition, after, parsed,
      hsplit, hbefore, hparsed, rfl, htext, hread⟩

theorem matchFailure_append {selector arguments : Bytes} {definitions : List String} : ∀ {before : List String},
    (∀ earlier ∈ before, HasOtherSelector selector earlier) →
      matchFailure selector arguments (before ++ definitions) = matchFailure selector arguments definitions
  | [], _ => rfl
  | earlier :: before, h => by
    obtain ⟨⟨other, hother, hdiffers⟩, hbefore⟩ := List.forall_mem_cons.mp h
    rw [List.cons_append, matchFailure, hother]
    exact (if_neg hdiffers).trans (matchFailure_append hbefore)

/-! ### What is written for a definition -/

section

variable {definition : String} {parsed : Definition} {values : List Value} {data code : Bytes}

theorem decodeCall_append (hparsed : Definition.parse definition = .ok parsed) (arguments : Bytes) :
    decodeCall definition (parsed.selector ++ arguments) = decode parsed.inputKinds arguments := by
  have hsplit : splitSelector (parsed.selector ++ arguments) = .ok (parsed.selector, arguments) :=
    splitSelector_eq_ok_iff.mpr ⟨parsed.length_selector, rfl⟩
  rw [decodeCall, hparsed]
  simp only [bind, Except.bind, hsplit]
  exact if_neg (not_not_intro rfl)

theorem decodeFailure_append {before after : List String} (hparsed : Definition.parse definition = .ok parsed)
    (hbefore : ∀ earlier ∈ before, HasOtherSelector parsed.selector earlier) (arguments : Bytes) :
    decodeFailure (before ++ definition :: after) (parsed.selector ++ arguments)
      = (decode parsed.inputKinds arguments).map fun values => (parsed.canonical, values) := by
  have hsplit : splitSelector (parsed.selector ++ arguments) = .ok (parsed.selector, arguments) :=
    splitSelector_eq_ok_iff.mpr ⟨parsed.length_selector, rfl⟩
  rw [decodeFailure, hsplit, List.append_assoc]
  simp only [bind, Except.bind]
  rw [matchFailure_append hbefore, List.cons_append, matchFailure, hparsed]
  simp only [bind, Except.bind, if_true]
  rfl

theorem decodeDeployment_append (hparsed : Definition.parse definition = .ok parsed) (arguments : Bytes) :
    decodeDeployment code definition (code ++ arguments) = decode parsed.inputKinds arguments := by
  rw [decodeDeployment, hparsed]
  simp only [bind, Except.bind]
  rw [if_pos (List.isPrefixOf_iff_prefix.mpr (List.prefix_append code arguments)), List.drop_left]

theorem exists_decodeCall_error (hparsed : Definition.parse definition = .ok parsed)
    (h : data.take 4 ≠ parsed.selector) : ∃ cause, decodeCall definition data = .error cause := by
  apply exists_error_of_forall_ne_ok
  intro values hread
  obtain ⟨arguments, rfl, -⟩ := (decodeCall_eq_ok_iff hparsed).mp hread
  exact h (List.take_left' parsed.length_selector)

theorem exists_decodeFailure_error {errors : List String}
    (h : ∀ other ∈ errors ++ builtinErrors, ∀ found, Definition.parse other = .ok found →
      data.take 4 ≠ found.selector) : ∃ cause, decodeFailure errors data = .error cause := by
  apply exists_error_of_forall_ne_ok
  rintro ⟨text, values⟩ hread
  obtain ⟨before, other, after, found, arguments, hsplit, -, hfound, -, rfl, -⟩ :=
    decodeFailure_eq_ok_iff.mp hread
  have hmem : other ∈ errors ++ builtinErrors := by
    rw [hsplit]
    exact List.mem_append_right before List.mem_cons_self
  exact h other hmem found hfound (List.take_left' found.length_selector)

theorem exists_decodeDeployment_error (hparsed : Definition.parse definition = .ok parsed)
    (h : ¬ code <+: data) : ∃ cause, decodeDeployment code definition data = .error cause := by
  apply exists_error_of_forall_ne_ok
  intro values hread
  obtain ⟨arguments, rfl, -⟩ := (decodeDeployment_eq_ok_iff hparsed).mp hread
  exact h (List.prefix_append code arguments)

end

/-- **What is written for a definition is read back, and other data are refused.** It is read back unless there is
an empty list in it whose elements cannot be counted. The data of a failure are those of a call, and the
definition has to be the first of its selector in the list. Octet strings are shorter than 2^64. -/
theorem data_of_a_definition_is_read_back_iff {definition : String} {parsed : Definition}
    (hparsed : Definition.parse definition = .ok parsed)
    (hinputs : ∀ kind ∈ parsed.inputKinds, kind.noEmpty = true)
    (houtputs : ∀ kind ∈ parsed.outputs, kind.noEmpty = true) :
    (∀ values data, encodeCall definition values = .ok data → data.length < 2 ^ 64 →
      (decodeCall definition data = .ok values ↔ ListsCounted parsed.inputKinds values) ∧
      ∀ before after, (∀ earlier ∈ before, HasOtherSelector parsed.selector earlier) →
        (decodeFailure (before ++ definition :: after) data = .ok (parsed.canonical, values) ↔
          ListsCounted parsed.inputKinds values)) ∧
    (∀ values data, encodeResult definition values = .ok data → data.length < 2 ^ 64 →
      (decodeResult definition data = .ok values ↔ ListsCounted parsed.outputs values)) ∧
    (∀ code values data, encodeDeployment code definition values = .ok data → data.length < 2 ^ 64 →
      (decodeDeployment code definition data = .ok values ↔ ListsCounted parsed.inputKinds values)) ∧
    (∀ data : Bytes, data.take 4 ≠ parsed.selector → ∃ cause, decodeCall definition data = .error cause) ∧
    (∀ (errors : List String) (data : Bytes),
      (∀ other ∈ errors ++ builtinErrors, ∀ found, Definition.parse other = .ok found →
        data.take 4 ≠ found.selector) → ∃ cause, decodeFailure errors data = .error cause) ∧
    (∀ code data, ¬ code <+: data → ∃ cause, decodeDeployment code definition data = .error cause) := by
  refine ⟨?call, ?result, ?deployment, ?otherSelector, ?noSelector, ?otherCode⟩
  case call =>
    intro values data h hlen
    obtain ⟨arguments, harguments, rfl⟩ := (encodeCall_eq_ok_iff hparsed).mp h
    rw [List.length_append] at hlen
    have hread := decode_iff_of_encode hinputs (by omega) harguments
    rw [decodeCall_append hparsed]
    refine ⟨hread, ?_⟩
    intro before after hbefore
    rw [decodeFailure_append hparsed hbefore, map_eq_ok_iff]
    simpa using hread
  case result =>
    intro values data h hlen
    rw [encodeResult_eq hparsed] at h
    rw [decodeResult_eq hparsed]
    exact decode_iff_of_encode houtputs hlen h
  case deployment =>
    intro code values data h hlen
    obtain ⟨arguments, harguments, rfl⟩ := (encodeDeployment_eq_ok_iff hparsed).mp h
    rw [List.length_append] at hlen
    rw [decodeDeployment_append hparsed]
    exact decode_iff_of_encode hinputs (by omega) harguments
  case otherSelector =>
    intro data h
    exact exists_decodeCall_error hparsed h
  case noSelector =>
    intro errors data h
    exact exists_decodeFailure_error h
  case otherCode =>
    intro code data h
    exact exists_decodeDeployment_error hparsed h

/-! ### A function -/

/-- A function with an output. -/
def sampleFunction : String := "function close(uint8 level) external returns (bool)"

/-- What it is read as. -/
def sampleDefinition : Definition := ⟨"close", [⟨.uint 8, false⟩], [.bool]⟩

theorem parse_sampleFunction : Definition.parse sampleFunction = .ok sampleDefinition := by
  have hlevel : Kind.parse "uint8".toList = .ok (.uint 8) :=
    Kind.parse_of_name (by decide +kernel) (by decide +kernel) rfl
  have hflag : Kind.parse "bool".toList = .ok .bool :=
    Kind.parse_of_name (by decide +kernel) (by decide +kernel) rfl
  have hinput : readInput "uint8 level".toList = .ok ⟨.uint 8, false⟩ :=
    readInput_of_name (by decide +kernel) rfl hlevel
  have houtput : inputKind "bool".toList = .ok .bool :=
    inputKind_of_name (by decide +kernel) rfl hflag
  have hname : isIdentifier (Text.trim "close".toList) = true := by decide +kernel
  exact Definition.parse_eq_ok rfl hname rfl rfl (mapM_cons_eq_ok_iff.mpr ⟨_, _, hinput, rfl, rfl⟩) rfl
    (mapM_cons_eq_ok_iff.mpr ⟨_, _, houtput, rfl, rfl⟩)

theorem parse_panic : Definition.parse "Panic(uint256)" = .ok ⟨"Panic", [⟨.uint 256, false⟩], []⟩ := by
  have hcode : Kind.parse "uint256".toList = .ok (.uint 256) :=
    Kind.parse_of_name (by decide +kernel) (by decide +kernel) rfl
  have hinput : readInput "uint256".toList = .ok ⟨.uint 256, false⟩ :=
    readInput_of_name (by decide +kernel) rfl hcode
  have hname : isIdentifier (Text.trim "Panic".toList) = true := by decide +kernel
  exact Definition.parse_eq_ok rfl hname rfl rfl (mapM_cons_eq_ok_iff.mpr ⟨_, _, hinput, rfl, rfl⟩) rfl rfl

/-- The function is found behind a failure that the caller lists first, and other creation code does not
read the arguments. -/
theorem closing_is_read_back :
    ∃ data result deployment : Bytes,
      encodeCall sampleFunction [.uint 3] = .ok data ∧ data.length = 36 ∧
      decodeCall sampleFunction data = .ok [.uint 3] ∧
      decodeFailure ["Panic(uint256)", sampleFunction] data = .ok ("close(uint8)", [.uint 3]) ∧
      encodeResult sampleFunction [.bool true] = .ok result ∧
      decodeResult sampleFunction result = .ok [.bool true] ∧
      encodeDeployment [0x60, 0x80] sampleFunction [.uint 3] = .ok deployment ∧
      decodeDeployment [0x60, 0x80] sampleFunction deployment = .ok [.uint 3] ∧
      ∃ cause, decodeDeployment [0x60, 0x81] sampleFunction deployment = .error cause := by
  obtain ⟨hcalls, hresults, hdeployments, -, -, hother⟩ :=
    data_of_a_definition_is_read_back_iff parse_sampleFunction (by decide) (by decide)
  obtain ⟨arguments, harguments, hlength⟩ : ∃ arguments,
      encode [.uint 8] [.uint 3] = .ok arguments ∧ arguments.length = 32 :=
    ⟨_, rfl, by decide +kernel⟩
  have hdata : encodeCall sampleFunction [.uint 3] = .ok (sampleDefinition.selector ++ arguments) :=
    (encodeCall_eq_ok_iff parse_sampleFunction).mpr ⟨arguments, harguments, rfl⟩
  have hsize : (sampleDefinition.selector ++ arguments).length = 36 := by
    rw [List.length_append, Definition.length_selector, hlength]
  have hinputs : ListsCounted sampleDefinition.inputKinds [.uint 3] :=
    listsCounted_of_countedThroughout (by decide) _
  have houtputs : ListsCounted sampleDefinition.outputs [.bool true] :=
    listsCounted_of_countedThroughout (by decide) _
  obtain ⟨hcall, hfailure⟩ := hcalls _ _ hdata (by omega)
  have hpanic : HasOtherSelector sampleDefinition.selector "Panic(uint256)" :=
    ⟨_, parse_panic, by decide +kernel⟩
  obtain ⟨result, hresult, hresultSize⟩ : ∃ result,
      encodeResult sampleFunction [.bool true] = .ok result ∧ result.length = 32 := by
    rw [encodeResult_eq parse_sampleFunction]
    exact ⟨_, rfl, by decide +kernel⟩
  have hdeployment : encodeDeployment [0x60, 0x80] sampleFunction [.uint 3] = .ok ([0x60, 0x80] ++ arguments) :=
    (encodeDeployment_eq_ok_iff parse_sampleFunction).mpr ⟨arguments, harguments, rfl⟩
  have hdeploymentSize : ([0x60, 0x80] ++ arguments : Bytes).length = 34 := by
    rw [List.length_append, hlength]
    rfl
  refine ⟨_, result, _, hdata, hsize, hcall.mpr hinputs, ?failure, hresult,
    (hresults _ _ hresult (by omega)).mpr houtputs, hdeployment,
    (hdeployments _ _ _ hdeployment (by omega)).mpr hinputs, hother _ _ ?code⟩
  case failure =>
    exact (hfailure ["Panic(uint256)"] [] (by simpa using hpanic)).mpr hinputs
  case code => simp

/-- The arguments of a function of lists that cannot be counted: without elements such a list is written, and
nothing is read. -/
theorem call_with_an_uncounted_list_is_not_read :
    ∃ parsed data, Definition.parse "f((uint8[18446744073709551615],bool)[])" = .ok parsed ∧
      (∀ kind ∈ parsed.inputKinds, kind.noEmpty = true) ∧
      encodeCall "f((uint8[18446744073709551615],bool)[])" [.array []] = .ok data ∧ data.length = 68 ∧
      decodeCall "f((uint8[18446744073709551615],bool)[])" data = .error .abiHeadSum := by
  have hparsed : Definition.parse "f((uint8[18446744073709551615],bool)[])"
      = .ok ⟨"f", [⟨.array uncountedPair, false⟩], []⟩ :=
    Definition.parse_canonical_eq ⟨"f", [⟨.array uncountedPair, false⟩], []⟩ (by decide)
      (List.forall_mem_singleton.mpr (.array isAdmitted_uncountedPair))
  refine ⟨_, _, hparsed, by decide, (encodeCall_eq_ok_iff hparsed).mpr ⟨_, rfl, rfl⟩, ?_, ?_⟩
  · rw [List.length_append, Definition.length_selector]
    rfl
  · exact decodeCall_append hparsed _

end Abi
end EthWire
