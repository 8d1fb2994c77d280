/-
# Events

A log has topics and data. The first topic is the digest of the event's canonical text, the others are
the indexed inputs in order; the remaining inputs are in the data. An indexed string or octet string
is stored as its digest only, and so is an indexed array or tuple, which this library can read as a
digest and not write.

Key definitions: `Abi.inputTopic`, `Abi.encodeTopics`, `Abi.decodeLog`.
-/
import EthWire.Abi.Call

namespace EthWire
namespace Abi

/-- Whether a topic holds a value's digest in place of the value. -/
def Kind.isHashedTopic : Kind → Bool
  | .string | .bytes | .array _ | .fixedArray .. | .tuple _ => true
  | _ => false

/-- The topic of an indexed value. -/
def inputTopic : Kind → Value → Except Error Word
  | .string, .string content => .ok (keccak256 (Text.octets content))
  | .bytes, .bytes content => .ok (keccak256 content)
  | .array elem, _ => .error (.abiType (Kind.array elem).text)
  | .fixedArray elem length, _ => .error (.abiType (Kind.fixedArray elem length).text)
  | .tuple members, _ => .error (.abiType (Kind.tuple members).text)
  | kind, value => (encodeValue kind value).map Word.ofBytes

/-- The topics of indexed inputs, open for those without an argument. -/
def inputTopics : List Kind → List (Option Value) → Except Error (List (Option Word))
  | [], _ => .ok []
  | _ :: kinds, [] => do return none :: (← inputTopics kinds [])
  | _ :: kinds, none :: arguments => do return none :: (← inputTopics kinds arguments)
  | kind :: kinds, some value :: arguments => do
    let topic ← inputTopic kind value
    return some topic :: (← inputTopics kinds arguments)

/-- The types of the inputs that are topics. -/
def Definition.indexedKinds (definition : Definition) : List Kind :=
  (definition.inputs.filter (·.indexed)).map (·.kind)

/-- The types of the inputs that are in the data. -/
def Definition.dataKinds (definition : Definition) : List Kind :=
  (definition.inputs.filter (!·.indexed)).map (·.kind)

/-- The topics that select the logs of an event with the given indexed arguments. -/
def encodeTopics (definition : String) (arguments : List (Option Value)) :
    Except Error (List (Option Word)) := do
  let parsed ← Definition.parse definition
  let kinds := parsed.indexedKinds
  if kinds.length < arguments.length then throw (.abiCount kinds.length arguments.length)
  return some parsed.topic :: (← inputTopics kinds arguments)

/-- The value of an indexed input, or its digest. -/
def readTopic (kind : Kind) (topic : Word) : Except Error Value :=
  if kind.isHashedTopic then .ok (.fixedBytes topic.toBytes) else decodeValue kind topic.toBytes

/-- The inputs in the order of their declaration, taken from the topics and from the values of the
data. -/
def mergeInputs : List Input → List Word → List Value → Except Error (List Value)
  | [], _, _ => .ok []
  | ⟨kind, true⟩ :: inputs, topic :: topics, values => do
    let value ← readTopic kind topic
    return value :: (← mergeInputs inputs topics values)
  | ⟨_, false⟩ :: inputs, topics, value :: values => do
    return value :: (← mergeInputs inputs topics values)
  | ⟨_, true⟩ :: _, [], _ => .error (.abiTopicCount 0 0)
  | ⟨_, false⟩ :: _, _, [] => .error .abiNoData

/-- The inputs of a log. -/
def decodeLog (definition : String) (topics : List Word) (data : Bytes) :
    Except Error (List Value) := do
  let parsed ← Definition.parse definition
  match topics with
  | [] => throw (.abiEventTopic parsed.topic)
  | first :: topics =>
    if first ≠ parsed.topic then throw (.abiEventTopic parsed.topic)
    let indexed := parsed.indexedKinds.length
    if topics.length ≠ indexed then throw (.abiTopicCount indexed topics.length)
    let values ← decode parsed.dataKinds data
    mergeInputs parsed.inputs topics values

end Abi
end EthWire
