/-
# Calls, results, failures and deployments

Call data is the selector of a function followed by its arguments; the data of a failure is laid out
in the same way. Result data holds the outputs alone. Deployment data is the creation code followed by
the arguments of the constructor, without a selector.

Key definitions: `Abi.encodeCall`, `Abi.decodeCall`, `Abi.encodeCallUntyped`, `Abi.encodeResult`,
`Abi.decodeResult`, `Abi.decodeFailure`, `Abi.encodeDeployment`, `Abi.decodeDeployment`.
-/
import EthWire.Abi.Definition
import EthWire.Abi.Layout
import EthWire.Abi.Reading

namespace EthWire
namespace Abi

/-- The selector at the start of the data, and what follows it. -/
def splitSelector (data : Bytes) : Except Error (Bytes × Bytes) :=
  if data.length < 4 then .error (.abiDataSize 4 data.length)
  else .ok (data.take 4, data.drop 4)

/-- The selector followed by arguments for the declared inputs. -/
def encodeCall (definition : String) (arguments : List Value) : Except Error Bytes := do
  let parsed ← Definition.parse definition
  return parsed.selector ++ (← encode parsed.inputKinds arguments)

/-- The selector followed by arguments against the types that they suggest. -/
def encodeCallUntyped (definition : String) (arguments : List Value) : Except Error Bytes := do
  let parsed ← Definition.parse definition
  return parsed.selector ++ (← encodeUntyped arguments)

/-- The arguments of call data, whose selector must be the definition's. -/
def decodeCall (definition : String) (data : Bytes) : Except Error (List Value) := do
  let parsed ← Definition.parse definition
  let (selector, arguments) ← splitSelector data
  if selector ≠ parsed.selector then throw (.abiSelector selector)
  decode parsed.inputKinds arguments

/-- The outputs of a function. -/
def encodeResult (definition : String) (values : List Value) : Except Error Bytes := do
  encode (← Definition.parse definition).outputs values

/-- The outputs in result data. -/
def decodeResult (definition : String) (data : Bytes) : Except Error (List Value) := do
  decode (← Definition.parse definition).outputs data

/-- The errors that every contract may fail with. -/
def builtinErrors : List String :=
  ["Error(string)", "Panic(uint256)"]

/-- The canonical text and the arguments of the first error with the selector. -/
def matchFailure (selector arguments : Bytes) : List String → Except Error (String × List Value)
  | [] => .error (.abiSelector selector)
  | definition :: definitions => do
    let parsed ← Definition.parse definition
    if parsed.selector = selector then
      return (parsed.canonical, ← decode parsed.inputKinds arguments)
    else matchFailure selector arguments definitions

/-- The error that the data of a failure holds, among the given ones and then the built-in ones. -/
def decodeFailure (errors : List String) (data : Bytes) : Except Error (String × List Value) := do
  let (selector, arguments) ← splitSelector data
  matchFailure selector arguments (errors ++ builtinErrors)

/-- Creation code followed by the arguments of the constructor. -/
def encodeDeployment (code : Bytes) (constructor : String) (arguments : List Value) :
    Except Error Bytes := do
  let parsed ← Definition.parse constructor
  return code ++ (← encode parsed.inputKinds arguments)

/-- The arguments behind the creation code. -/
def decodeDeployment (code : Bytes) (constructor : String) (data : Bytes) :
    Except Error (List Value) := do
  let parsed ← Definition.parse constructor
  if code.isPrefixOf data then decode parsed.inputKinds (data.drop code.length)
  else throw .abiBytecode

end Abi
end EthWire
