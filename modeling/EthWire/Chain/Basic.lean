/-
# Chains

A chain has an id, a name and perhaps types of transactions of its own. It writes and reads a
transaction with the codec of its own types if that claims it, and otherwise as one of the common types.
What is read or signed must be for the chain, as far as it says for which chain it is.

Key definitions: `Chain`, `Chain.encode`, `Chain.toBytes`, `Chain.ofBytes`, `Chain.sign`,
`Chain.sender`, `Chain.signingHash`, `Chain.decoder`, `Chain.json`, `Chain.summary`.
-/
import EthWire.Chain.Transaction
import EthWire.Text.Quoted
import EthWire.Transaction.Decoding
import EthWire.Transaction.Signing

namespace EthWire

/-- A chain and the types of transactions that it adds. -/
structure Chain where
  id : UInt64
  name : String
  codec : Option ChainCodec

namespace Chain

/-- The id as a word. -/
def idWord (chain : Chain) : Word :=
  BitVec.ofNat 256 chain.id.toNat

/-- The written form of a transaction with a signature or none. -/
def encode (chain : Chain) (tx : ChainTransaction) (signature : Option Signature) :
    Except Error Bytes :=
  match chain.codec.bind fun codec => codec.write? tx signature with
  | some bytes => .ok bytes
  | none =>
    match tx with
    | .standard tx => tx.encode signature
    | .custom typeByte .. =>
      .error (.chainEnvelope (chain.name ++ " has no serializer for type " ++ Hex.data [typeByte]))

/-- The written form of a transaction. -/
def toBytes (chain : Chain) (tx : ChainTransaction) : Except Error Bytes :=
  chain.encode tx tx.signature?

/-- The digest that is signed. -/
def signingHash (chain : Chain) (tx : ChainTransaction) : Except Error Word :=
  (chain.encode tx none).map keccak256

/-- Refuses a transaction of the chain's own types that is for another chain. -/
def verifyCustom (chain : Chain) (tx : ChainTransaction) : Except Error Unit :=
  match chain.codec.bind fun codec => codec.chainId? tx with
  | some got => if got ≠ chain.idWord then .error (.chainMismatch chain.idWord got) else .ok ()
  | none => .ok ()

/-- The transaction with the signature of a key. -/
def sign (scheme : Scheme) (chain : Chain) (tx : ChainTransaction) (key : PrivateKey) :
    Except Error ChainTransaction := do
  match tx with
  | .standard tx => return .standard (← tx.sign scheme key (some chain.id))
  | .custom typeByte fields _ =>
    chain.verifyCustom tx
    let digest ← chain.signingHash tx
    return .custom typeByte fields (some (key.signWord scheme digest))

/-- Who signed the transaction. -/
def sender (scheme : Scheme) (chain : Chain) (tx : ChainTransaction) : Except Error Address := do
  match tx with
  | .standard tx => tx.sender scheme
  | .custom _ _ none => throw .noSignature
  | .custom _ _ (some signature) =>
    signature.check
    signature.recoverWord scheme (← chain.signingHash tx)

/-- The transaction that octets spell on the chain. -/
def ofBytes (chain : Chain) (bytes : Bytes) : Except Error ChainTransaction := do
  match chain.codec.bind fun codec => codec.read? bytes with
  | some result =>
    let tx ← result
    chain.verifyCustom tx
    return tx
  | none =>
    let tx ← Transaction.ofBytes bytes
    tx.verifyChainId chain.idWord
    return .standard tx

/-! ### Descriptions -/

/-- Reads the record of a chain without types of its own. -/
def decoder : Json.Decoder Chain := fun levels tree => do
  let record ← Json.Record.open? ["id", "name"] levels tree
  return ⟨← record.required? "id" Json.Decoder.uint64,
    ← record.required? "name" Json.Decoder.string, none⟩

/-- The text of the record. -/
def json (chain : Chain) : String :=
  Json.objectText [("id", toString chain.id.toNat), ("name", Json.quote chain.name)]

/-- A text for logs. -/
def summary (chain : Chain) : String :=
  s!"Chain \x7b id: {chain.id.toNat}, name: " ++ Quoted.text chain.name ++ ", serializers: " ++
    (if chain.codec.isSome then "true" else "false") ++ " \x7d"

end Chain
end EthWire
