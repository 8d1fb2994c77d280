/-
# Signing transactions

A signature is for the digest of the unsigned transaction. Signing a legacy transaction for a network
makes it one for that chain; any other transaction must be for the network already. The sender is who
gave the signature, which must pass the check first.

Key definitions: `Transaction.sign`, `Transaction.sender`, `Transaction.isValid`.
-/
import EthWire.Transaction.Encoding

namespace EthWire
namespace Transaction

/-- The transaction for a network. -/
def forNetwork (tx : Transaction) (network : UInt64) : Except Error Transaction :=
  if network = 0 ∨ maxChainId ≤ network.toNat then .error .networkId
  else
    let chainId : Word := BitVec.ofNat 256 network.toNat
    match tx.envelope with
    | .legacy _ gasPrice recipient =>
      .ok { tx with envelope := .legacy (some chainId) gasPrice recipient }
    | _ => do
      tx.verifyChainId chainId
      return tx

/-- The transaction for a network, or as it is. -/
def forNetwork? (tx : Transaction) : Option UInt64 → Except Error Transaction
  | some network => tx.forNetwork network
  | none => .ok tx

/-- The transaction with the signature of a key, for a network if one is given. -/
def sign (scheme : Scheme) (tx : Transaction) (key : PrivateKey) (network : Option UInt64) :
    Except Error Transaction := do
  let tx ← tx.forNetwork? network
  let digest ← tx.signingHash
  return { tx with signature := some (key.signWord scheme digest) }

/-- Who signed the transaction. -/
def sender (scheme : Scheme) (tx : Transaction) : Except Error Address := do
  match tx.signature with
  | none => throw .noSignature
  | some signature =>
    signature.check
    signature.recoverWord scheme (← tx.signingHash)

/-- Whether an attached signature passes the check and has a signer. -/
def hasSender (scheme : Scheme) (tx : Transaction) : Bool :=
  match tx.signature with
  | none => true
  | some signature => signature.isValid && (tx.sender scheme).isOk

/-- Whether the rules of the envelope hold, the signature has a signer, the nonce is below 2^64 - 1 and
the cost of all gas fits in a word. -/
def isValid (scheme : Scheme) (tx : Transaction) : Bool :=
  tx.validate.isOk && tx.hasSender scheme && tx.nonce.toNat < 2 ^ 64 - 1 &&
    tx.gasLimit.toNat * tx.envelope.gasPrice.toNat < 2 ^ 256

end Transaction
end EthWire
