import EthWire.Bytes.Basic
import EthWire.Word
import EthWire.Abi.Call
import EthWire.Abi.Event
import EthWire.Abi.Packed
import EthWire.Abi.Parameter
import EthWire.Address.ChecksumCache
import EthWire.Blob.Basic
import EthWire.Blob.DigestScheme
import EthWire.Chain.Basic
import EthWire.Chain.Deposit
import EthWire.Chain.FeeCurrency
import EthWire.Curve.Ecdsa
import EthWire.Name
import EthWire.Transaction.Request
import EthWire.TypedData.Atom
import EthWire.TypedData.Encoding
import EthWire.TypedData.Payload
import EthWire.WrappedSignature.Counterfactual
import EthWire.WrappedSignature.Predelegated
import EthWire.Proofs.Bytes.BigEndian
import EthWire.Proofs.Outcome
import EthWire.Proofs.Rlp.Frame
import EthWire.Proofs.Rlp.Canonical
import EthWire.Proofs.Rlp.RoundTrip
import EthWire.Proofs.Rlp.Conventions
import EthWire.Proofs.Transaction.Fields
import EthWire.Proofs.Transaction.Trailer
import EthWire.Proofs.Transaction.Canonical
import EthWire.Proofs.Transaction.RoundTrip
import EthWire.Proofs.Abi.Words
import EthWire.Proofs.Abi.Sequences
import EthWire.Proofs.Abi.Layout
import EthWire.Proofs.Abi.RoundTrip
import EthWire.Proofs.Transaction.NetworkForm
import EthWire.Proofs.Transaction.SigningPayload
import EthWire.Proofs.Signing.Preimage
import EthWire.Proofs.Signing.Recovery
import EthWire.Proofs.Transaction.Signing
import EthWire.Proofs.Transaction.Request
import EthWire.Proofs.Transaction.RequestFields
import EthWire.Proofs.Chain.Codec
import EthWire.Proofs.Chain.Deposit
import EthWire.Proofs.Chain.FeeCurrency
import EthWire.Proofs.Chain.Reading
import EthWire.Proofs.Chain.Written
import EthWire.Proofs.Chain.Signing
import EthWire.Proofs.Blob.Packing
import EthWire.Proofs.Transaction.BlobData
import EthWire.Proofs.TypedData.Encoding
import EthWire.Proofs.TypedData.Binding
import EthWire.Proofs.Abi.Event
import EthWire.Proofs.Abi.Call
import EthWire.Proofs.Signing.Malleability
import EthWire.Proofs.Address.ChecksumCache
import EthWire.Proofs.Text.Order
import EthWire.Proofs.TypedData.TypeText
import EthWire.Proofs.WrappedSignature.Unwrapping
import EthWire.Proofs.Abi.IntegerTypes
import EthWire.Proofs.TypedData.Integers
import EthWire.Proofs.Abi.AtomicNames
import EthWire.Proofs.TypedData.Resolution
import EthWire.Proofs.TypedData.Unmentioned
import EthWire.Proofs.Abi.DeclaredTypes
import EthWire.Proofs.Abi.HeadTail
import EthWire.Proofs.Abi.SuggestedKinds
import EthWire.Proofs.Address.Text
import EthWire.Proofs.Json.Decoders
import EthWire.Proofs.Json.Values
import EthWire.Proofs.TypedData.ReadBack
import EthWire.Proofs.Abi.CanonicalText
import EthWire.Proofs.Abi.AcceptedTexts
import EthWire.Proofs.Abi.Packed
import EthWire.Proofs.Abi.Declarations
import EthWire.Proofs.Abi.DefinitionText
import EthWire.Proofs.Abi.HeadSizes
import EthWire.Proofs.Abi.Hollow
import EthWire.Proofs.Rlp.Beginnings
import EthWire.Proofs.Transaction.Validation
import EthWire.Proofs.Signing.Forms
import EthWire.Proofs.Signing.Authority
import EthWire.Proofs.Blob.FieldElements
import EthWire.Proofs.Text.HexReader
import EthWire.Proofs.Address.AcceptedTexts
import EthWire.Proofs.Name
import EthWire.Proofs.Text.ShortWords
import EthWire.Proofs.Abi.SignedIntegers
import EthWire.Proofs.Rlp.Numbers
