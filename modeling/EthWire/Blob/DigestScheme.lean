/-
# A commitment scheme of digests

Where no trusted setup is at hand, the digest of a blob can stand for a commitment to it and the digest
of the commitment for a proof. Such a scheme hides nothing, but it binds as far as the digest does, and
everything around a scheme can be tried out with it.

Key definitions: `Kzg.ofDigests`.
-/
import EthWire.Blob.Sidecar

namespace EthWire
namespace Kzg

/-- A digest made as long as a commitment by its own first half. -/
def widened (digest : Bytes) : Except Error (FixedBytes 48) :=
  Sidecar.octets48 (.bytes (digest ++ digest.take 16))

/-- The scheme in which digests stand for commitments and proofs. -/
def ofDigests : Kzg where
  commit blob := widened (sha256 blob.bytes)
  prove _ commitment := widened (sha256 commitment.bytes)
  verify blob commitment proof := do
    let expected ← widened (sha256 blob.bytes)
    let expectedProof ← widened (sha256 commitment.bytes)
    return expected = commitment ∧ expectedProof = proof

end Kzg
end EthWire
