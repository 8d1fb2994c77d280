/-
# Commitments to blobs

A blob travels with a commitment to it and a proof that the commitment is to this blob. Where they
come from is left open: a `Kzg` says how to commit, how to prove and how to verify. A transaction
names its blobs by their versioned hashes, which are digests of the commitments under a version octet.

Key definitions: `Kzg`, `Kzg.verifyAll`, `Commitment.versionedHash`, `Sidecar`, `Sidecar.ofBlobs`,
`Sidecar.ofData`, `Sidecar.verifyAll`, `Sidecar.toItems`, `Sidecar.ofItems`.
-/
import EthWire.Blob.Basic
import EthWire.Hash.Sha256
import EthWire.Rlp.Item

namespace EthWire

/-- A commitment to a blob. -/
abbrev Commitment := FixedBytes 48

/-- The version octet of hashes of such commitments. -/
def blobHashVersion : UInt8 := 1

/-- The digest of a commitment with the version in place of its first octet. -/
def Commitment.versionedHash (commitment : Commitment) : Word :=
  Word.ofBytes (blobHashVersion :: (sha256 commitment.bytes).drop 1)

/-- A scheme of commitments to blobs and proofs of them. -/
structure Kzg where
  commit : Blob → Except Error Commitment
  prove : Blob → Commitment → Except Error (FixedBytes 48)
  verify : Blob → Commitment → FixedBytes 48 → Except Error Bool

namespace Kzg

/-- Whether each blob goes with the commitment and the proof at its place; it stops at the first that
does not. -/
def verifyEach (kzg : Kzg) : List (Blob × Commitment × FixedBytes 48) → Except Error Bool
  | [] => .ok true
  | (blob, commitment, proof) :: rest => do
    if ← kzg.verify blob commitment proof then verifyEach kzg rest else return false

/-- Whether blobs, commitments and proofs are equally many and go together. -/
def verifyAll (kzg : Kzg) (blobs : List Blob) (commitments : List Commitment)
    (proofs : List (FixedBytes 48)) : Except Error Bool :=
  if blobs.length ≠ commitments.length ∨ blobs.length ≠ proofs.length then .ok false
  else kzg.verifyEach (blobs.zip (commitments.zip proofs))

end Kzg

/-- A blob with its commitment and proof. -/
structure Sidecar where
  blob : Blob
  commitment : Commitment
  proof : FixedBytes 48
  deriving DecidableEq, Repr

namespace Sidecar

/-- The hash by which a transaction names the blob. -/
def versionedHash (sidecar : Sidecar) : Word :=
  sidecar.commitment.versionedHash

/-- The sidecar of a blob. -/
def ofBlob (kzg : Kzg) (blob : Blob) : Except Error Sidecar := do
  let commitment ← kzg.commit blob
  return ⟨blob, commitment, ← kzg.prove blob commitment⟩

/-- The sidecars of blobs. -/
def ofBlobs (kzg : Kzg) (blobs : List Blob) : Except Error (List Sidecar) :=
  blobs.mapM (ofBlob kzg)

/-- The sidecars of the blobs that hold the data. -/
def ofData (kzg : Kzg) (data : Bytes) : Except Error (List Sidecar) :=
  Blob.pack data >>= ofBlobs kzg

/-- Refuses sidecars with a proof that does not verify. -/
def verifyAll (kzg : Kzg) (sidecars : List Sidecar) : Except Error Unit := do
  let verified ← kzg.verifyAll (sidecars.map (·.blob)) (sidecars.map (·.commitment))
    (sidecars.map (·.proof))
  if verified then return () else throw (.kzg "blob proof verification failed")

/-! ### As RLP -/

/-- The lists of the blobs, of the commitments and of the proofs. -/
def toItems (sidecars : List Sidecar) : List Rlp.Item :=
  [.list (sidecars.map fun s => .bytes s.blob.bytes),
    .list (sidecars.map fun s => .bytes s.commitment.bytes),
    .list (sidecars.map fun s => .bytes s.proof.bytes)]

/-- The 48 octets of an RLP string. -/
def octets48 (item : Rlp.Item) : Except Error (FixedBytes 48) := do
  let content ← item.asBytes
  match FixedBytes.ofBytes? content with
  | some octets => return octets
  | none => throw (.abiBytesSize 48 content.length)

/-- The sidecar of three RLP strings. -/
def ofTriple (triple : Rlp.Item × Rlp.Item × Rlp.Item) : Except Error Sidecar := do
  let (blob, commitment, proof) := triple
  return ⟨← blob.asBytes >>= Blob.ofBytes, ← octets48 commitment, ← octets48 proof⟩

/-- The sidecars in lists of blobs, of commitments and of proofs, which must be equally many. -/
def ofItems (blobs commitments proofs : Rlp.Item) : Except Error (List Sidecar) := do
  let blobs ← blobs.asList
  let commitments ← commitments.asList
  let proofs ← proofs.asList
  if blobs.length ≠ commitments.length ∨ blobs.length ≠ proofs.length then throw .rlpShape
  (blobs.zip (commitments.zip proofs)).mapM ofTriple

end Sidecar
end EthWire
