/-
# Blobs

A blob is 4096 field elements of 32 octets. Data goes into blobs as a stream: its length in 8 octets,
then the data itself, 31 octets to an element, so that the top octet of every element is zero and the
element lies inside the scalar field. What is left of the last blob is zero.

Reading takes the stream out of the elements, and from it as many octets as the length announces.

Key definitions: `Blob`, `Blob.ofBytes`, `Blob.pack`, `Blob.unpack`, `Blob.maxDataSize`.
-/
import EthWire.Bytes.Fixed
import EthWire.Error

namespace EthWire

/-- 4096 field elements of 32 octets. -/
abbrev Blob := FixedBytes 131072

namespace Blob

/-- How many octets of data a blob holds. -/
def capacity : Nat := 126976

/-- The blobs that one transaction may carry. -/
def maxPerTransaction : Nat := 6

/-- The octets that the length in front of the data takes. -/
def lengthOctets : Nat := 8

/-- The largest data that the blobs of one transaction hold. -/
def maxDataSize : Nat := maxPerTransaction * capacity - lengthOctets

/-- The blob of exactly as many octets as a blob has. -/
def ofBytes (bytes : Bytes) : Except Error Blob :=
  match FixedBytes.ofBytes? bytes with
  | some blob => .ok blob
  | none => .error (.blobLength bytes.length)

/-- A text for logs: how many octets there are before the zeros at the end. -/
def summary (blob : Blob) : String :=
  let used := (blob.bytes.reverse.dropWhile (· == 0)).length
  s!"Blob({used} bytes used)"

/-! ### Packing -/

/-- The field elements of a stream: a zero octet in front of every 31 octets. -/
def elements (stream : Bytes) : Bytes :=
  (stream.blocks 30).flatMap (0 :: ·)

theorem length_elements (n : Nat) (stream : Bytes) (h : stream.length = n * 31) :
    (elements stream).length = n * 32 := by
  induction n generalizing stream with
  | zero =>
    obtain rfl : stream = [] := List.eq_nil_of_length_eq_zero (by omega)
    simp [elements, Bytes.blocks]
  | succ n ih =>
    cases stream with
    | nil => simp at h
    | cons b rest =>
      have hr : rest.length = n * 31 + 30 := by simp only [List.length_cons] at h; omega
      have := ih (rest.drop 30) (by simp only [List.length_drop]; omega)
      simp only [elements, Bytes.blocks, List.flatMap_cons, List.length_append, List.length_cons,
        List.length_take] at this ⊢
      omega

/-- The stream of one blob with zeros behind it, as long as a blob's stream is. -/
def fill (stream : Bytes) : Bytes :=
  (stream ++ List.replicate capacity 0).take capacity

theorem length_fill (stream : Bytes) : (fill stream).length = capacity := by
  simp [fill]

/-- The blob that holds a stream of at most its capacity. -/
def ofStream (stream : Bytes) : Blob :=
  ⟨elements (fill stream), length_elements 4096 _ (length_fill stream)⟩

/-- The stream of data: its length and the data itself. -/
def streamOf (data : Bytes) : Bytes :=
  Bytes.toBigEndian lengthOctets data.length ++ data

/-- The blobs that hold the data. -/
def pack (data : Bytes) : Except Error (List Blob) :=
  if data.isEmpty then .error .blobEmpty
  else if maxDataSize < data.length then .error (.blobDataSize maxDataSize data.length)
  else .ok (((streamOf data).blocks (capacity - 1)).map ofStream)

/-! ### Unpacking -/

/-- The stream octets of a field element. -/
def elementStream (blob element : Nat) : Bytes → Except Error Bytes
  | 0 :: rest => .ok rest
  | _ => .error (.blobElement blob element)

/-- The stream in a blob, which has a number for reports. -/
def stream (number : Nat) (blob : Blob) : Except Error Bytes := do
  let pieces ← (blob.bytes.blocks 31).zipIdx.mapM fun (element, i) => elementStream number i element
  return pieces.flatten

/-- The data at the start of a stream, behind its length. -/
def dataOf (stream : Bytes) : Except Error Bytes :=
  let length := Bytes.ofBigEndian (stream.take lengthOctets)
  let available := stream.drop lengthOctets
  if length ≤ available.length then .ok (available.take length)
  else .error (.blobHeader length available.length)

/-- The data in blobs. -/
def unpack (blobs : List Blob) : Except Error Bytes := do
  if blobs.isEmpty then throw .blobEmpty
  let streams ← blobs.zipIdx.mapM fun (blob, i) => stream i blob
  dataOf streams.flatten

end Blob
end EthWire
