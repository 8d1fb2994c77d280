/-
# Data comes out of its blobs as it went in

Data goes into blobs in two cuts: its stream is cut into one piece for each blob, and each piece, filled
up with zeros, is cut into field elements of 31 octets behind a zero octet. Both cuts are undone by
putting the pieces together again: the elements of a blob give back the filled piece
(`Blob.stream_ofStream`), and the filled pieces give back the stream with zeros behind it, since only the
last piece can be short (`Blob.exists_flatten_map_fill`). The length in front of the stream says where the
data ends, so the zeros do no harm (`Blob.dataOf_streamOf_append`).

Key theorems: `Blob.stream_ofStream`, `Blob.exists_flatten_map_fill`, `Blob.pack_eq_ok_iff`,
`Blob.unpack_append_of_pack`.
-/
import EthWire.Blob.Basic
import EthWire.Proofs.Bytes.Blocks
import EthWire.Proofs.Outcome

namespace EthWire

namespace Blob

/-! ### One blob -/

theorem fill_eq {stream : Bytes} (h : stream.length ≤ capacity) :
    fill stream = stream ++ List.replicate (capacity - stream.length) 0 := by
  rw [fill, List.take_append, List.take_of_length_le h, List.take_replicate]
  congr 2
  omega

theorem blocks_elements {stream : Bytes} {n : Nat} (h : stream.length = n * 31) :
    (elements stream).blocks 31 = (stream.blocks 30).map (0 :: ·) := by
  rw [elements, List.flatMap_def]
  refine Bytes.blocks_flatten fun element hmem => ?_
  obtain ⟨piece, hpiece, rfl⟩ := List.mem_map.mp hmem
  rw [List.length_cons, Bytes.length_of_mem_blocks h hpiece]

/-- The stream in a blob is the one that was put there, filled up with zeros. -/
theorem stream_ofStream (number : Nat) (content : Bytes) :
    stream number (ofStream content) = .ok (fill content) := by
  have hpieces := mapM_zipIdx_map (elementStream number) (0 :: ·) id (fun _ _ => rfl)
    ((fill content).blocks 30) 0
  have hblocks : (ofStream content).bytes.blocks 31 = ((fill content).blocks 30).map (0 :: ·) :=
    blocks_elements (n := 4096) (length_fill content)
  rw [stream, hblocks, hpieces, List.map_id]
  exact congrArg Except.ok (Bytes.flatten_blocks 30 (fill content))

/-! ### The stream -/

/-- The streams of the blobs make up the stream of the data, with zeros behind it. -/
theorem exists_flatten_map_fill (content : Bytes) :
    ∃ zeros, ((content.blocks (capacity - 1)).map fill).flatten = content ++ List.replicate zeros 0 := by
  fun_induction Bytes.blocks (capacity - 1) content with
  | case1 => exact ⟨0, rfl⟩
  | case2 b rest ih =>
    rw [List.map_cons, List.flatten_cons]
    by_cases hlast : rest.length ≤ capacity - 1
    · -- the last piece is filled up, and nothing is behind it
      have hpiece : (b :: rest).length ≤ capacity := by
        rw [List.length_cons]
        unfold capacity at hlast ⊢
        omega
      rw [List.take_of_length_le hlast, List.drop_eq_nil_of_le hlast, fill_eq hpiece]
      refine ⟨capacity - (b :: rest).length, ?_⟩
      rw [Bytes.blocks, List.map_nil, List.flatten_nil, List.append_nil]
    · have hpiece : (b :: rest.take (capacity - 1)).length = capacity := by
        rw [List.length_cons, List.length_take]
        unfold capacity at hlast ⊢
        omega
      obtain ⟨zeros, hrest⟩ := ih
      refine ⟨zeros, ?_⟩
      rw [fill_eq (Nat.le_of_eq hpiece), hpiece, Nat.sub_self, List.replicate_zero, List.append_nil,
        hrest, List.cons_append, ← List.append_assoc, List.take_append_drop, List.cons_append]

theorem dataOf_streamOf_append {data : Bytes} (h : data.length < 2 ^ 64) (behind : Bytes) :
    dataOf (streamOf data ++ behind) = .ok data := by
  have hoctets : (Bytes.toBigEndian lengthOctets data.length).length = lengthOctets :=
    Bytes.length_toBigEndian _ _
  have hlength : Bytes.ofBigEndian (Bytes.toBigEndian lengthOctets data.length) = data.length := by
    rw [Bytes.ofBigEndian_toBigEndian]
    exact Nat.mod_eq_of_lt h
  rw [dataOf, streamOf, List.append_assoc, List.take_left' hoctets, List.drop_left' hoctets, hlength]
  have hfits : data.length ≤ (data ++ behind).length := by
    rw [List.length_append]
    exact Nat.le_add_right _ _
  rw [if_pos hfits, List.take_left' rfl]

theorem exists_cons_of_streamOf (data : Bytes) : ∃ b rest, streamOf data = b :: rest :=
  ⟨_, _, rfl⟩

theorem pack_eq_ok_iff {data : Bytes} {blobs : List Blob} :
    pack data = .ok blobs ↔ data ≠ [] ∧ data.length ≤ maxDataSize ∧
      ((streamOf data).blocks (capacity - 1)).map ofStream = blobs := by
  simp only [pack, ite_error_eq_ok_iff, Except.ok.injEq, List.isEmpty_iff, Nat.not_lt, ne_eq]

/-- Packed data is unpacked as it was, also with streams in more blobs behind it. -/
theorem unpack_append_of_pack {data : Bytes} {blobs : List Blob} (h : pack data = .ok blobs)
    (further : List Bytes) : unpack (blobs ++ further.map ofStream) = .ok data := by
  obtain ⟨hne, hle, rfl⟩ := pack_eq_ok_iff.mp h
  have hstreams := mapM_zipIdx_map stream ofStream fill stream_ofStream
    ((streamOf data).blocks (capacity - 1) ++ further) 0
  obtain ⟨zeros, hflatten⟩ := exists_flatten_map_fill (streamOf data)
  have hsize : data.length < 2 ^ 64 := Nat.lt_of_le_of_lt hle (by decide)
  have hsome : (((streamOf data).blocks (capacity - 1) ++ further).map ofStream).isEmpty = false := by
    obtain ⟨b, rest, hcons⟩ := exists_cons_of_streamOf data
    rw [hcons, Bytes.blocks_cons]
    rfl
  rw [← List.map_append, unpack, hsome, hstreams]
  change dataOf _ = _
  rw [List.map_append, List.flatten_append, hflatten, List.append_assoc, dataOf_streamOf_append hsize]

theorem unpack_of_pack {data : Bytes} {blobs : List Blob} (h : pack data = .ok blobs) :
    unpack blobs = .ok data := by
  simpa using unpack_append_of_pack h []

end Blob
end EthWire
