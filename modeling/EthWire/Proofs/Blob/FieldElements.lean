/-
# How many blobs data takes, and what may follow them

The number of blobs is that of the pieces into which the stream of the data is cut, which is its length over
the capacity of a blob, rounded up (`Bytes.length_blocks`). Every field element of theirs starts with a zero
octet, and the blobs of which this is true are exactly those that hold a stream (`Blob.exists_ofStream`). So any
more of them may follow: whatever they hold is behind the data, where unpacking does not look.

Key definitions: `Blob.HasZeroTops`.
Key theorems: `Blob.hasZeroTops_iff`, `Blob.exists_ofStream`, `Blob.data_comes_out_of_its_blobs`.
-/
import EthWire.Proofs.Blob.Packing

namespace EthWire

namespace Blob

/-! ### Zero octets on top -/

/-- Each of the 4096 field elements starts with a zero octet. -/
def HasZeroTops (blob : Blob) : Prop :=
  ∀ i < 4096, blob.bytes[i * 32]? = some 0

theorem head?_of_getElem?_blocks {bytes element : Bytes} {i : Nat} (h : (bytes.blocks 31)[i]? = some element) :
    element.head? = bytes[i * 32]? := by
  rw [Bytes.getElem?_blocks, Option.ite_none_right_eq_some, Option.some.injEq] at h
  obtain ⟨-, rfl⟩ := h
  rw [List.head?_take, if_neg (by decide), List.head?_drop]

theorem hasZeroTops_iff {blob : Blob} :
    blob.HasZeroTops ↔ ∀ element ∈ blob.bytes.blocks 31, element.head? = some 0 := by
  have hcount : (blob.bytes.blocks 31).length = 4096 := by
    rw [Bytes.length_blocks, blob.length_eq]
  constructor
  · intro h element hmem
    obtain ⟨i, hi⟩ := List.getElem?_of_mem hmem
    rw [head?_of_getElem?_blocks hi]
    exact h i (hcount ▸ (List.getElem?_eq_some_iff.mp hi).1)
  · intro h i hi
    have hget := List.getElem?_eq_getElem (hcount.symm ▸ hi : i < (blob.bytes.blocks 31).length)
    rw [← head?_of_getElem?_blocks hget]
    exact h _ (List.getElem_mem _)

theorem hasZeroTops_ofStream (content : Bytes) : (ofStream content).HasZeroTops := by
  have hblocks : (ofStream content).bytes.blocks 31 = ((fill content).blocks 30).map (0 :: ·) :=
    blocks_elements (n := 4096) (length_fill content)
  rw [hasZeroTops_iff, hblocks]
  intro element hmem
  obtain ⟨piece, -, rfl⟩ := List.mem_map.mp hmem
  rfl

theorem length_flatten_map_cons (pieces : List Bytes) :
    (pieces.map (0 :: ·)).flatten.length = pieces.flatten.length + pieces.length := by
  induction pieces with
  | nil => rfl
  | cons piece pieces ih =>
    simp only [List.map_cons, List.flatten_cons, List.length_append, List.length_cons] at ih ⊢
    omega

theorem exists_pieces {blob : Blob} (h : blob.HasZeroTops) :
    ∃ pieces : List Bytes, pieces.map (0 :: ·) = blob.bytes.blocks 31 := by
  refine ⟨(blob.bytes.blocks 31).map List.tail, ?_⟩
  rw [List.map_map]
  refine (List.map_congr_left fun element hmem => ?_).trans (List.map_id _)
  have hzero := hasZeroTops_iff.mp h element hmem
  cases element with
  | nil => cases hzero
  | cons top piece =>
    obtain rfl : top = 0 := Option.some.inj hzero
    rfl

/-- A blob with zeros on top holds a stream. -/
theorem exists_ofStream {blob : Blob} (h : blob.HasZeroTops) : ∃ content, ofStream content = blob := by
  obtain ⟨pieces, hpieces⟩ := exists_pieces h
  have hflatten : (pieces.map (0 :: ·)).flatten = blob.bytes := by
    rw [hpieces, Bytes.flatten_blocks]
  have hblocks : Bytes.blocks 30 pieces.flatten = pieces := by
    refine Bytes.blocks_flatten fun piece hmem => ?_
    have helement : 0 :: piece ∈ blob.bytes.blocks 31 := hpieces ▸ List.mem_map_of_mem hmem
    exact Nat.succ.inj (Bytes.length_of_mem_blocks (n := 4096) blob.length_eq helement)
  have hcount : pieces.length = 4096 := by
    have hsame := congrArg List.length hpieces
    rwa [List.length_map, Bytes.length_blocks, blob.length_eq] at hsame
  have hlength : pieces.flatten.length = capacity := by
    have hsum := length_flatten_map_cons pieces
    rw [hflatten, blob.length_eq, hcount] at hsum
    exact Nat.add_right_cancel hsum.symm
  have hfill : fill pieces.flatten = pieces.flatten := by
    rw [fill_eq (Nat.le_of_eq hlength), hlength, Nat.sub_self, List.replicate_zero, List.append_nil]
  refine ⟨pieces.flatten, FixedBytes.ext ?_⟩
  change elements (fill pieces.flatten) = blob.bytes
  rw [hfill, elements, hblocks, List.flatMap_def, hflatten]

theorem exists_map_ofStream : ∀ {blobs : List Blob}, (∀ blob ∈ blobs, blob.HasZeroTops) →
    ∃ contents : List Bytes, contents.map ofStream = blobs
  | [], _ => ⟨[], rfl⟩
  | blob :: blobs, h => by
    obtain ⟨hblob, hblobs⟩ := List.forall_mem_cons.mp h
    obtain ⟨content, rfl⟩ := exists_ofStream hblob
    obtain ⟨contents, rfl⟩ := exists_map_ofStream hblobs
    exact ⟨content :: contents, rfl⟩

/-! ### Packing -/

theorem length_of_pack {data : Bytes} {blobs : List Blob} (h : pack data = .ok blobs) :
    blobs.length = (data.length + lengthOctets + (capacity - 1)) / capacity := by
  obtain ⟨-, -, rfl⟩ := pack_eq_ok_iff.mp h
  rw [List.length_map, Bytes.length_blocks, streamOf, List.length_append, Bytes.length_toBigEndian,
    Nat.add_comm lengthOctets]
  rfl

/-- **Data comes out of its blobs.** Data that is not empty and not too long is packed into as many blobs as
its stream takes, at most six. All field elements of theirs start with a zero octet, and unpacking gives the
data back, whether such blobs follow or none. Empty data is refused, and so is any that is longer. -/
theorem data_comes_out_of_its_blobs (data : Bytes) :
    (0 < data.length → data.length ≤ maxDataSize →
      ∃ blobs, pack data = .ok blobs ∧
        blobs.length = (data.length + lengthOctets + (capacity - 1)) / capacity ∧
        blobs.length ≤ maxPerTransaction ∧
        (∀ blob ∈ blobs, blob.HasZeroTops) ∧
        unpack blobs = .ok data ∧
        ∀ further : List Blob, (∀ blob ∈ further, blob.HasZeroTops) → unpack (blobs ++ further) = .ok data) ∧
    (data.length = 0 → pack data = .error .blobEmpty) ∧
    (maxDataSize < data.length → pack data = .error (.blobDataSize maxDataSize data.length)) := by
  refine ⟨fun hpos hle => ?_, fun hzero => ?_, fun hlarge => ?_⟩
  · have hpack := pack_eq_ok_iff.mpr ⟨List.ne_nil_of_length_pos hpos, hle, rfl⟩
    have hcount := length_of_pack hpack
    refine ⟨_, hpack, hcount, ?_, fun blob hmem => ?_, unpack_of_pack hpack, fun further hfurther => ?_⟩
    · rw [hcount]
      unfold maxDataSize maxPerTransaction lengthOctets capacity at *
      omega
    · obtain ⟨content, -, rfl⟩ := List.mem_map.mp hmem
      exact hasZeroTops_ofStream content
    · obtain ⟨contents, rfl⟩ := exists_map_ofStream hfurther
      exact unpack_append_of_pack hpack contents
  · obtain rfl := List.eq_nil_of_length_eq_zero hzero
    rfl
  · have hsome : data.isEmpty = false := by
      rw [List.isEmpty_eq_false_iff]
      exact List.ne_nil_of_length_pos (by omega)
    rw [pack, hsome, if_neg Bool.false_ne_true, if_pos hlarge]

/-- The largest data fills six blobs and comes out of them also when a blob with other octets follows. One octet
more is refused, and so are no octets. -/
theorem largest_data_comes_out_of_six_blobs :
    (∃ blobs, pack (List.replicate 761848 7) = .ok blobs ∧ blobs.length = 6 ∧
      (∀ blob ∈ blobs, blob.HasZeroTops) ∧ (ofStream [1, 2, 3]).HasZeroTops ∧
      unpack (blobs ++ [ofStream [1, 2, 3]]) = .ok (List.replicate 761848 7)) ∧
    pack (List.replicate 761849 7) = .error (.blobDataSize 761848 761849) ∧
    pack [] = .error .blobEmpty := by
  have hlength : ∀ n : Nat, (List.replicate n (7 : UInt8)).length = n := fun _ => List.length_replicate
  refine ⟨?_, ?_, (data_comes_out_of_its_blobs []).2.1 rfl⟩
  · obtain ⟨blobs, hpack, hcount, -, hzeros, -, hfurther⟩ :=
      (data_comes_out_of_its_blobs (List.replicate 761848 7)).1 (by rw [hlength]; decide) (by rw [hlength]; decide)
    rw [hlength] at hcount
    have hone : ∀ blob ∈ [ofStream [1, 2, 3]], blob.HasZeroTops :=
      List.forall_mem_singleton.mpr (hasZeroTops_ofStream _)
    exact ⟨blobs, hpack, hcount, hzeros, hasZeroTops_ofStream _, hfurther _ hone⟩
  · have hlarge := (data_comes_out_of_its_blobs (List.replicate 761849 7)).2.2 (by rw [hlength]; decide)
    rw [hlength] at hlarge
    exact hlarge

end Blob
end EthWire
