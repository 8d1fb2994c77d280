/-
# What is written is read back, down to the depth limit

The reader goes 256 lists down from the outermost item. Up to there it gives every item back from its
encoding and leaves the octets behind it alone; an item with a node further down is refused, because the
reader gives up at that node and everything in front of it was read (`readItem_encode`). The induction is
on the item, with the levels that are left as a parameter: one list is one level less for its items.

A length is written in at most eight octets, so payloads are below 2^64 octets throughout; the payload of
an item bounds those of the items in it.

Key definitions: `Rlp.Item.NodeAt`, `Rlp.Item.depth`.
Key theorems: `Rlp.Item.depth_le_iff`, `Rlp.readItem_encode`, `Rlp.decode_encode`,
`Rlp.encoding_reads_back_within_depth`.
-/
import EthWire.Proofs.Rlp.Canonical

namespace EthWire
namespace Rlp

/-! ### Levels -/

namespace Item

/-- The node stands so many lists below the item; the item itself is at level 0. -/
inductive NodeAt : (item : Item) → (level : Nat) → (node : Item) → Prop where
  | root (item : Item) : NodeAt item 0 item
  | inList {items : List Item} {item node : Item} {level : Nat} (hmem : item ∈ items)
      (h : NodeAt item level node) : NodeAt (list items) (level + 1) node

mutual

/-- The level of the deepest node. -/
def depth : Item → Nat
  | bytes _ => 0
  | list items => depthBelow items

/-- The level of the deepest node of a list of these items, 0 if there are none. -/
def depthBelow : List Item → Nat
  | [] => 0
  | item :: items => max (item.depth + 1) (depthBelow items)

end

theorem depthBelow_le_iff {n : Nat} : ∀ {items : List Item},
    depthBelow items ≤ n ↔ ∀ item ∈ items, item.depth + 1 ≤ n
  | [] => by simp [depthBelow]
  | item :: items => by
    rw [depthBelow, Nat.max_le, depthBelow_le_iff, List.forall_mem_cons]

theorem depthBelow_append : ∀ front back : List Item,
    depthBelow (front ++ back) = max (depthBelow front) (depthBelow back)
  | [], back => by simp [depthBelow]
  | item :: front, back => by
    rw [List.cons_append, depthBelow, depthBelow_append front back, depthBelow, Nat.max_assoc]

theorem NodeAt.level_le_depth {item node : Item} {level : Nat} (h : NodeAt item level node) :
    level ≤ item.depth := by
  induction h with
  | root item => exact Nat.zero_le _
  | inList hmem _ ih =>
    have := depthBelow_le_iff.mp (Nat.le_refl _) _ hmem
    rw [depth]
    omega

mutual

theorem exists_nodeAt_depth : ∀ item : Item, ∃ node, NodeAt item item.depth node
  | bytes content => ⟨_, .root _⟩
  | list items => by
    rw [depth]
    rcases exists_nodeAt_depthBelow items with rfl | ⟨item, hmem, level, node, hnode, hlevel⟩
    · exact ⟨_, .root _⟩
    · rw [← hlevel]
      exact ⟨node, .inList hmem hnode⟩

theorem exists_nodeAt_depthBelow : ∀ items : List Item, items = [] ∨
    ∃ item ∈ items, ∃ level node, NodeAt item level node ∧ level + 1 = depthBelow items
  | [] => .inl rfl
  | item :: items => by
    right
    rw [depthBelow]
    obtain ⟨node, hnode⟩ := exists_nodeAt_depth item
    rcases Nat.le_total (depthBelow items) (item.depth + 1) with hle | hle
    · exact ⟨item, List.mem_cons_self, _, node, hnode, by omega⟩
    · rcases exists_nodeAt_depthBelow items with rfl | ⟨item', hmem, level, node', hnode', hlevel⟩
      · simp [depthBelow] at hle
      · exact ⟨item', List.mem_cons_of_mem _ hmem, level, node', hnode', by omega⟩

end

theorem depth_le_iff {item : Item} {n : Nat} :
    item.depth ≤ n ↔ ∀ level node, NodeAt item level node → level ≤ n := by
  constructor
  · intro h level node hnode
    exact Nat.le_trans hnode.level_le_depth h
  · intro h
    obtain ⟨node, hnode⟩ := exists_nodeAt_depth item
    exact h _ node hnode

theorem lt_depth_iff {item : Item} {n : Nat} :
    n < item.depth ↔ ∃ level node, NodeAt item level node ∧ n < level := by
  rw [← Nat.not_le, depth_le_iff]
  simp

end Item

/-! ### Reading an encoding -/

theorem encode_ne_nil (item : Item) (h : item.payload.length < 2 ^ 64) : encode item ≠ [] := by
  intro h0
  have hread : readHeader (frame item.isList item.payload ++ []) = _ := readHeader_frame h []
  rw [← encode_eq_frame, h0] at hread
  simp [readHeader] at hread

theorem length_payload_le (item : Item) : item.payload.length ≤ (encode item).length := by
  obtain ⟨front, hf⟩ := exists_append_payload item.isList item.payload
  rw [encode_eq_frame, hf, List.length_append]
  omega

/-- The encoding of a list starts with an octet that no string starts with. -/
theorem encode_list_eq_cons (items : List Item) :
    ∃ first rest, encode (.list items) = first :: rest ∧ 0xc0 ≤ first := by
  have hbare : ¬ IsBare true (encodeAll items) := by
    intro h
    obtain ⟨h, -⟩ := h
    exact absurd h (by decide)
  rw [encode_eq_frame, Item.isList, Item.payload, frame_of_not_bare hbare, baseOctet, if_pos rfl]
  by_cases hs : (encodeAll items).length ≤ 55
  · refine ⟨0xc0 + UInt8.ofNat (encodeAll items).length, encodeAll items, ?_, ?_⟩
    · rw [header_short hs, List.singleton_append]
    · have hfirst := toNat_add_ofNat (b := 0xc0) (show 0xc0 + (encodeAll items).length < 256 by omega)
      rw [UInt8.le_iff_toNat_le, hfirst]
      exact Nat.le_add_right _ _
  · have hcount := length_lengthOctets_le (encodeAll items).length
    refine ⟨0xc0 + 55 + UInt8.ofNat (lengthOctets (encodeAll items).length).length,
      lengthOctets (encodeAll items).length ++ encodeAll items, ?_, ?_⟩
    · rw [header_long (by omega), List.cons_append]
    · have hfirst := toNat_add_ofNat (b := 0xc0 + 55) (n := (lengthOctets (encodeAll items).length).length)
        (by rw [show (0xc0 + 55 : UInt8).toNat = 247 from rfl]; omega)
      rw [UInt8.le_iff_toNat_le, hfirst]
      exact Nat.le_trans (by decide) (Nat.le_add_right _ _)

theorem length_payload_le_of_mem : ∀ {items : List Item} {item : Item}, item ∈ items →
    item.payload.length ≤ (encodeAll items).length
  | first :: items, item, hmem => by
    rw [encodeAll, List.length_append]
    rcases List.mem_cons.mp hmem with rfl | hmem
    · have := length_payload_le item
      omega
    · have := length_payload_le_of_mem hmem
      omega

/-- An item read from the front is the first of the run, and the run goes on behind it. -/
theorem readRun_append {read : Bytes → Except Error (Item × Nat)} {front back : Bytes} {item : Item}
    (hne : front ≠ []) (h : read (front ++ back) = .ok (item, front.length)) :
    readRun read (front ++ back) = (readRun read back).map (item :: ·) := by
  cases front with
  | nil => exact absurd rfl hne
  | cons b front =>
    rw [List.cons_append, List.length_cons] at h
    rw [List.cons_append, readRun, h]
    simp only [bind, Except.bind, List.drop_left]
    cases readRun read back <;> rfl

theorem readRun_of_error {read : Bytes → Except Error (Item × Nat)} {input : Bytes} {cause : Error}
    (hne : input ≠ []) (h : read input = .error cause) : readRun read input = .error cause := by
  cases input with
  | nil => exact absurd rfl hne
  | cons b rest =>
    rw [readRun, h]
    rfl

mutual

/-- An encoding is read back exactly when no node lies below the levels that are left. -/
theorem readItem_encode : ∀ (item : Item) (levels : Nat) (rest : Bytes), item.payload.length < 2 ^ 64 →
    readItem levels (encode item ++ rest)
      = if item.depth < levels then .ok (item, (encode item).length) else .error .rlpShape
  | _, 0, _, _ => rfl
  | .bytes content, levels + 1, rest, h => by
    rw [encode_eq_frame, readItem_frame levels h, Item.depth]
    rfl
  | .list items, levels + 1, rest, h => by
    rw [encode_eq_frame, readItem_frame levels h, Item.depth]
    simp only [Item.isList, if_true, Item.payload]
    rw [readRun_encodeAll items levels fun item hmem => by
      have := length_payload_le_of_mem hmem
      rw [Item.payload] at h
      omega]
    by_cases hd : Item.depthBelow items ≤ levels
    · rw [if_pos hd, if_pos (by omega)]
      rfl
    · rw [if_neg hd, if_neg (by omega)]
      rfl

theorem readRun_encodeAll : ∀ (items : List Item) (levels : Nat),
    (∀ item ∈ items, item.payload.length < 2 ^ 64) →
    readRun (readItem levels) (encodeAll items)
      = if Item.depthBelow items ≤ levels then .ok items else .error .rlpShape
  | [], levels, _ => by simp [encodeAll, Item.depthBelow, readRun]
  | item :: items, levels, h => by
    obtain ⟨h0, hs⟩ := List.forall_mem_cons.mp h
    have hne := encode_ne_nil item h0
    have hitem := readItem_encode item levels (encodeAll items) h0
    rw [encodeAll, Item.depthBelow]
    by_cases hd : item.depth < levels
    · rw [if_pos hd] at hitem
      rw [readRun_append hne hitem, readRun_encodeAll items levels hs]
      by_cases hds : Item.depthBelow items ≤ levels
      · rw [if_pos hds, if_pos (by omega)]
        rfl
      · rw [if_neg hds, if_neg (by omega)]
        rfl
    · rw [if_neg hd] at hitem
      rw [readRun_of_error (by simp [hne]) hitem, if_neg (by omega)]

end

theorem decodeFront_encode {item : Item} (h : item.payload.length < 2 ^ 64) (hd : item.depth ≤ 256)
    (rest : Bytes) : decodeFront (encode item ++ rest) = .ok (item, rest) := by
  rw [decodeFront_eq_ok_iff]
  refine ⟨(encode item).length, ?_, by rw [List.drop_left]⟩
  rw [readItem_encode item _ _ h, if_pos (show item.depth < maxLevels by rw [maxLevels]; omega)]

theorem decode_encode {item : Item} (h : item.payload.length < 2 ^ 64) (hd : item.depth ≤ 256) :
    decode (encode item) = .ok item := by
  rw [decode_eq_ok_iff_decodeFront]
  simpa using decodeFront_encode h hd []

theorem encode_inj {item item' : Item} (hd : item.depth ≤ 256) (hd' : item'.depth ≤ 256)
    (hlen : (encode item).length < 2 ^ 64) (h : encode item = encode item') : item = item' := by
  have hread := decode_encode (Nat.lt_of_le_of_lt (length_payload_le item) hlen) hd
  rw [h] at hlen hread
  rw [decode_encode (Nat.lt_of_le_of_lt (length_payload_le item') hlen) hd'] at hread
  exact (Except.ok.inj hread).symm

theorem decode_encode_of_deep {item : Item} (h : item.payload.length < 2 ^ 64) (hd : 256 < item.depth) :
    decode (encode item) = .error .rlpShape := by
  have hread := readItem_encode item maxLevels [] h
  rw [if_neg (by rw [maxLevels]; omega), List.append_nil] at hread
  simp [decode, decodeFront, hread, bind, Except.bind]

/-- An encoding is read as its own item or not at all, and as that if it nests no deeper than the limit. -/
theorem decode_encode_eq_ok_iff {item other : Item} (h : item.payload.length < 2 ^ 64) :
    decode (encode item) = .ok other ↔ item = other ∧ item.depth ≤ 256 := by
  by_cases hd : item.depth ≤ 256
  · rw [decode_encode h hd, Except.ok.injEq]
    exact ⟨fun heq => ⟨heq, hd⟩, fun hboth => hboth.1⟩
  · rw [decode_encode_of_deep h (Nat.not_le.mp hd)]
    exact ⟨fun hread => by simp at hread, fun hboth => absurd hboth.2 hd⟩

theorem decodeAll_encodeAll {items : List Item} (hne : items ≠ [])
    (h : ∀ item ∈ items, item.payload.length < 2 ^ 64) (hd : ∀ item ∈ items, item.depth ≤ 256) :
    decodeAll (encodeAll items) = .ok items := by
  obtain ⟨item, items, rfl⟩ := List.exists_cons_of_ne_nil hne
  have hnil : encodeAll (item :: items) ≠ [] := by
    simp [encodeAll, encode_ne_nil item (h item List.mem_cons_self)]
  have hbelow : Item.depthBelow (item :: items) ≤ maxLevels :=
    Item.depthBelow_le_iff.mpr fun item hmem => by
      have := hd item hmem
      rw [maxLevels]
      omega
  rw [decodeAll, if_neg (by simpa using hnil), readRun_encodeAll _ _ h, if_pos hbelow]

/-- **Encodings read back down to 256 lists and no further.** An item none of whose nodes lies deeper is
given back from in front of any octets and from its encoding alone; with a deeper node the shape is
refused. A series of items that lie within the limit is given back as well. -/
theorem encoding_reads_back_within_depth :
    (∀ item : Item, item.payload.length < 2 ^ 64 →
      ((∀ level node, item.NodeAt level node → level ≤ 256) →
        (∀ rest, decodeFront (encode item ++ rest) = .ok (item, rest)) ∧
          decode (encode item) = .ok item) ∧
      ((∃ level node, item.NodeAt level node ∧ 256 < level) →
        decode (encode item) = .error .rlpShape)) ∧
    ∀ items : List Item, items ≠ [] →
      (∀ item ∈ items, item.payload.length < 2 ^ 64 ∧
        ∀ level node, item.NodeAt level node → level ≤ 256) →
      decodeAll (encodeAll items) = .ok items := by
  constructor
  · intro item h
    rw [← Item.depth_le_iff, ← Item.lt_depth_iff]
    exact ⟨fun hd => ⟨decodeFront_encode h hd, decode_encode h hd⟩, decode_encode_of_deep h⟩
  · intro items hne h
    exact decodeAll_encodeAll hne (fun item hmem => (h item hmem).1)
      fun item hmem => Item.depth_le_iff.mpr (h item hmem).2

/-- The item in so many lists of one item. -/
def Item.nest (item : Item) : Nat → Item
  | 0 => item
  | n + 1 => .list [item.nest n]

theorem Item.depth_nest (item : Item) : ∀ n, (item.nest n).depth = item.depth + n
  | 0 => rfl
  | n + 1 => by
    rw [Item.nest, Item.depth, Item.depthBelow, Item.depthBelow, Item.depth_nest item n]
    omega

theorem encodeAll_append (items items' : List Item) :
    encodeAll (items ++ items') = encodeAll items ++ encodeAll items' := by
  rw [encodeAll_eq_flatMap, encodeAll_eq_flatMap, encodeAll_eq_flatMap, List.flatMap_append]

theorem length_encode_le (item : Item) : (encode item).length ≤ item.payload.length + 9 := by
  rw [encode_eq_frame]
  by_cases hbare : IsBare item.isList item.payload
  · obtain ⟨hl, b, hp, hb⟩ := hbare
    rw [hl, hp, frame_of_bare hb]
    simp
  · rw [frame_of_not_bare hbare, List.length_append]
    by_cases hs : item.payload.length ≤ 55
    · rw [header_short hs, List.length_singleton]
      omega
    · have := length_lengthOctets_le item.payload.length
      rw [header_long (by omega), List.length_cons]
      omega

theorem Item.length_payload_list_le : ∀ items : List Item,
    (Item.list items).payload.length ≤ (items.map fun item => item.payload.length + 9).sum
  | [] => Nat.le_refl 0
  | item :: items => by
    have hitem := length_encode_le item
    have hitems : (encodeAll items).length ≤ _ := Item.length_payload_list_le items
    rw [Item.payload, encodeAll, List.length_append, List.map_cons, List.sum_cons]
    omega

theorem Item.length_payload_nest_le (item : Item) : ∀ n,
    (item.nest n).payload.length ≤ item.payload.length + 9 * n
  | 0 => Nat.le_refl _
  | n + 1 => by
    have hn := Item.length_payload_nest_le item n
    have hencode := length_encode_le (item.nest n)
    have hpayload : (item.nest (n + 1)).payload = encode (item.nest n) := by
      simp [Item.nest, Item.payload, encodeAll]
    rw [hpayload]
    omega

theorem nests_of_256_and_257_lists :
    decodeFront (encode (Item.empty.nest 256) ++ [0x00]) = .ok (Item.empty.nest 256, [0x00]) ∧
      decode (encode (Item.empty.nest 257)) = .error .rlpShape ∧
      decodeAll (encodeAll [Item.empty.nest 256, .list []]) = .ok [Item.empty.nest 256, .list []] := by
  have hsize : ∀ n ≤ 257, (Item.empty.nest n).payload.length < 2 ^ 64 := fun n hn => by
    have := Item.length_payload_nest_le .empty n
    rw [show Item.empty.payload.length = 0 from rfl] at this
    omega
  have hd : ∀ level node, (Item.empty.nest 256).NodeAt level node → level ≤ 256 :=
    Item.depth_le_iff.mp (by rw [Item.depth_nest]; decide)
  have hd' : ∃ level node, (Item.empty.nest 257).NodeAt level node ∧ 256 < level :=
    Item.lt_depth_iff.mp (by rw [Item.depth_nest]; decide)
  refine ⟨((encoding_reads_back_within_depth.1 _ (hsize 256 (by decide))).1 hd).1 _,
    (encoding_reads_back_within_depth.1 _ (hsize 257 (by decide))).2 hd',
    encoding_reads_back_within_depth.2 _ (by simp) fun item hmem => ?_⟩
  rcases List.mem_cons.mp hmem with rfl | hmem
  · exact ⟨hsize 256 (by decide), hd⟩
  · obtain rfl := List.mem_singleton.mp hmem
    exact ⟨by decide, Item.depth_le_iff.mp (by decide)⟩

end Rlp
end EthWire
