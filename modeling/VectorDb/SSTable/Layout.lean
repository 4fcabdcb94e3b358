import VectorDb.SSTable.ReadBack

namespace VectorDb.Storage.SSTableWriter
open Lib Common BinarySerializer

def Contiguous : Nat → List IndexEntry → Nat → Prop
  | start, [], stop => start = stop
  | start, idx :: index, stop => idx.blockOffset = start ∧ Contiguous (start + idx.blockSize) index stop

structure Records (file : Bytes) (idx : IndexEntry) (block : Block) : Prop where
  lastKey : ∃ entry, block.entries.getLast? = some entry ∧ idx.lastKey = entry.key
  blockSize : idx.blockSize = block.serialize.length
  bytes : (file.drop idx.blockOffset).take idx.blockSize = block.serialize

structure Layout (entries : List BlockEntry) (file : Bytes) (blocks : List Block) (index : List IndexEntry)
    (bloomOffset : Nat) : Prop where
  sections : ∃ bloomSize indexSize, file = blocks.flatMap Block.serialize ++ bloomBlock (bloomFilter entries) ++
    indexBlock index ++ footer bloomOffset bloomSize (bloomOffset + bloomSize) indexSize entries.length
  partition : blocks.flatMap Block.entries = entries
  recorded : List.Forall₂ (Records file) index blocks
  contiguous : Contiguous 0 index bloomOffset
  ascending : Ascending IndexEntry.lastKey index
  bounded : ∀ block ∈ blocks, block.serialize.length ≤ kTargetBlockSize ∨ block.entries.length = 1

variable {blocks : List Block}

theorem contiguous_indexFrom (start : Nat) (small : ∀ block ∈ blocks, block.serialize.length < 2 ^ 32) :
    Contiguous start (indexFrom start blocks) (start + (blocks.flatMap Block.serialize).length) := by
  induction blocks generalizing start with
  | nil => rfl
  | cons first rest ih =>
    have later := ih (start + first.serialize.length) fun block member => small block (by simp [member])
    refine ⟨rfl, ?_⟩
    rw [Nat.mod_eq_of_lt (small first (by simp)), List.flatMap_cons, List.length_append, ← Nat.add_assoc]
    exact later

theorem records_indexFrom {file back : Bytes} (start : Nat)
    (here : BytesAt file start (blocks.flatMap Block.serialize ++ back))
    (small : ∀ block ∈ blocks, block.serialize.length < 2 ^ 32) (nonempty : ∀ block ∈ blocks, block.entries ≠ []) :
    List.Forall₂ (Records file) (indexFrom start blocks) blocks := by
  induction blocks generalizing start with
  | nil => exact .nil
  | cons first rest ih =>
    rw [List.flatMap_cons, List.append_assoc] at here
    have size := Nat.mod_eq_of_lt (small first (by simp))
    have filled := List.getLast?_eq_some_getLast (nonempty first (by simp))
    constructor
    · refine ⟨⟨_, filled, by simp [Block.lastKey, filled]⟩, size, ?_⟩
      rw [size]
      exact here.slice
    · exact ih _ here.skip (fun block member => small block (by simp [member]))
        fun block member => nonempty block (by simp [member])

theorem ascending_indexFrom (nonempty : ∀ block ∈ blocks, block.entries ≠ [])
    (ascending : Ascending BlockEntry.key (blocks.flatMap Block.entries)) (start : Nat) :
    Ascending IndexEntry.lastKey (indexFrom start blocks) := by
  have ordered := lastKeys_pairwise nonempty ascending
  rw [← indexFrom_lastKeys start] at ordered
  exact List.pairwise_map.mp ordered

theorem block_small {entries : List BlockEntry} (small : ∀ entry ∈ entries, 4 + entry.encodedSize < 2 ^ 32) :
    ∀ block ∈ (dataBlocks entries).blocks, block.serialize.length < 2 ^ 32 := by
  intro block member
  obtain ⟨covers, -⟩ := dataBlocks_covers entries
  have packed := covers.packed block (by simp [member])
  rw [packed.serialize_length]
  rcases packed.bounded with single | bounded
  · obtain ⟨entry, only⟩ := List.length_eq_one_iff.mp
      (le_antisymm single (List.length_pos_iff.mpr (covers.nonempty block member)))
    have inEntries : entry ∈ entries := by
      rw [← dataBlocks_entries entries]
      exact List.mem_flatMap.mpr ⟨block, member, by simp [only]⟩
    rw [packed.size, only]
    simpa using small entry inEntries
  · exact bounded.trans_lt (by decide)

theorem write_layout (entries : List BlockEntry) (nonempty : entries ≠ [])
    (ascending : Ascending BlockEntry.key entries) (small : ∀ entry ∈ entries, 4 + entry.encodedSize < 2 ^ 32) :
    ∃ file blocks index bloomOffset, write entries = .ok file ∧ Layout entries file blocks index bloomOffset := by
  obtain ⟨covers, -⟩ := dataBlocks_covers entries
  have partition := dataBlocks_entries entries
  have blockSmall := block_small small
  have total : (dataBlocks entries).totalEntries = entries.length := by rw [covers.total, partition]
  refine ⟨_, (dataBlocks entries).blocks, (dataBlocks entries).index, (dataBlocks entries).fileOffset,
    by rw [write, if_neg nonempty], ?_⟩
  constructor
  case sections =>
    rw [total, covers.file]
    exact ⟨_, _, rfl⟩
  case partition => exact partition
  case recorded =>
    rw [covers.index, covers.file, List.append_assoc, List.append_assoc]
    exact records_indexFrom 0 (BytesAt.start rfl) blockSmall covers.nonempty
  case contiguous =>
    have contiguous := contiguous_indexFrom 0 blockSmall
    rwa [Nat.zero_add, ← covers.index, ← covers.file, ← covers.offset] at contiguous
  case ascending =>
    rw [covers.index]
    exact ascending_indexFrom covers.nonempty (by rwa [partition]) 0
  case bounded =>
    intro block member
    have packed := covers.packed block (by simp [member])
    rw [packed.serialize_length]
    rcases packed.bounded with single | bounded
    · exact .inr (le_antisymm single (List.length_pos_iff.mpr (covers.nonempty block member)))
    · exact .inl bounded

theorem write_layout_two_entries :
    ∃ file blocks index bloomOffset, write [⟨[1], [7], false⟩, ⟨[2], [], true⟩] = .ok file ∧
      Layout [⟨[1], [7], false⟩, ⟨[2], [], true⟩] file blocks index bloomOffset :=
  write_layout _ (by decide) (by decide) (by decide)

end VectorDb.Storage.SSTableWriter
