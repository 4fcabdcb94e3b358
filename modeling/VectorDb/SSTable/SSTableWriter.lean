import VectorDb.SSTable.Block
import VectorDb.SSTable.BloomFilter

namespace VectorDb.Storage
open Lib Common BinarySerializer

structure IndexEntry where
  lastKey : Bytes
  blockOffset : Nat
  blockSize : Nat
deriving DecidableEq, Repr

namespace SSTableWriter

def kMagicNumber : Nat := 0x0053535461626C65

def kFooterSize : Nat := 48

/-- The file and the local variables of `Write` while it writes the data blocks. `blocks` are the
blocks written so far, of which the code keeps only the bytes. -/
structure Progress where
  blocks : List Block
  file : Bytes
  index : List IndexEntry
  currentBlock : Block
  fileOffset : Nat
  totalEntries : Nat

namespace Progress

def start : Progress := ⟨[], [], [], Block.empty, 0, 0⟩

def flushBlock (p : Progress) : Progress :=
  if p.currentBlock.entries = [] then p
  else
    let serialized := p.currentBlock.serialize
    { blocks := p.blocks ++ [p.currentBlock]
      file := p.file ++ serialized
      index := p.index ++ [⟨p.currentBlock.lastKey, p.fileOffset, serialized.length % 2 ^ 32⟩]
      currentBlock := Block.empty
      fileOffset := p.fileOffset + serialized.length
      totalEntries := p.totalEntries + p.currentBlock.entries.length }

def addEntry (p : Progress) (entry : BlockEntry) : Progress :=
  match p.currentBlock.add entry with
  | some block => { p with currentBlock := block }
  | none =>
    let p := p.flushBlock
    { p with currentBlock := (p.currentBlock.add entry).getD p.currentBlock }

end Progress

def dataBlocks (entries : List BlockEntry) : Progress := (entries.foldl Progress.addEntry .start).flushBlock

def bloomFilter (entries : List BlockEntry) : BloomFilter :=
  (BloomFilter.new entries.length 10).addAll (entries.map BlockEntry.key)

def bloomBlock (bloom : BloomFilter) : Bytes :=
  writeUint32 (writeUint32 [] bloom.numBits) bloom.numHashFunctions.toNat ++ bloom.bits

def writeIndexEntry (buffer : Bytes) (idx : IndexEntry) : Bytes :=
  let buffer := writeUint32 buffer idx.lastKey.length ++ idx.lastKey
  writeUint32 (writeUint64 buffer idx.blockOffset) idx.blockSize

def indexBlock (index : List IndexEntry) : Bytes := index.foldl writeIndexEntry (writeUint32 [] index.length)

def footer (bloomOffset bloomSize indexOffset indexSize totalEntries : Nat) : Bytes :=
  let footer := writeUint64 (writeUint64 [] bloomOffset) bloomSize
  let footer := writeUint64 (writeUint64 footer indexOffset) indexSize
  writeUint64 (writeUint64 footer totalEntries) kMagicNumber

def write (entries : List BlockEntry) : ErrorOr Bytes :=
  if entries = [] then .error ⟨.kInvalidArgument, text "Cannot write empty SSTable"⟩
  else
    let bloom := bloomFilter entries
    let p := dataBlocks entries
    let bloomOffset := p.fileOffset
    let bloomSize := (bloomBlock bloom).length % 2 ^ 32
    let indexOffset := bloomOffset + bloomSize
    let indexSize := (indexBlock p.index).length % 2 ^ 32
    .ok (p.file ++ bloomBlock bloom ++ indexBlock p.index ++
      footer bloomOffset bloomSize indexOffset indexSize p.totalEntries)

def indexFrom : Nat → List Block → List IndexEntry
  | _, [] => []
  | offset, block :: blocks =>
    ⟨block.lastKey, offset, block.serialize.length % 2 ^ 32⟩ ::
      indexFrom (offset + block.serialize.length) blocks

theorem indexFrom_concat (offset : Nat) (blocks : List Block) (block : Block) :
    indexFrom offset (blocks ++ [block]) = indexFrom offset blocks ++
      [⟨block.lastKey, offset + (blocks.flatMap Block.serialize).length, block.serialize.length % 2 ^ 32⟩] := by
  induction blocks generalizing offset with
  | nil => simp [indexFrom]
  | cons first rest ih => simp [indexFrom, ih, Nat.add_assoc]

theorem indexFrom_lastKeys (offset : Nat) (blocks : List Block) :
    (indexFrom offset blocks).map IndexEntry.lastKey = blocks.map Block.lastKey := by
  induction blocks generalizing offset with
  | nil => rfl
  | cons first rest ih => simp [indexFrom, ih]

theorem lastKeys_pairwise {blocks : List Block} (nonempty : ∀ block ∈ blocks, block.entries ≠ [])
    (ascending : Ascending BlockEntry.key (blocks.flatMap Block.entries)) :
    (blocks.map Block.lastKey).Pairwise (· < ·) := by
  rw [List.pairwise_map]
  refine List.Pairwise.imp_of_mem ?_ (List.pairwise_flatMap.mp ascending).2
  intro a b inA inB before
  obtain ⟨lastA, memberA, sameA⟩ := Block.lastKey_mem (nonempty a inA)
  obtain ⟨lastB, memberB, sameB⟩ := Block.lastKey_mem (nonempty b inB)
  rw [← sameA, ← sameB]
  exact before lastA memberA lastB memberB

structure Packed (block : Block) : Prop where
  size : block.currentSize = 4 + (block.entries.map BlockEntry.encodedSize).sum
  bounded : block.entries.length ≤ 1 ∨ block.currentSize ≤ kTargetBlockSize

theorem Packed.serialize_length {block : Block} (packed : Packed block) :
    block.serialize.length = block.currentSize := by
  simp [Block.serialize_eq, packed.size, List.length_flatMap, Block.encode_length]

theorem packed_empty : Packed Block.empty := ⟨rfl, .inl (by simp [Block.empty])⟩

theorem Packed.add {block next : Block} {entry : BlockEntry} (packed : Packed block)
    (added : block.add entry = some next) : Packed next ∧ next.entries = block.entries ++ [entry] := by
  unfold Block.add at added
  split at added
  next => cases added
  next room =>
    cases added
    refine ⟨⟨?_, ?_⟩, rfl⟩
    · simp [packed.size]
      omega
    · by_cases first : block.entries = []
      · exact .inl (by simp [first])
      · exact .inr (by simpa [first] using room)

structure Progress.Covers (p : Progress) (entries : List BlockEntry) : Prop where
  file : p.file = p.blocks.flatMap Block.serialize
  index : p.index = indexFrom 0 p.blocks
  offset : p.fileOffset = p.file.length
  total : p.totalEntries = (p.blocks.flatMap Block.entries).length
  nonempty : ∀ block ∈ p.blocks, block.entries ≠ []
  packed : ∀ block ∈ p.currentBlock :: p.blocks, Packed block
  covered : p.blocks.flatMap Block.entries ++ p.currentBlock.entries = entries

namespace Progress.Covers

variable {p : Progress} {entries : List BlockEntry}

theorem start : Progress.start.Covers [] :=
  ⟨rfl, rfl, rfl, rfl, by simp [Progress.start], by simp [Progress.start, packed_empty], rfl⟩

theorem flushBlock (covers : p.Covers entries) :
    p.flushBlock.Covers entries ∧ p.flushBlock.currentBlock.entries = [] := by
  rw [Progress.flushBlock]
  split
  next empty => exact ⟨covers, empty⟩
  next filled =>
    refine ⟨⟨?_, ?_, ?_, ?_, ?_, ?_, ?_⟩, rfl⟩
    · simp [covers.file]
    · simp [covers.index, indexFrom_concat, covers.offset, covers.file]
    · simp [covers.offset]
    · simp [covers.total]
    · intro block member
      rcases List.mem_append.mp member with old | new
      · exact covers.nonempty block old
      · exact List.mem_singleton.mp new ▸ filled
    · intro block member
      rcases List.mem_cons.mp member with rfl | written
      · exact packed_empty
      · exact covers.packed block (by simpa [or_comm] using written)
    · simp [Block.empty, covers.covered]

theorem append (covers : p.Covers entries) {entry : BlockEntry} {block : Block}
    (added : p.currentBlock.add entry = some block) :
    Covers { p with currentBlock := block } (entries ++ [entry]) := by
  obtain ⟨packed, pushed⟩ := (covers.packed p.currentBlock (by simp)).add added
  refine ⟨covers.file, covers.index, covers.offset, covers.total, covers.nonempty, ?_, ?_⟩
  · intro other member
    rcases List.mem_cons.mp member with rfl | written
    · exact packed
    · exact covers.packed other (by simp [written])
  · simp [pushed, ← covers.covered]

theorem addEntry (covers : p.Covers entries) (entry : BlockEntry) :
    (p.addEntry entry).Covers (entries ++ [entry]) := by
  rw [Progress.addEntry]
  cases added : p.currentBlock.add entry with
  | some block => exact covers.append added
  | none =>
    obtain ⟨flushed, cleared⟩ := covers.flushBlock
    have fresh : ∃ block, p.flushBlock.currentBlock.add entry = some block := by simp [Block.add, cleared]
    obtain ⟨block, added⟩ := fresh
    simpa [added] using flushed.append added

theorem foldl (covers : p.Covers entries) (more : List BlockEntry) :
    (more.foldl Progress.addEntry p).Covers (entries ++ more) := by
  induction more generalizing p entries with
  | nil => simpa using covers
  | cons entry more ih => simpa using ih (covers.addEntry entry)

end Progress.Covers

theorem dataBlocks_covers (entries : List BlockEntry) :
    (dataBlocks entries).Covers entries ∧ (dataBlocks entries).currentBlock.entries = [] :=
  (Progress.Covers.start.foldl entries).flushBlock

theorem dataBlocks_lastKeys (entries : List BlockEntry) :
    (dataBlocks entries).index.map IndexEntry.lastKey = (dataBlocks entries).blocks.map Block.lastKey := by
  rw [(dataBlocks_covers entries).1.index, indexFrom_lastKeys]

theorem dataBlocks_index_length (entries : List BlockEntry) :
    (dataBlocks entries).index.length = (dataBlocks entries).blocks.length := by
  simpa using congrArg List.length (dataBlocks_lastKeys entries)

theorem dataBlocks_entries (entries : List BlockEntry) :
    (dataBlocks entries).blocks.flatMap Block.entries = entries := by
  obtain ⟨covers, cleared⟩ := dataBlocks_covers entries
  simpa [cleared] using covers.covered

def Progress.Tight (p : Progress) (entries : List BlockEntry) : Prop :=
  ∀ block ∈ p.blocks, ∃ entry ∈ entries, kTargetBlockSize < block.currentSize + entry.encodedSize

theorem Progress.Tight.addEntry {p : Progress} {entries : List BlockEntry} (tight : p.Tight entries)
    {entry : BlockEntry} (member : entry ∈ entries) : (p.addEntry entry).Tight entries := by
  rw [Progress.addEntry]
  cases added : p.currentBlock.add entry with
  | some block => exact tight
  | none =>
    have full : p.currentBlock.entries ≠ [] ∧ p.currentBlock.currentSize + entry.encodedSize > kTargetBlockSize := by
      by_contra room
      simp [Block.add, room] at added
    intro block closed
    simp only [Progress.flushBlock, full.1, if_false] at closed
    rcases List.mem_append.mp closed with old | new
    · exact tight block old
    · exact ⟨entry, member, List.mem_singleton.mp new ▸ full.2⟩

theorem blocks_foldl_tight (entries : List BlockEntry) :
    (entries.foldl Progress.addEntry .start).Tight entries := by
  have loop : ∀ (more : List BlockEntry) (p : Progress), (∀ entry ∈ more, entry ∈ entries) → p.Tight entries →
      (more.foldl Progress.addEntry p).Tight entries := by
    intro more
    induction more with
    | nil => exact fun _ _ tight => tight
    | cons entry more ih =>
      intro p subset tight
      exact ih _ (fun other member => subset other (by simp [member])) (tight.addEntry (subset entry (by simp)))
  exact loop entries _ (fun _ member => member) (by simp [Progress.Tight, Progress.start])

end SSTableWriter

end VectorDb.Storage
