import VectorDb.SSTable.SSTableReader
import VectorDb.MemTable.MemTable

namespace VectorDb.Storage
open Lib Common BinarySerializer SSTableWriter

namespace SSTableReader

theorem readBytes_eq {file bytes back : Bytes} {offset : Nat} (here : BytesAt file offset (bytes ++ back))
    (low : offset < 2 ^ 63) : readBytes file offset bytes.length = bytes := by
  rw [readBytes, if_pos low, here.slice]

theorem readAt_eq {file bytes back : Bytes} {offset : Nat} (here : BytesAt file offset (bytes ++ back))
    (low : offset < 2 ^ 63) : readAt file offset bytes.length = some bytes := by
  rw [readAt, readBytes_eq here low, if_pos ⟨low, rfl⟩]

private theorem footer_eq (bloomOffset bloomSize indexOffset indexSize totalEntries : Nat) :
    footer bloomOffset bloomSize indexOffset indexSize totalEntries =
      littleEndian 8 bloomOffset ++ (littleEndian 8 bloomSize ++ (littleEndian 8 indexOffset ++
        (littleEndian 8 indexSize ++ (littleEndian 8 totalEntries ++ (littleEndian 8 kMagicNumber ++ []))))) := by
  simp [footer, writeUint64]

theorem footer_length (bloomOffset bloomSize indexOffset indexSize totalEntries : Nat) :
    (footer bloomOffset bloomSize indexOffset indexSize totalEntries).length = kFooterSize := by
  simp [footer_eq, kFooterSize]

theorem readFooter_footer {bloomOffset bloomSize indexOffset indexSize totalEntries : Nat}
    (bloomAt : bloomOffset < 2 ^ 64) (bloom : bloomSize < 2 ^ 64) (indexAt : indexOffset < 2 ^ 64)
    (index : indexSize < 2 ^ 64) (total : totalEntries < 2 ^ 64) :
    readFooter (footer bloomOffset bloomSize indexOffset indexSize totalEntries) =
      .ok ⟨bloomOffset, bloomSize, indexOffset, indexSize, totalEntries, kMagicNumber⟩ := by
  have start := BytesAt.start (footer_eq bloomOffset bloomSize indexOffset indexSize totalEntries)
  obtain ⟨read₁, next⟩ := start.readUint64_eq bloomAt
  obtain ⟨read₂, next⟩ := next.readUint64_eq bloom
  obtain ⟨read₃, next⟩ := next.readUint64_eq indexAt
  obtain ⟨read₄, next⟩ := next.readUint64_eq index
  obtain ⟨read₅, next⟩ := next.readUint64_eq total
  obtain ⟨read₆, -⟩ := next.readUint64_eq (by decide)
  simp only [readFooter, read₁, read₂, read₃, read₄, read₅, read₆, bind, Except.bind, pure, Except.pure]

/-- The filter as the file gives it back: the number of bits went through 32 bits. -/
def storedFilter (bloom : BloomFilter) : BloomFilter := { bloom with numBits := bloom.numBits % 2 ^ 32 }

theorem readBloom_bloomBlock {bloom : BloomFilter} (positive : 1 ≤ bloom.numHashFunctions)
    (small : bloom.numHashFunctions ≤ 30) : readBloom (bloomBlock bloom) = .ok (storedFilter bloom) := by
  have shape : bloomBlock bloom =
      littleEndian 4 bloom.numBits ++ (littleEndian 4 bloom.numHashFunctions.toNat ++ bloom.bits) := by
    simp [bloomBlock, writeUint32]
  obtain ⟨bitsRead, next⟩ := (BytesAt.start shape).readUint_eq
  obtain ⟨hashRead, next⟩ := next.readUint32_eq (by omega)
  obtain ⟨front, split, size⟩ := next
  have rest : (bloomBlock bloom).drop 8 = bloom.bits := by rw [split, List.drop_left' size]
  have hashes : castInt bloom.numHashFunctions.toNat = bloom.numHashFunctions := by
    rw [Block.castInt_eq (by omega), Int.toNat_of_nonneg (by omega)]
  simp only [readBloom, readUint32] at bitsRead hashRead ⊢
  simp only [bitsRead, hashRead, bind, Except.bind, pure, Except.pure, rest, hashes, storedFilter]
  rfl

def encodeIndex (idx : IndexEntry) : Bytes :=
  littleEndian 4 idx.lastKey.length ++ (idx.lastKey ++ (littleEndian 8 idx.blockOffset ++
    littleEndian 4 idx.blockSize))

theorem indexBlock_eq (index : List IndexEntry) :
    indexBlock index = littleEndian 4 index.length ++ index.flatMap encodeIndex := by
  have fold : ∀ (index : List IndexEntry) (buffer : Bytes),
      index.foldl writeIndexEntry buffer = buffer ++ index.flatMap encodeIndex := by
    intro index
    induction index with
    | nil => simp
    | cons idx index ih =>
      intro buffer
      rw [List.foldl_cons, ih]
      simp [writeIndexEntry, writeUint32, writeUint64, encodeIndex]
  rw [indexBlock, fold]
  simp [writeUint32]

structure IndexFits (idx : IndexEntry) : Prop where
  lastKey : idx.lastKey.length < 2 ^ 32
  blockOffset : idx.blockOffset < 2 ^ 64
  blockSize : idx.blockSize < 2 ^ 32

theorem readIndexEntry_eq {buffer back : Bytes} {offset : Nat} {idx : IndexEntry} (fits : IndexFits idx)
    (here : BytesAt buffer offset (encodeIndex idx ++ back)) :
    readIndexEntry buffer offset = .ok (idx, offset + (encodeIndex idx).length) := by
  simp only [encodeIndex, List.append_assoc] at here
  obtain ⟨keyLenRead, atKey⟩ := here.readUint32_eq fits.lastKey
  obtain ⟨offsetRead, next⟩ := atKey.skip.readUint64_eq fits.blockOffset
  obtain ⟨sizeRead, -⟩ := next.readUint32_eq fits.blockSize
  have keyInside := not_lt.mpr atKey.inside
  have offsets : offset + 4 + idx.lastKey.length + 8 + 4 = offset + (encodeIndex idx).length := by
    simp [encodeIndex]
    omega
  simp only [readIndexEntry, keyLenRead, offsetRead, sizeRead, atKey.slice, keyInside, if_false,
    bind, Except.bind, pure, Except.pure, offsets]

theorem readIndex_indexBlock {index : List IndexEntry} (count : index.length < 2 ^ 32)
    (fits : ∀ idx ∈ index, IndexFits idx) : readIndex (indexBlock index) = .ok index := by
  have entries : ∀ (index : List IndexEntry) (buffer : Bytes) (offset : Nat), (∀ idx ∈ index, IndexFits idx) →
      BytesAt buffer offset (index.flatMap encodeIndex) →
      readIndexEntries buffer index.length offset = .ok index := by
    intro index
    induction index with
    | nil => exact fun _ _ _ _ => rfl
    | cons idx index ih =>
      intro buffer offset fits here
      rw [List.flatMap_cons] at here
      rw [List.length_cons, readIndexEntries, readIndexEntry_eq (fits idx (by simp)) here]
      simp only [bind, Except.bind]
      rw [ih buffer _ (fun other member => fits other (by simp [member])) here.skip]
      rfl
  obtain ⟨countRead, atEntries⟩ := (BytesAt.start (indexBlock_eq index)).readUint32_eq count
  simp only [readIndex, countRead, bind, Except.bind]
  exact entries index _ _ fits atEntries

end SSTableReader

/-- Everything the format stores in 32 bits fits, the Bloom filter's number of bits apart. -/
structure WithinLimits (entries : List BlockEntry) : Prop where
  entry : ∀ entry ∈ entries, Block.Fits entry
  block : ∀ block ∈ (dataBlocks entries).blocks, block.serialize.length < 2 ^ 32
  bloom : (bloomBlock (bloomFilter entries)).length < 2 ^ 32
  index : (indexBlock (dataBlocks entries).index).length < 2 ^ 32
  count : (dataBlocks entries).blocks.length < 2 ^ 31

namespace WithinLimits

variable {entries : List BlockEntry}

theorem data_length (limits : WithinLimits entries) :
    (dataBlocks entries).file.length + 2 ^ 32 < 2 ^ 63 := by
  have bound : ((dataBlocks entries).blocks.map fun block => block.serialize.length).sum ≤
      (dataBlocks entries).blocks.length * (2 ^ 32 - 1) := by
    rw [← smul_eq_mul]
    refine (List.sum_le_card_nsmul _ (2 ^ 32 - 1) ?_).trans_eq (by rw [List.length_map])
    simp only [List.mem_map, forall_exists_index, and_imp, forall_apply_eq_imp_iff₂]
    exact fun block member => Nat.le_sub_one_of_lt (limits.block block member)
  rw [(dataBlocks_covers entries).1.file, List.length_flatMap]
  have count := limits.count
  omega

theorem entries_length (limits : WithinLimits entries) : entries.length < 2 ^ 63 := by
  have counted : (dataBlocks entries).blocks.flatMap Block.entries = entries := dataBlocks_entries entries
  have le : ((dataBlocks entries).blocks.flatMap Block.entries).length ≤ (dataBlocks entries).file.length := by
    rw [(dataBlocks_covers entries).1.file, List.length_flatMap, List.length_flatMap]
    refine List.sum_le_sum fun block _ => ?_
    have := Block.length_le_serialize block
    omega
  have size := limits.data_length
  rw [counted] at le
  omega

private theorem mem_indexFrom {offset : Nat} {blocks : List Block} {idx : IndexEntry}
    (member : idx ∈ indexFrom offset blocks) : ∃ block ∈ blocks, idx.lastKey = block.lastKey ∧
      idx.blockOffset ≤ offset + (blocks.flatMap Block.serialize).length ∧ idx.blockSize < 2 ^ 32 := by
  induction blocks generalizing offset with
  | nil => cases member
  | cons first rest ih =>
    rcases List.mem_cons.mp member with rfl | later
    · exact ⟨first, by simp, rfl, Nat.le_add_right _ _, Nat.mod_lt _ (by decide)⟩
    · obtain ⟨block, inRest, lastKey, blockOffset, blockSize⟩ := ih later
      refine ⟨block, by simp [inRest], lastKey, ?_, blockSize⟩
      simpa [Nat.add_assoc] using blockOffset

theorem indexFits (limits : WithinLimits entries) : ∀ idx ∈ (dataBlocks entries).index, SSTableReader.IndexFits idx := by
  intro idx member
  obtain ⟨covers, -⟩ := dataBlocks_covers entries
  rw [covers.index] at member
  obtain ⟨block, inBlocks, lastKey, blockOffset, blockSize⟩ := mem_indexFrom member
  obtain ⟨entry, inBlock, last⟩ := Block.lastKey_mem (covers.nonempty block inBlocks)
  have inEntries : entry ∈ entries := by
    rw [← dataBlocks_entries entries]
    exact List.mem_flatMap.mpr ⟨block, inBlocks, inBlock⟩
  have size := limits.data_length
  refine ⟨?_, ?_, blockSize⟩
  · rw [lastKey, ← last]
    exact (limits.entry entry inEntries).1
  · rw [← covers.file] at blockOffset
    omega

end WithinLimits

namespace SSTableReader

def written (file : Bytes) (entries : List BlockEntry) : SSTableReader :=
  ⟨file, storedFilter (bloomFilter entries), (dataBlocks entries).index, entries.length⟩

theorem open_written {entries : List BlockEntry} (nonempty : entries ≠ [])
    (size : (dataBlocks entries).file.length + 2 ^ 32 < 2 ^ 63) (count : entries.length < 2 ^ 63)
    (bloomSmall : (bloomBlock (bloomFilter entries)).length < 2 ^ 32) (filepath : Bytes) :
    ∃ back, SSTableWriter.write entries = .ok ((dataBlocks entries).file ++ back) ∧
      SSTableReader.open filepath (some ((dataBlocks entries).file ++ back)) = do
        let index ← readIndex ((indexBlock (dataBlocks entries).index).take
          ((indexBlock (dataBlocks entries).index).length % 2 ^ 32))
        return ⟨(dataBlocks entries).file ++ back, storedFilter (bloomFilter entries), index, entries.length⟩ := by
  obtain ⟨covers, -⟩ := dataBlocks_covers entries
  have total : (dataBlocks entries).totalEntries = entries.length := by
    rw [covers.total, dataBlocks_entries]
  rw [SSTableWriter.write, if_neg nonempty]
  simp only [Nat.mod_eq_of_lt bloomSmall, covers.offset, total]
  generalize (dataBlocks entries).file = data at size ⊢
  generalize bloomEq : bloomBlock (bloomFilter entries) = bloom at bloomSmall ⊢
  generalize indexBlock (dataBlocks entries).index = index
  have stored : (index.take (index.length % 2 ^ 32)).length = index.length % 2 ^ 32 :=
    List.length_take_of_le (Nat.mod_le _ _)
  have wraps : index.length % 2 ^ 32 < 2 ^ 32 := Nat.mod_lt _ (by decide)
  generalize index.length % 2 ^ 32 = indexSize at stored wraps ⊢
  generalize footEq : footer data.length bloom.length (data.length + bloom.length) indexSize entries.length = foot
  refine ⟨bloom ++ index ++ foot, by simp, ?_⟩
  generalize fileEq : data ++ (bloom ++ index ++ foot) = file
  have footSize : foot.length = kFooterSize := by rw [← footEq, footer_length]
  have long : ¬ file.length < kFooterSize := by
    simp [← fileEq, footSize]
    omega
  have atFoot : file.drop (file.length - kFooterSize) = foot := by
    rw [← fileEq, ← List.append_assoc, List.length_append, footSize, Nat.add_sub_cancel, List.drop_left]
  have footRead : readFooter foot =
      .ok ⟨data.length, bloom.length, data.length + bloom.length, indexSize, entries.length, kMagicNumber⟩ := by
    rw [← footEq, readFooter_footer] <;> omega
  have atBloom : BytesAt file data.length (bloom ++ (index.take indexSize ++ (index.drop indexSize ++ foot))) :=
    ⟨data, by simp [← fileEq, ← List.append_assoc (index.take _)], rfl⟩
  have bloomRead : readBloom bloom = .ok (storedFilter (bloomFilter entries)) := by
    have hashes := BloomFilter.new_hashes entries.length 10
    rw [← (BloomFilter.addAll_numBits (entries.map BlockEntry.key) _).2] at hashes
    rw [← bloomEq]
    exact readBloom_bloomBlock hashes.1 hashes.2
  have indexAt := readAt_eq atBloom.skip (by omega)
  rw [stored] at indexAt
  simp only [SSTableReader.open, long, if_false, atFoot, footRead, readAt_eq atBloom (by omega), bloomRead, indexAt, bind,
    Except.bind, pure, Except.pure, ne_eq, not_true_eq_false]

theorem open_write {entries : List BlockEntry} (nonempty : entries ≠ []) (limits : WithinLimits entries)
    (filepath : Bytes) :
    ∃ back, SSTableWriter.write entries = .ok ((dataBlocks entries).file ++ back) ∧
      SSTableReader.open filepath (some ((dataBlocks entries).file ++ back)) =
        .ok (written ((dataBlocks entries).file ++ back) entries) := by
  obtain ⟨back, wrote, opened⟩ := open_written nonempty limits.data_length limits.entries_length limits.bloom filepath
  have indexRead : readIndex (indexBlock (dataBlocks entries).index) = .ok (dataBlocks entries).index := by
    rw [readIndex_indexBlock _ limits.indexFits]
    exact (dataBlocks_index_length entries).trans_lt (limits.count.trans (by decide))
  refine ⟨back, wrote, opened.trans ?_⟩
  rw [Nat.mod_eq_of_lt limits.index, List.take_length, indexRead]
  rfl

private theorem forall₂_readBlock (reader : SSTableReader) {back : Bytes} (blocks : List Block) (offset : Nat)
    (here : BytesAt reader.file offset (blocks.flatMap Block.serialize ++ back))
    (low : offset + (blocks.flatMap Block.serialize).length < 2 ^ 63)
    (small : ∀ block ∈ blocks, block.serialize.length < 2 ^ 32)
    (fits : ∀ block ∈ blocks, ∀ entry ∈ block.entries, Block.Fits entry) :
    List.Forall₂ (fun idx block => ∃ read, reader.readBlock idx = .ok read ∧ read.entries = block.entries)
      (indexFrom offset blocks) blocks := by
  induction blocks generalizing offset with
  | nil => exact .nil
  | cons first rest ih =>
    rw [List.flatMap_cons, List.length_append] at low
    rw [List.flatMap_cons, List.append_assoc] at here
    have firstSmall := small first (by simp)
    refine .cons ?_ (ih _ here.skip (by omega) (fun block member => small block (by simp [member]))
      fun block member => fits block (by simp [member]))
    have count : first.entries.length < 2 ^ 32 := by
      have := Block.length_le_serialize first
      omega
    obtain ⟨read, decoded, same⟩ := Block.deserialize_serialize first count (fits first (by simp))
    refine ⟨read, ?_, same⟩
    simp only [readBlock, Nat.mod_eq_of_lt firstSmall, readBytes_eq here (by omega), lt_irrefl, if_false, decoded]

structure Indexes (reader : SSTableReader) (blocks : List Block) : Prop where
  reads : List.Forall₂ (fun idx block => ∃ read, reader.readBlock idx = .ok read ∧ read.entries = block.entries)
    reader.index blocks
  lastKeys : reader.index.map IndexEntry.lastKey = blocks.map Block.lastKey
  count : blocks.length < 2 ^ 31
  entryCount : ∀ block ∈ blocks, block.entries.length < 2 ^ 31
  nonempty : ∀ block ∈ blocks, block.entries ≠ []
  ascending : Ascending BlockEntry.key (blocks.flatMap Block.entries)

namespace Indexes

variable {reader : SSTableReader} {blocks : List Block}

theorem readAll_eq (indexes : reader.Indexes blocks) : reader.readAll = .ok (blocks.flatMap Block.entries) := by
  have loop : ∀ {index : List IndexEntry} {blocks : List Block},
      List.Forall₂ (fun idx block => ∃ read, reader.readBlock idx = .ok read ∧ read.entries = block.entries)
        index blocks →
      ∃ reads, index.mapM reader.readBlock = .ok reads ∧
        reads.flatMap Block.entries = blocks.flatMap Block.entries := by
    intro index blocks reads
    induction reads with
    | nil => exact ⟨[], rfl, rfl⟩
    | cons head _ ih =>
      obtain ⟨read, decoded, same⟩ := head
      obtain ⟨rest, restRead, restSame⟩ := ih
      refine ⟨read :: rest, ?_, by simp [same, restSame]⟩
      simp [List.mapM_cons, decoded, restRead, bind, Except.bind, pure, Except.pure]
  obtain ⟨reads, decoded, same⟩ := loop indexes.reads
  simp only [readAll, decoded, bind, Except.bind, pure, Except.pure, same]

theorem le_lastKey (indexes : reader.Indexes blocks) {block : Block} (member : block ∈ blocks) {entry : BlockEntry}
    (inBlock : entry ∈ block.entries) : entry.key ≤ block.lastKey := by
  have ascending := (List.pairwise_flatMap.mp indexes.ascending).1 block member
  have nonempty := indexes.nonempty block member
  rw [Block.lastKey, List.getLast?_eq_some_getLast nonempty, Option.map_some, Option.getD_some]
  rw [← List.dropLast_append_getLast nonempty] at inBlock ascending
  rcases List.mem_append.mp inBlock with before | last
  · exact ((List.pairwise_append.mp ascending).2.2 entry before _ (by simp)).le
  · rw [List.mem_singleton.mp last]

theorem lastKeys_ascending (indexes : reader.Indexes blocks) :
    blocks.Pairwise fun a b => ∀ entry ∈ b.entries, a.lastKey < entry.key := by
  refine List.Pairwise.imp_of_mem ?_ (List.pairwise_flatMap.mp indexes.ascending).2
  intro a b inA _ before entry member
  obtain ⟨last, inLast, same⟩ := Block.lastKey_mem (indexes.nonempty a inA)
  exact same ▸ before last inLast entry member

theorem find_none_of_lastKey_lt (indexes : reader.Indexes blocks) {key : Bytes} {some : List Block}
    (subset : some ⊆ blocks) (below : ∀ block ∈ some, block.lastKey < key) :
    find BlockEntry.key (some.flatMap Block.entries) key = none := by
  refine (find_eq_none _).mpr fun entry member => ?_
  obtain ⟨block, inSome, inBlock⟩ := List.mem_flatMap.mp member
  exact ((indexes.le_lastKey (subset inSome) inBlock).trans_lt (below block inSome)).ne

theorem find_eq_block (indexes : reader.Indexes blocks) {key : Bytes} {n : Nat} (bound : n < blocks.length)
    (reaches : key ≤ blocks[n].lastKey) (below : ∀ block ∈ blocks.take n, block.lastKey < key) :
    find BlockEntry.key (blocks.flatMap Block.entries) key = find BlockEntry.key blocks[n].entries key := by
  have split : blocks = blocks.take n ++ blocks[n] :: blocks.drop (n + 1) := by simp
  have later : find BlockEntry.key ((blocks.drop (n + 1)).flatMap Block.entries) key = none := by
    refine (find_eq_none _).mpr fun entry member => ?_
    obtain ⟨block, inRest, inBlock⟩ := List.mem_flatMap.mp member
    have ordered := indexes.lastKeys_ascending
    rw [split, List.pairwise_append, List.pairwise_cons] at ordered
    exact (reaches.trans_lt (ordered.2.1.1 block inRest entry inBlock)).ne'
  have earlier := indexes.find_none_of_lastKey_lt (List.take_subset n blocks) below
  conv_lhs => rw [split]
  rw [List.flatMap_append, List.flatMap_cons, find_append, find_append, earlier, later]
  simp

theorem candidate_isLowerBound (indexes : reader.Indexes blocks) (key : Bytes) :
    IsLowerBound reader.index (fun idx => decide (idx.lastKey ≥ key)) (reader.candidate key) := by
  have length : reader.index.length = blocks.length := by simpa using congrArg List.length indexes.lastKeys
  rw [candidate, Block.castInt_eq (length ▸ indexes.count)]
  refine lowerBound_isLowerBound ?_
  have ascending := lastKeys_pairwise indexes.nonempty indexes.ascending
  rw [← indexes.lastKeys] at ascending
  refine (List.pairwise_map.mp ascending).imp fun less reaches => ?_
  simp only [ge_iff_le, decide_eq_true_eq] at reaches ⊢
  exact reaches.trans less.le

theorem search_eq (indexes : reader.Indexes blocks) (key : Bytes) :
    reader.search key = .ok (find BlockEntry.key (blocks.flatMap Block.entries) key) := by
  have lastKeyAt : ∀ n (inIndex : n < reader.index.length) (inBlocks : n < blocks.length),
      reader.index[n].lastKey = blocks[n].lastKey := by
    intro n inIndex inBlocks
    simpa [inIndex, inBlocks] using congrArg (fun keys => keys[n]?) indexes.lastKeys
  have length : reader.index.length = blocks.length := by simpa using congrArg List.length indexes.lastKeys
  rw [search]
  rcases indexes.candidate_isLowerBound key with ⟨missing, below⟩ | ⟨n, inIndex, found, reaches, below⟩
  · have blocksBelow : ∀ block ∈ blocks, block.lastKey < key := by
      intro block member
      have : block.lastKey ∈ reader.index.map IndexEntry.lastKey := indexes.lastKeys ▸ List.mem_map_of_mem member
      obtain ⟨idx, inIndex, same⟩ := List.mem_map.mp this
      simpa [← same] using below idx inIndex
    rw [missing, indexes.find_none_of_lastKey_lt (List.Subset.refl blocks) blocksBelow]
    rfl
  · have inBlocks : n < blocks.length := length ▸ inIndex
    obtain ⟨read, decoded, same⟩ := (List.forall₂_iff_get.mp indexes.reads).2 n inIndex inBlocks
    have inList : blocks[n] ∈ blocks := List.getElem_mem inBlocks
    have ascending := (List.pairwise_flatMap.mp indexes.ascending).1 _ inList
    have blocksBelow : ∀ block ∈ blocks.take n, block.lastKey < key := by
      intro block member
      have : block.lastKey ∈ (reader.index.take n).map IndexEntry.lastKey := by
        rw [List.map_take, indexes.lastKeys, ← List.map_take]
        exact List.mem_map_of_mem member
      obtain ⟨idx, inTake, same⟩ := List.mem_map.mp this
      simpa [← same] using below idx inTake
    rw [indexes.find_eq_block inBlocks (by simpa [lastKeyAt n inIndex inBlocks] using reaches) blocksBelow, found]
    simp only [List.get_eq_getElem] at decoded same
    simp only [List.getElem?_eq_getElem inIndex, decoded, bind, Except.bind, pure, Except.pure]
    rw [Block.get_eq_find (same ▸ ascending) (same ▸ indexes.entryCount _ inList), same]

end Indexes

theorem written_indexes {entries : List BlockEntry} (ascending : Ascending BlockEntry.key entries)
    (limits : WithinLimits entries) (back : Bytes) :
    (written ((dataBlocks entries).file ++ back) entries).Indexes (dataBlocks entries).blocks := by
  obtain ⟨covers, -⟩ := dataBlocks_covers entries
  have split := dataBlocks_entries entries
  have size := limits.data_length
  refine ⟨?_, dataBlocks_lastKeys entries, limits.count, ?_, covers.nonempty, split.symm ▸ ascending⟩
  · have here : BytesAt ((dataBlocks entries).file ++ back) 0
        ((dataBlocks entries).blocks.flatMap Block.serialize ++ back) := BytesAt.start (by rw [covers.file])
    rw [written, covers.index]
    refine forall₂_readBlock _ _ 0 here ?_ limits.block ?_
    · rw [← covers.file]
      omega
    · intro block member entry inBlock
      exact limits.entry entry (split ▸ List.mem_flatMap.mpr ⟨block, member, inBlock⟩)
  · intro block member
    have small := limits.block block member
    have := Block.length_le_serialize block
    omega

end SSTableReader

end VectorDb.Storage
