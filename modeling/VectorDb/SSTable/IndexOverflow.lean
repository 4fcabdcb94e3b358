import VectorDb.SSTable.SizeLimits

namespace VectorDb.Storage
open Lib Common BinarySerializer SSTableWriter

namespace SSTableReader

theorem readIndex_cut {idx : IndexEntry} {rest : List IndexEntry} {kept : Nat} (count : rest.length + 1 < 2 ^ 32)
    (key : idx.lastKey.length < 2 ^ 32) (low : 8 ≤ kept) (inside : kept < 8 + idx.lastKey.length) :
    readIndex ((indexBlock (idx :: rest)).take kept) = .error (corruption "Index key extends past block") := by
  obtain ⟨more, rfl⟩ : ∃ more, kept = 8 + more := ⟨kept - 8, by omega⟩
  obtain ⟨tail, shape⟩ : ∃ tail, (indexBlock (idx :: rest)).take (8 + more) =
      littleEndian 4 (rest.length + 1) ++ (littleEndian 4 idx.lastKey.length ++ tail) := by
    rw [indexBlock_eq, List.flatMap_cons, encodeIndex, List.append_assoc, ← List.append_assoc, Nat.add_comm 8 more,
      List.take_append, List.take_of_length_le (by simp), List.append_assoc]
    exact ⟨_, rfl⟩
  have short : ((indexBlock (idx :: rest)).take (8 + more)).length ≤ 8 + more := List.length_take_le _ _
  obtain ⟨countRead, atEntries⟩ := (BytesAt.start shape).readUint32_eq count
  obtain ⟨keyLenRead, -⟩ := atEntries.readUint32_eq key
  have past : 0 + 4 + 4 + idx.lastKey.length > ((indexBlock (idx :: rest)).take (8 + more)).length := by omega
  simp only [readIndex, countRead, readIndexEntries, readIndexEntry, keyLenRead, past, if_true, bind, Except.bind]
  rfl

end SSTableReader

variable {entries : List BlockEntry} {block : Block} {width : Nat}

theorem data_length_le (entries : List BlockEntry) : (dataBlocks entries).file.length ≤ 2 * dataSize entries := by
  obtain ⟨covers, -⟩ := dataBlocks_covers entries
  rw [covers.file, List.length_flatMap, ← dataBlocks_dataSize entries, ← load_mul]
  apply load_le_load
  intro block member
  have packed := covers.packed block (by simp [member])
  have size := lastKey_dataSize_le member
  rw [packed.serialize_length, packed.size]
  change 4 + dataSize block.entries ≤ _
  omega

theorem blocks_length_of_large (large : ∀ entry ∈ entries, kTargetBlockSize < entry.encodedSize) :
    (dataBlocks entries).blocks.length = entries.length := by
  obtain ⟨covers, -⟩ := dataBlocks_covers entries
  have single : ∀ block ∈ (dataBlocks entries).blocks, block.entries.length = 1 := by
    intro block member
    obtain ⟨entry, inBlock⟩ := List.exists_mem_of_ne_nil _ (covers.nonempty block member)
    have inEntries : entry ∈ entries := by
      rw [← dataBlocks_entries entries]
      exact List.mem_flatMap.mpr ⟨block, member, inBlock⟩
    have packed := covers.packed block (by simp [member])
    have size : entry.encodedSize ≤ load BlockEntry.encodedSize block.entries := le_load _ inBlock
    have positive := List.length_pos_of_mem inBlock
    have above := large entry inEntries
    rcases packed.bounded with atMost | bounded
    · omega
    · rw [packed.size] at bounded
      change 4 + load BlockEntry.encodedSize block.entries ≤ _ at bounded
      omega
  calc (dataBlocks entries).blocks.length
      = ((dataBlocks entries).blocks.map fun block => block.entries.length).sum := by
        rw [List.map_congr_left single]
        simp
    _ = entries.length := by
        rw [← List.length_flatMap, dataBlocks_entries]

def Wide (width : Nat) (entries : List BlockEntry) : Prop :=
  ∀ entry ∈ entries, entry.key.length = width ∧ entry.value = []

namespace Wide

theorem encodedSize (wide : Wide width entries) : ∀ entry ∈ entries, entry.encodedSize = 9 + width := by
  intro entry member
  rw [BlockEntry.encodedSize, (wide entry member).1, (wide entry member).2, List.length_nil]
  omega

theorem dataSize_eq (wide : Wide width entries) : dataSize entries = entries.length * (9 + width) := by
  rw [dataSize, load, List.map_congr_left wide.encodedSize]
  simp

theorem lastKey_length (wide : Wide width entries) (member : block ∈ (dataBlocks entries).blocks) :
    block.lastKey.length = width := by
  obtain ⟨last, inBlock, same⟩ := Block.lastKey_mem ((dataBlocks_covers entries).1.nonempty block member)
  rw [← same]
  refine (wide last ?_).1
  rw [← dataBlocks_entries entries]
  exact List.mem_flatMap.mpr ⟨block, member, inBlock⟩

theorem indexBlock_length (wide : Wide width entries) (large : kTargetBlockSize < 9 + width) :
    (indexBlock (dataBlocks entries).index).length = 4 + entries.length * (16 + width) := by
  have each : ∀ block ∈ (dataBlocks entries).blocks, 16 + block.lastKey.length = 16 + width :=
    fun block member => by rw [wide.lastKey_length member]
  rw [Storage.indexBlock_length, load, List.map_congr_left each, ← blocks_length_of_large fun entry member => by
    rwa [wide.encodedSize entry member]]
  simp

theorem open_refused (wide : Wide width entries) (count : entries.length = 65) (size : width = 67108847)
    (filepath : Bytes) : ∃ file, SSTableWriter.write entries = .ok file ∧
      SSTableReader.open filepath (some file) = .error (corruption "Index key extends past block") := by
  have nonempty : entries ≠ [] := by
    rintro rfl
    cases count
  have total := wide.dataSize_eq
  have data := data_length_le entries
  have bloom := bloomBlock_length_le entries
  have index := wide.indexBlock_length (by rw [kTargetBlockSize]; omega)
  rw [count, size] at total index
  obtain ⟨back, wrote, opened⟩ := SSTableReader.open_written nonempty (by omega) (by omega) (by omega) filepath
  refine ⟨_, wrote, opened.trans ?_⟩
  have blocks := (dataBlocks_index_length entries).trans (blocks_length_of_large fun entry member => by
    rw [wide.encodedSize entry member, kTargetBlockSize]
    omega)
  have keys := dataBlocks_lastKeys entries
  cases first : (dataBlocks entries).index with
  | nil => simp [first, count] at blocks
  | cons idx rest =>
    have key : idx.lastKey.length = width := by
      have member : idx.lastKey ∈ (dataBlocks entries).blocks.map Block.lastKey := by
        rw [← keys, first]
        simp
      obtain ⟨block, inBlocks, same⟩ := List.mem_map.mp member
      rw [← same]
      exact wide.lastKey_length inBlocks
    rw [first] at index blocks
    rw [List.length_cons] at blocks
    rw [index, SSTableReader.readIndex_cut] <;> first | rfl | omega

end Wide

end VectorDb.Storage
