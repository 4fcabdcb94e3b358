import VectorDb.Lib.Chunks
import VectorDb.SSTable.RoundTrip

namespace VectorDb.Storage
open Lib Common SSTableWriter

abbrev dataSize (entries : List BlockEntry) : Nat := load BlockEntry.encodedSize entries

variable {entries : List BlockEntry} {block : Block}

theorem length_le_dataSize (entries : List BlockEntry) : 9 * entries.length ≤ dataSize entries := by
  apply length_le_load
  intro entry _
  rw [BlockEntry.encodedSize]
  omega

theorem dataBlocks_dataSize (entries : List BlockEntry) :
    load (fun block => dataSize block.entries) (dataBlocks entries).blocks = dataSize entries := by
  rw [← load_flatMap, dataBlocks_entries]

theorem block_dataSize_le (member : block ∈ (dataBlocks entries).blocks) :
    dataSize block.entries ≤ dataSize entries := by
  rw [← dataBlocks_dataSize entries]
  exact le_load (fun block => dataSize block.entries) member

theorem lastKey_dataSize_le (member : block ∈ (dataBlocks entries).blocks) :
    9 + block.lastKey.length ≤ dataSize block.entries := by
  obtain ⟨last, inBlock, same⟩ := Block.lastKey_mem ((dataBlocks_covers entries).1.nonempty block member)
  have size : last.encodedSize ≤ dataSize block.entries := le_load _ inBlock
  rw [BlockEntry.encodedSize, same] at size
  omega

theorem blocks_length_le (entries : List BlockEntry) : 9 * (dataBlocks entries).blocks.length ≤ dataSize entries := by
  rw [← dataBlocks_dataSize entries]
  apply length_le_load
  intro block member
  have := lastKey_dataSize_le member
  omega

theorem indexBlock_length (entries : List BlockEntry) : (indexBlock (dataBlocks entries).index).length =
    4 + load (fun block => 16 + block.lastKey.length) (dataBlocks entries).blocks := by
  have keys := congrArg (List.map fun key : Bytes => 16 + key.length) (dataBlocks_lastKeys entries)
  simp only [List.map_map] at keys
  rw [SSTableReader.indexBlock_eq, List.length_append, littleEndian_length, List.length_flatMap]
  congr 1
  calc _ = ((dataBlocks entries).index.map ((fun key : Bytes => 16 + key.length) ∘ IndexEntry.lastKey)).sum := by
        congr 1
        refine List.map_congr_left fun idx _ => ?_
        simp [SSTableReader.encodeIndex]
        omega
    _ = _ := by rw [keys]; rfl

theorem indexBlock_length_le (entries : List BlockEntry) :
    (indexBlock (dataBlocks entries).index).length ≤ 4 + 2 * dataSize entries := by
  rw [indexBlock_length, ← dataBlocks_dataSize entries, ← load_mul]
  apply Nat.add_le_add_left
  apply load_le_load
  intro block member
  have := lastKey_dataSize_le member
  omega

theorem bloomFilter_numBits_le (entries : List BlockEntry) :
    (bloomFilter entries).numBits ≤ 10 * entries.length + 71 := by
  rw [bloomFilter, (BloomFilter.addAll_numBits _ _).1, BloomFilter.new]
  dsimp only
  have reduced := Nat.mod_le (entries.length * 10) (2 ^ 64)
  omega

theorem bloomBlock_length_le (entries : List BlockEntry) :
    (bloomBlock (bloomFilter entries)).length ≤ 10 * entries.length + 79 := by
  have bits := bloomFilter_numBits_le entries
  have bytes : (bloomFilter entries).bits.length * 8 = (bloomFilter entries).numBits :=
    (BloomFilter.addAll_holds _ (BloomFilter.new_sized _ _)).1.bytes
  simp only [bloomBlock, BinarySerializer.writeUint32, List.length_append, littleEndian_length, List.length_nil]
  omega

theorem withinLimits_of_dataSize (small : dataSize entries ≤ 2 ^ 30) : WithinLimits entries := by
  have count := length_le_dataSize entries
  refine ⟨fun entry member => ?_, fun block member => ?_, ?_, ?_, ?_⟩
  · have size : entry.encodedSize ≤ dataSize entries := le_load _ member
    rw [BlockEntry.encodedSize] at size
    exact ⟨by omega, by omega⟩
  · have packed := (dataBlocks_covers entries).1.packed block (by simp [member])
    have size := block_dataSize_le member
    rw [packed.serialize_length, packed.size]
    change 4 + dataSize block.entries < 2 ^ 32
    omega
  · have := bloomBlock_length_le entries
    omega
  · have := indexBlock_length_le entries
    omega
  · have := blocks_length_le entries
    omega

theorem filterIntact_of_dataSize (small : dataSize entries ≤ 2 ^ 30) : FilterIntact entries := by
  left
  have bits := bloomFilter_numBits_le entries
  have count := length_le_dataSize entries
  omega

end VectorDb.Storage
