import VectorDb.SSTable.ReadBack

namespace VectorDb.Storage
open Lib Common SSTableWriter SSTableReader

def FilterIntact (entries : List BlockEntry) : Prop :=
  let bloom := bloomFilter entries
  bloom.numBits < 2 ^ 32 ∨
    (bloom.numBits % 2 ^ 32 ≠ 0 ∧ ∀ entry ∈ entries, (storedFilter bloom).mayContain entry.key = some true)

def RoundTrips (entries : List BlockEntry) (distinctKeys : Nat) : Prop :=
  Ascending BlockEntry.key entries ∧ ∀ filepath, ∃ file reader,
    SSTableWriter.write entries = .ok file ∧ SSTableReader.open filepath (some file) = .ok reader ∧
      reader.numEntries = distinctKeys ∧ reader.readAll = .ok entries ∧
      ∀ key, reader.get key = some (.ok (find BlockEntry.key entries key))

section
variable {entries : List BlockEntry}

private theorem bloomFilter_sized (entries : List BlockEntry) : (bloomFilter entries).Sized :=
  (BloomFilter.addAll_holds _ (BloomFilter.new_sized _ _)).1

private theorem bloomFilter_hashes (entries : List BlockEntry) : (bloomFilter entries).numHashFunctions = 7 :=
  (BloomFilter.addAll_numBits _ _).2

private theorem intact_answers (intact : FilterIntact entries) (key : Bytes) :
    ∃ answer, (storedFilter (bloomFilter entries)).mayContain key = some answer := by
  have sized := bloomFilter_sized entries
  have bytes := sized.bytes
  have positive := sized.positive
  have low := Nat.mod_le (bloomFilter entries).numBits (2 ^ 32)
  refine BloomFilter.testProbes_isSome _ ?_ (bytes ▸ low) key _
  rcases intact with small | ⟨nonzero, -⟩
  · exact positive.trans_eq (Nat.mod_eq_of_lt small).symm
  · exact Nat.pos_of_ne_zero nonzero

private theorem intact_holds (intact : FilterIntact entries) {entry : BlockEntry} (member : entry ∈ entries) :
    (storedFilter (bloomFilter entries)).mayContain entry.key = some true := by
  rcases intact with small | ⟨-, holds⟩
  · rw [storedFilter, Nat.mod_eq_of_lt small]
    obtain ⟨sized, -, holds⟩ := BloomFilter.addAll_holds (entries.map BlockEntry.key)
      (BloomFilter.new_sized entries.length 10)
    exact (holds entry.key (List.mem_map_of_mem member)).mayContain sized.positive
  · exact holds entry member

private theorem get_of_intact (intact : FilterIntact entries) {reader : SSTableReader}
    (bloom : reader.bloom = storedFilter (bloomFilter entries))
    (search : ∀ key, reader.search key = .ok (find BlockEntry.key entries key)) (key : Bytes) :
    reader.get key = some (.ok (find BlockEntry.key entries key)) := by
  obtain ⟨answer, decided⟩ := intact_answers intact key
  rw [SSTableReader.get, bloom, decided]
  cases answer with
  | true => simp [search]
  | false =>
    have absent : find BlockEntry.key entries key = none := by
      refine (find_eq_none _).mpr fun entry member same => ?_
      rw [← same, intact_holds intact member] at decided
      cases decided
    simp [absent]

theorem intact_of_get (nonempty : entries ≠ []) {file : Bytes}
    (get : ∀ entry ∈ entries, (written file entries).get entry.key = some (.ok (some entry))) :
    FilterIntact entries := by
  have answered : ∀ entry ∈ entries, (storedFilter (bloomFilter entries)).mayContain entry.key = some true := by
    intro entry member
    have found := get entry member
    rw [SSTableReader.get, written] at found
    rcases decided : (storedFilter (bloomFilter entries)).mayContain entry.key with _ | answer
    · simp [decided] at found
    · cases answer
      · simp [decided] at found
      · rfl
  refine .inr ⟨fun noBits => ?_, answered⟩
  obtain ⟨entry, member⟩ := List.exists_mem_of_ne_nil entries nonempty
  have undefined := BloomFilter.mayContain_no_bits (storedFilter (bloomFilter entries)) noBits
    (by rw [storedFilter, bloomFilter_hashes]; decide) entry.key
  rw [answered entry member] at undefined
  cases undefined

theorem written_get (ascending : Ascending BlockEntry.key entries) (limits : WithinLimits entries)
    (intact : FilterIntact entries) (back : Bytes) (key : Bytes) :
    (written ((dataBlocks entries).file ++ back) entries).get key = some (.ok (find BlockEntry.key entries key)) := by
  have search := (written_indexes ascending limits back).search_eq
  simp only [dataBlocks_entries] at search
  exact get_of_intact intact rfl search key

theorem roundTrips_iff_intact (nonempty : entries ≠ []) (ascending : Ascending BlockEntry.key entries)
    (limits : WithinLimits entries) : RoundTrips entries entries.length ↔ FilterIntact entries := by
  constructor
  · rintro ⟨-, roundTrip⟩
    obtain ⟨file, reader, wrote, opened, -, -, get⟩ := roundTrip []
    obtain ⟨back, wrote', opened'⟩ := open_write nonempty limits []
    rw [wrote] at wrote'
    cases wrote'
    rw [opened] at opened'
    cases opened'
    exact intact_of_get nonempty fun entry member =>
      (get entry.key).trans (by rw [find_mem _ ascending member])
  · intro intact
    refine ⟨ascending, fun filepath => ?_⟩
    obtain ⟨back, wrote, opened⟩ := open_write nonempty limits filepath
    have readAll := (written_indexes ascending limits back).readAll_eq
    rw [dataBlocks_entries] at readAll
    exact ⟨_, _, wrote, opened, rfl, readAll, written_get ascending limits intact back⟩

end

/-- A table written from a MemTable reads back exactly if its Bloom filter survives the 32 bits its
size is stored in. -/
theorem memtable_roundTrips_iff (pf : Platform) (ms : List Mutation) (nonempty : ms ≠ [])
    (limits : WithinLimits ((MemTable.new pf).applyAll pf ms).entries) :
    RoundTrips ((MemTable.new pf).applyAll pf ms).entries (ms.map Mutation.key).toFinset.card ↔
      FilterIntact ((MemTable.new pf).applyAll pf ms).entries := by
  have filled : ((MemTable.new pf).applyAll pf ms).entries ≠ [] := by
    rw [MemTable.entries_applyAll_new, ne_eq, replay_eq_nil]
    simpa using nonempty
  rw [← MemTable.entries_length pf]
  exact roundTrips_iff_intact filled (MemTable.entries_ascending _) limits

theorem memtable_roundTrips_two_keys :
    RoundTrips ((MemTable.new .reference).applyAll .reference [.put [2] [7], .delete [1]]).entries 2 := by
  have contents : ((MemTable.new .reference).applyAll .reference [.put [2] [7], .delete [1]]).entries =
      [⟨[1], [], true⟩, ⟨[2], [7], false⟩] := by
    rw [MemTable.entries_applyAll_new]
    decide
  refine (memtable_roundTrips_iff .reference [.put [2] [7], .delete [1]] (by simp) ?_).mpr ?_
  · rw [contents]
    constructor <;> decide +kernel
  · rw [contents]
    exact .inl (by decide +kernel)

section ManyKeys

def fourByteEntries (n : Nat) : List BlockEntry :=
  (List.range n).map fun i => ⟨(littleEndian 4 i).reverse, [], false⟩

variable {n : Nat}

theorem fourByteEntries_ascending (small : n ≤ 2 ^ 32) :
    Ascending BlockEntry.key (fourByteEntries n) := by
  refine List.pairwise_map.mpr (List.Pairwise.imp_of_mem ?_ List.pairwise_lt_range)
  intro i j _ inRange less
  exact reverse_littleEndian_lt less ((List.mem_range.mp inRange).trans_le small)

private theorem fourByteEntries_size : ∀ entry ∈ fourByteEntries n,
    entry.key.length = 4 ∧ entry.value = [] ∧ entry.encodedSize = 13 := by
  intro entry member
  obtain ⟨i, -, rfl⟩ := List.mem_map.mp member
  simp [BlockEntry.encodedSize]

private theorem fourByteEntries_packed {block : Block} (packed : Packed block)
    (subset : block.entries ⊆ fourByteEntries n) : block.currentSize = 4 + 13 * block.entries.length := by
  rw [packed.size, List.eq_replicate_of_mem (a := 13) (l := block.entries.map BlockEntry.encodedSize)]
  · simp [Nat.mul_comm]
  · intro size member
    obtain ⟨entry, inBlock, rfl⟩ := List.mem_map.mp member
    exact (fourByteEntries_size entry (subset inBlock)).2.2

private theorem fourByteEntries_closed_le : 314 * ((fourByteEntries n).foldl Progress.addEntry .start).blocks.length ≤
    n := by
  have covers := Progress.Covers.start.foldl (fourByteEntries n)
  have tight := blocks_foldl_tight (fourByteEntries n)
  generalize (fourByteEntries n).foldl Progress.addEntry .start = p at covers tight ⊢
  have many : ∀ block ∈ p.blocks, 314 ≤ block.entries.length := by
    intro block member
    obtain ⟨entry, inEntries, past⟩ := tight block member
    have subset : block.entries ⊆ fourByteEntries n := by
      intro other inBlock
      have inAll : other ∈ [] ++ fourByteEntries n := by
        rw [← covers.covered]
        exact List.mem_append_left _ (List.mem_flatMap.mpr ⟨block, member, inBlock⟩)
      simpa using inAll
    rw [fourByteEntries_packed (covers.packed block (by simp [member])) subset,
      (fourByteEntries_size entry inEntries).2.2, kTargetBlockSize] at past
    omega
  have total : (p.blocks.flatMap Block.entries).length ≤ n := by
    have length := congrArg List.length covers.covered
    simp [fourByteEntries] at length
    simp
    omega
  rw [List.length_flatMap] at total
  have := List.card_nsmul_le_sum (p.blocks.map fun block => block.entries.length) 314 (by simpa using many)
  simp at this
  omega

private theorem flushBlock_blocks_le (p : Progress) : p.flushBlock.blocks.length ≤ p.blocks.length + 1 := by
  rw [Progress.flushBlock]
  split <;> simp

private theorem fourByteEntries_blocks_le : 314 * (dataBlocks (fourByteEntries n)).blocks.length ≤ n + 314 := by
  have closed := fourByteEntries_closed_le (n := n)
  have last := flushBlock_blocks_le ((fourByteEntries n).foldl Progress.addEntry .start)
  rw [dataBlocks]
  omega

private theorem fourByteEntries_inBlock {block : Block} (member : block ∈ (dataBlocks (fourByteEntries n)).blocks) :
    block.entries ⊆ fourByteEntries n := by
  intro entry inBlock
  rw [← dataBlocks_entries (fourByteEntries n)]
  exact List.mem_flatMap.mpr ⟨block, member, inBlock⟩

private theorem fourByteEntries_bits (many : n = 429496729) :
    (bloomFilter (fourByteEntries n)).numBits = 2 ^ 32 ∧ (bloomFilter (fourByteEntries n)).bits.length = 2 ^ 29 := by
  have bits : (bloomFilter (fourByteEntries n)).numBits = 2 ^ 32 := by
    rw [bloomFilter, (BloomFilter.addAll_numBits _ _).1, fourByteEntries, List.length_map, List.length_range, many]
    rfl
  have bytes := (bloomFilter_sized (fourByteEntries n)).bytes
  exact ⟨bits, by omega⟩

private theorem fourByteEntries_index_length :
    (indexBlock (dataBlocks (fourByteEntries n)).index).length =
      4 + 20 * (dataBlocks (fourByteEntries n)).blocks.length := by
  have lengths : ((dataBlocks (fourByteEntries n)).index.map fun idx => (encodeIndex idx).length) =
      List.replicate (dataBlocks (fourByteEntries n)).blocks.length 20 := by
    have keys : (dataBlocks (fourByteEntries n)).index.map (fun idx => idx.lastKey.length) =
        (dataBlocks (fourByteEntries n)).blocks.map fun block => block.lastKey.length := by
      simpa [Function.comp_def] using congrArg (List.map List.length) (dataBlocks_lastKeys (fourByteEntries n))
    have sizes : ∀ idx : IndexEntry, (encodeIndex idx).length = 16 + idx.lastKey.length := by
      intro idx
      simp [encodeIndex]
      omega
    have four : ∀ block ∈ (dataBlocks (fourByteEntries n)).blocks, block.lastKey.length = 4 := by
      intro block member
      obtain ⟨last, inBlock, same⟩ := Block.lastKey_mem ((dataBlocks_covers _).1.nonempty block member)
      rw [← same]
      exact (fourByteEntries_size last (fourByteEntries_inBlock member inBlock)).1
    calc _ = ((dataBlocks (fourByteEntries n)).index.map fun idx => idx.lastKey.length).map (16 + ·) := by
          simp [sizes]
      _ = (dataBlocks (fourByteEntries n)).blocks.map fun _ => 20 := by
          rw [keys, List.map_map]
          exact List.map_congr_left fun block member => by simp [four block member]
      _ = _ := by simp
  rw [indexBlock_eq, List.length_append, littleEndian_length, List.length_flatMap, lengths]
  simp [Nat.mul_comm]

theorem fourByteEntries_limits (many : n = 429496729) : WithinLimits (fourByteEntries n) := by
  have count := fourByteEntries_blocks_le (n := n)
  refine ⟨fun entry member => ?_, fun block member => ?_, ?_, ?_, by omega⟩
  · obtain ⟨key, value, -⟩ := fourByteEntries_size entry member
    exact ⟨by omega, by simp [value]⟩
  · have packed := (dataBlocks_covers (fourByteEntries n)).1.packed block (by simp [member])
    have size := fourByteEntries_packed packed (fourByteEntries_inBlock member)
    rw [packed.serialize_length]
    rcases packed.bounded with single | small
    · omega
    · simp only [kTargetBlockSize] at small
      omega
  · simp [bloomBlock, BinarySerializer.writeUint32, (fourByteEntries_bits many).2]
  · rw [fourByteEntries_index_length]
    omega

/-- 429496729 keys give a filter of exactly 2^32 bits, whose stored size is zero. -/
theorem fourByteEntries_not_intact (many : n = 429496729) : ¬ FilterIntact (fourByteEntries n) := by
  have bits := (fourByteEntries_bits many).1
  rintro (small | ⟨nonzero, -⟩)
  · omega
  · exact nonzero (by omega)

end ManyKeys

theorem memtable_not_always_roundTrips :
    ¬ ∀ (pf : Platform) (ms : List Mutation), ms ≠ [] →
      WithinLimits ((MemTable.new pf).applyAll pf ms).entries →
      RoundTrips ((MemTable.new pf).applyAll pf ms).entries (ms.map Mutation.key).toFinset.card := by
  intro always
  obtain ⟨n, many⟩ : ∃ n, n = 429496729 := ⟨_, rfl⟩
  let ms := (List.range n).map fun i => Mutation.put (littleEndian 4 i).reverse []
  have effects : ms.map Mutation.effect = fourByteEntries n := by
    simp [ms, fourByteEntries, Mutation.effect, Function.comp_def]
  have ascending : Ascending BlockEntry.key (fourByteEntries n) := fourByteEntries_ascending (by omega)
  have contents : ((MemTable.new .reference).applyAll .reference ms).entries = fourByteEntries n := by
    rw [MemTable.entries_applyAll_new, effects]
    exact replay_ascending_self _ ascending
  have nonempty : fourByteEntries n ≠ [] := by
    simp [fourByteEntries, many]
  have roundTrips := always .reference ms (by rintro empty; simp [← effects, empty] at nonempty)
    (contents ▸ fourByteEntries_limits many)
  rw [← MemTable.entries_length .reference, contents] at roundTrips
  exact fourByteEntries_not_intact many
    ((roundTrips_iff_intact nonempty ascending (fourByteEntries_limits many)).mp roundTrips)

end VectorDb.Storage
