import VectorDb.Recovery.BufferDecoders
import VectorDb.SSTable.HashRange
import VectorDb.SSTable.RoundTrip

namespace VectorDb.Storage
open Lib Common BinarySerializer

namespace BloomFilter

def Covered (filter : BloomFilter) : Prop :=
  filter.numHashFunctions ≤ 0 ∨ (0 < filter.numBits ∧ filter.numBits ≤ filter.bits.length * 8)

theorem mayContain_outside (filter : BloomFilter) (hashes : 0 < filter.numHashFunctions)
    (few : filter.bits.length * 8 < filter.numBits) {key : Bytes}
    (last : (hashKey key 0xbc9f1d34).toNat = filter.numBits - 1) : filter.mayContain key = none := by
  obtain ⟨n, count⟩ : ∃ n, filter.numHashFunctions.toNat = n + 1 :=
    Nat.exists_eq_succ_of_ne_zero (by omega)
  have position : probe key 0 % filter.numBits = filter.numBits - 1 := by
    rw [probe, BitVec.zero_mul, BitVec.add_zero, last]
    exact Nat.mod_eq_of_lt (by omega)
  have outside : filter.bits[(filter.numBits - 1) / 8]? = none := List.getElem?_eq_none (by omega)
  rw [mayContain, count, List.range_succ_eq_map, testProbes]
  simp [position, outside]

theorem mayContain_defined_iff (filter : BloomFilter) (stored : filter.numBits < 2 ^ 32) :
    (∀ key, ∃ answer, filter.mayContain key = some answer) ↔ filter.Covered := by
  constructor
  · intro defined
    by_contra uncovered
    rw [Covered, not_or, not_le] at uncovered
    obtain ⟨hashes, gap⟩ := uncovered
    rcases Nat.eq_zero_or_pos filter.numBits with noBits | positive
    · obtain ⟨answer, answered⟩ := defined []
      rw [mayContain_no_bits filter noBits hashes] at answered
      cases answered
    · obtain ⟨key, last⟩ := hashKey_surjective 0xbc9f1d34 (BitVec.ofNat 32 (filter.numBits - 1))
      have lastNat : (hashKey key 0xbc9f1d34).toNat = filter.numBits - 1 := by
        rw [last, BitVec.toNat_ofNat]
        exact Nat.mod_eq_of_lt (by omega)
      obtain ⟨answer, answered⟩ := defined key
      rw [mayContain_outside filter hashes (by omega) lastNat] at answered
      cases answered
  · rintro (none | ⟨positive, inside⟩) key
    · refine ⟨true, ?_⟩
      rw [mayContain, Int.toNat_of_nonpos none]
      rfl
    · exact testProbes_isSome filter positive inside key _

end BloomFilter

namespace SSTableReader

theorem readUint32_lt {buffer : Bytes} {offset value next : Nat} (read : readUint32 buffer offset = .ok (value, next)) :
    value < 2 ^ 32 := by
  rw [readUint32, readUint] at read
  split at read
  next => cases read
  next inside =>
    cases read
    have size := Decoder.length_slice (not_lt.mp inside)
    have bound := ofLittleEndian_lt ((buffer.drop offset).take 4)
    rwa [size] at bound

structure FieldWidths (reader : SSTableReader) : Prop where
  numBits : reader.bloom.numBits < 2 ^ 32
  count : reader.index.length < 2 ^ 32
  blockSize : ∀ idx ∈ reader.index, idx.blockSize < 2 ^ 32

theorem open_ok {filepath file : Bytes} {reader : SSTableReader}
    (opened : SSTableReader.open filepath (some file) = .ok reader) :
    ∃ bloomBuf indexBuf, readBloom bloomBuf = .ok reader.bloom ∧ readIndex indexBuf = .ok reader.index := by
  simp only [SSTableReader.open, bind, Except.bind] at opened
  split at opened
  next => cases opened
  next =>
    split at opened
    next => cases opened
    next footer _ =>
      split at opened
      next => cases opened
      next =>
        split at opened
        next bloomBuf _ =>
          split at opened
          next => cases opened
          next bloom bloomRead =>
            split at opened
            next indexBuf _ =>
              split at opened
              next => cases opened
              next index indexRead =>
                cases opened
                exact ⟨bloomBuf, indexBuf, bloomRead, indexRead⟩
            next => cases opened
        next => cases opened

theorem readIndexEntry_blockSize {buffer : Bytes} {offset next : Nat} {idx : IndexEntry}
    (read : readIndexEntry buffer offset = .ok (idx, next)) : idx.blockSize < 2 ^ 32 := by
  simp only [readIndexEntry, bind, Except.bind] at read
  split at read
  next => cases read
  next =>
    split at read
    next => cases read
    next =>
      split at read
      next => cases read
      next =>
        split at read
        next => cases read
        next size sizeRead =>
          cases read
          exact readUint32_lt sizeRead

theorem readIndexEntries_widths {buffer : Bytes} {count offset : Nat} {index : List IndexEntry}
    (read : readIndexEntries buffer count offset = .ok index) :
    index.length = count ∧ ∀ idx ∈ index, idx.blockSize < 2 ^ 32 := by
  induction count generalizing offset index with
  | zero =>
    cases read
    simp
  | succ count ih =>
    simp only [readIndexEntries, bind, Except.bind] at read
    split at read
    next => cases read
    next first firstRead =>
      split at read
      next => cases read
      next rest restRead =>
        cases read
        obtain ⟨length, sizes⟩ := ih restRead
        refine ⟨by rw [List.length_cons, length], ?_⟩
        intro idx member
        rcases List.mem_cons.mp member with rfl | later
        · exact readIndexEntry_blockSize firstRead
        · exact sizes idx later

theorem fieldWidths {filepath file : Bytes} {reader : SSTableReader}
    (opened : SSTableReader.open filepath (some file) = .ok reader) : reader.FieldWidths := by
  obtain ⟨bloomBuf, indexBuf, bloomRead, indexRead⟩ := open_ok opened
  simp only [readBloom, bind, Except.bind] at bloomRead
  simp only [readIndex, bind, Except.bind] at indexRead
  split at bloomRead
  next => cases bloomRead
  next bits bitsRead =>
    split at bloomRead
    next => cases bloomRead
    next =>
      split at indexRead
      next => cases indexRead
      next count countRead =>
        obtain ⟨length, sizes⟩ := readIndexEntries_widths indexRead
        have bloomEq := Except.ok.inj bloomRead
        refine ⟨?_, ?_, sizes⟩
        · rw [← bloomEq]
          exact readUint32_lt bitsRead
        · rw [length]
          exact readUint32_lt countRead

structure SafeGet (reader : SSTableReader) (key : Bytes) : Prop where
  -- no bit outside the array, and no remainder by zero
  bloom : ∃ answer, reader.bloom.mayContain key = some answer
  -- `static_cast<int>(index_.size()) - 1` is an `int` where the filter lets the key through
  search : reader.bloom.mayContain key = some true → -2 ^ 31 ≤ castInt reader.index.length - 1
  block : ∀ idx ∈ reader.index, (readBytes reader.file idx.blockOffset idx.blockSize).length = idx.blockSize →
    (Block.decode.run (2 ^ 64) (readBytes reader.file idx.blockOffset idx.blockSize) 0).Inside (2 ^ 64) idx.blockSize
  returns : ∃ result, reader.get key = some result

theorem castInt_sub_one_iff {n : Nat} (small : n < 2 ^ 32) : -2 ^ 31 ≤ castInt n - 1 ↔ n ≠ 2 ^ 31 := by
  rw [castInt, BitVec.toInt_eq_toNat_cond, BitVec.toNat_ofNat, Nat.mod_eq_of_lt small]
  split <;> omega

theorem get_safe_iff {filepath file : Bytes} {reader : SSTableReader}
    (opened : SSTableReader.open filepath (some file) = .ok reader) :
    (∀ key, reader.SafeGet key) ↔ reader.bloom.Covered ∧
      (reader.index.length = 2 ^ 31 → ∀ key, reader.bloom.mayContain key = some false) := by
  have widths := fieldWidths opened
  rw [← BloomFilter.mayContain_defined_iff _ widths.numBits]
  have overflow := castInt_sub_one_iff widths.count
  constructor
  · intro safe
    refine ⟨fun key => (safe key).bloom, fun large key => ?_⟩
    obtain ⟨answer, answered⟩ := (safe key).bloom
    cases answer with
    | false => exact answered
    | true => exact absurd large (overflow.mp ((safe key).search answered))
  · rintro ⟨defined, rejected⟩ key
    obtain ⟨answer, answered⟩ := defined key
    refine ⟨⟨answer, answered⟩, ?_, ?_, ?_⟩
    · intro passed
      refine overflow.mpr fun large => ?_
      rw [rejected large key] at passed
      cases passed
    · intro idx member whole
      have size := widths.blockSize idx member
      let buffer : Buffer := ⟨readBytes reader.file idx.blockOffset idx.blockSize, by omega⟩
      have inside := (buffer.inside Block.guarded_decode).1
      rwa [show buffer.bytes.length = idx.blockSize from whole] at inside
    · rw [SSTableReader.get, answered]
      cases answer
      · exact ⟨_, rfl⟩
      · exact ⟨_, rfl⟩

theorem get_safe_iff_one_block : ∃ file reader, SSTableWriter.write [⟨[97], [1], false⟩] = .ok file ∧
    SSTableReader.open [] (some file) = .ok reader ∧ reader.index.length = 1 ∧
    reader.bloom.mayContain [97] = some true ∧ ∀ key, reader.SafeGet key := by
  have limits : WithinLimits [⟨[97], [1], false⟩] := by constructor <;> decide +kernel
  obtain ⟨back, wrote, opened⟩ := open_write (by simp) limits []
  have held : (storedFilter (SSTableWriter.bloomFilter [⟨[97], [1], false⟩])).mayContain [97] = some true := by
    decide +kernel
  have covered : (storedFilter (SSTableWriter.bloomFilter [⟨[97], [1], false⟩])).Covered := .inr (by decide +kernel)
  have few : (SSTableWriter.dataBlocks [⟨[97], [1], false⟩]).index.length ≠ 2 ^ 31 := by decide +kernel
  exact ⟨_, _, wrote, opened, rfl, held, (get_safe_iff opened).mpr ⟨covered, fun large => absurd large few⟩⟩

def withoutBits (numBits numHashFns : Nat) : Bytes :=
  writeUint32 (writeUint32 [] numBits) numHashFns ++ SSTableWriter.indexBlock [] ++ SSTableWriter.footer 0 8 8 4 0

/-- `Open` takes a filter of no bits, where `Get` takes a remainder by zero, and a filter of 64 bits
without their bytes, where it reads outside the array. -/
theorem accepted_file_undefined :
    (∃ reader, SSTableReader.open [] (some (withoutBits 0 1)) = .ok reader ∧ reader.bloom.numBits = 0 ∧
      reader.get [97] = none ∧ ¬ reader.SafeGet [97]) ∧
    ∃ reader, SSTableReader.open [] (some (withoutBits 64 1)) = .ok reader ∧ reader.bloom.numBits = 64 ∧
      reader.bloom.bits = [] ∧ reader.get [97] = none ∧ ¬ reader.SafeGet [97] := by
  constructor
  · refine ⟨⟨withoutBits 0 1, ⟨[], 0, 1⟩, [], 0⟩, rfl, rfl, rfl, fun safe => ?_⟩
    obtain ⟨result, returned⟩ := safe.returns
    cases returned
  · refine ⟨⟨withoutBits 64 1, ⟨[], 64, 1⟩, [], 0⟩, rfl, rfl, rfl, rfl, fun safe => ?_⟩
    obtain ⟨result, returned⟩ := safe.returns
    cases returned

end SSTableReader

end VectorDb.Storage
