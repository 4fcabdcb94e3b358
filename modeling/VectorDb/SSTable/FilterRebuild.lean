import VectorDb.SSTable.ReadBack

namespace VectorDb.Storage.BloomFilter
open Lib SSTableWriter SSTableReader

theorem storedFilter_eq {filter : BloomFilter} (small : filter.numBits < 2 ^ 32) : storedFilter filter = filter := by
  rw [storedFilter, Nat.mod_eq_of_lt small]

theorem no_false_negatives (expectedKeys bitsPerKey : Nat) (small : (new expectedKeys bitsPerKey).numBits < 2 ^ 32)
    (keys : List Bytes) :
    ∃ rebuilt, readBloom (bloomBlock ((new expectedKeys bitsPerKey).addAll keys)) = .ok rebuilt ∧
      (∀ key ∈ keys, ((new expectedKeys bitsPerKey).addAll keys).mayContain key = some true ∧
        rebuilt.mayContain key = some true) ∧
      (∀ added, added <+: keys → ∀ key, ∀ pos ∈ ((new expectedKeys bitsPerKey).addAll added).positions key,
        pos / 8 < ((new expectedKeys bitsPerKey).addAll added).bits.length) ∧
      ∀ key, ∀ pos ∈ rebuilt.positions key, pos / 8 < rebuilt.bits.length := by
  have fresh := new_sized expectedKeys bitsPerKey
  obtain ⟨sized, -, holds⟩ := addAll_holds keys fresh
  obtain ⟨sameBits, sameHashes⟩ := addAll_numBits keys (new expectedKeys bitsPerKey)
  have hashes := new_hashes expectedKeys bitsPerKey
  rw [← sameHashes] at hashes
  refine ⟨_, readBloom_bloomBlock hashes.1 hashes.2, ?_⟩
  rw [storedFilter_eq (sameBits.trans_lt small)]
  refine ⟨fun key member => ?_, fun added _ => (addAll_holds added fresh).1.inside, sized.inside⟩
  have found := (holds key member).mayContain sized.positive
  exact ⟨found, found⟩

theorem no_false_negatives_overfull :
    ((new 1 10).addAll [[1], [2], [3]]).mayContain [3] = some true ∧
      ∃ rebuilt, readBloom (bloomBlock ((new 1 10).addAll [[1], [2], [3]])) = .ok rebuilt ∧
        rebuilt.mayContain [3] = some true := by
  obtain ⟨rebuilt, read, answers, -⟩ := no_false_negatives 1 10 (by decide) [[1], [2], [3]]
  obtain ⟨found, foundAgain⟩ := answers [3] (by decide)
  exact ⟨found, rebuilt, read, foundAgain⟩

end VectorDb.Storage.BloomFilter
