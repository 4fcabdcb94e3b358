import VectorDb.SSTable.SSTableWriter

namespace VectorDb.Storage.Block
open Lib Common SSTableWriter

def offer (block : Block) (entry : BlockEntry) : Block := (block.add entry).getD block

def addAll (adds : List BlockEntry) : Block := adds.foldl offer empty

theorem packed_addAll (adds : List BlockEntry) : Packed (addAll adds) := by
  have step : ∀ block entry, Packed block → Packed (offer block entry) := by
    intro block entry packed
    rw [offer]
    cases added : block.add entry with
    | none => exact packed
    | some next => exact (packed.add added).1
  have loop : ∀ block, Packed block → Packed (adds.foldl offer block) := by
    induction adds with
    | nil => exact fun _ packed => packed
    | cons entry adds ih => exact fun block packed => ih _ (step block entry packed)
  exact loop empty packed_empty

structure Rebuilds (block : Block) : Prop where
  size : block.currentSize = block.serialize.length
  rebuilt : ∃ read, deserialize block.serialize = .ok read ∧ read.entries = block.entries ∧
    read.currentSize = block.currentSize ∧ ∀ entry, (read.add entry).isSome = (block.add entry).isSome

theorem foldl_pushMoved_size (entries : List BlockEntry) (block : Block) :
    (entries.foldl pushMoved block).currentSize = block.currentSize + 9 * entries.length := by
  induction entries generalizing block with
  | nil => rfl
  | cons entry entries ih =>
    have counted : (block.pushMoved entry).currentSize = block.currentSize + 9 := rfl
    rw [List.foldl_cons, ih, counted, List.length_cons]
    omega

theorem deserialize_counts (block : Block) (count : block.entries.length < 2 ^ 32)
    (fits : ∀ entry ∈ block.entries, Fits entry) :
    deserialize block.serialize = .ok ⟨block.entries, 4 + 9 * block.entries.length⟩ := by
  have entries := foldl_pushMoved block.entries empty
  have size := foldl_pushMoved_size block.entries empty
  rw [deserialize_eq block count fits]
  cases read : block.entries.foldl pushMoved empty with
  | mk readEntries readSize =>
    rw [read] at entries size
    rw [show readEntries = block.entries from entries, show readSize = 4 + 9 * block.entries.length from size]

theorem sum_encodedSize (entries : List BlockEntry) :
    (entries.map BlockEntry.encodedSize).sum =
      9 * entries.length + (entries.map fun entry => entry.key.length + entry.value.length).sum := by
  induction entries with
  | nil => rfl
  | cons entry entries ih =>
    simp only [List.map_cons, List.sum_cons, List.length_cons, ih, BlockEntry.encodedSize]
    omega

theorem Packed.size_eq_iff {block : Block} (packed : Packed block) :
    4 + 9 * block.entries.length = block.currentSize ↔ ∀ entry ∈ block.entries, entry.key = [] ∧ entry.value = [] := by
  rw [packed.size, sum_encodedSize, Nat.add_left_cancel_iff, left_eq_add, List.sum_eq_zero_iff]
  simp [List.length_eq_zero_iff]

theorem rebuilds_iff_empty (adds : List BlockEntry) (count : (addAll adds).entries.length < 2 ^ 32)
    (fits : ∀ entry ∈ (addAll adds).entries, Fits entry) :
    (addAll adds).Rebuilds ↔ ∀ entry ∈ (addAll adds).entries, entry.key = [] ∧ entry.value = [] := by
  have packed := packed_addAll adds
  have read := deserialize_counts (addAll adds) count fits
  rw [← Packed.size_eq_iff packed]
  constructor
  · rintro ⟨-, rebuilt, ok, -, sameSize, -⟩
    rw [read] at ok
    cases ok
    exact sameSize
  · intro sameSize
    rw [sameSize] at read
    exact ⟨packed.serialize_length.symm, _, read, rfl, rfl, fun _ => rfl⟩

theorem rebuilds_iff_empty_bare : (addAll [⟨[], [], true⟩]).Rebuilds :=
  (rebuilds_iff_empty [⟨[], [], true⟩] (by decide) (by decide)).mpr (by decide)

def filler : BlockEntry := ⟨[], List.replicate 4074 0, false⟩

theorem filler_size : filler.encodedSize = 4083 := by
  simp only [BlockEntry.encodedSize, filler, List.length_replicate, List.length_nil]

theorem rebuilt_block_smaller :
    let block := addAll [⟨[97], [], false⟩]
    ¬ block.Rebuilds ∧ block.currentSize = 14 ∧ deserialize block.serialize = .ok ⟨block.entries, 13⟩ ∧
      block.add filler = none ∧ (Block.add ⟨block.entries, 13⟩ filler).isSome = true := by
  intro block
  have contents : block = ⟨[⟨[97], [], false⟩], 14⟩ := rfl
  have read : deserialize block.serialize = .ok ⟨block.entries, 13⟩ :=
    deserialize_counts block (by decide) (by decide)
  refine ⟨?_, rfl, read, ?_, ?_⟩
  · rintro ⟨-, rebuilt, ok, -, sameSize, -⟩
    rw [read] at ok
    cases ok
    exact absurd sameSize (by decide)
  · rw [contents, add, filler_size, if_pos (by decide)]
  · rw [contents, add, filler_size, if_neg (by decide)]
    rfl

end VectorDb.Storage.Block
