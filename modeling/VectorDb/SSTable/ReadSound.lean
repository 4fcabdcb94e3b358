import VectorDb.SSTable.CorruptFiles

namespace VectorDb.Common.BinarySerializer
open Lib

theorem readUint_sound {width offset value next : Nat} {buffer : Bytes}
    (read : readUint width buffer offset = .ok (value, next)) :
    next = offset + width ∧ littleEndian width value <+: buffer.drop offset := by
  rw [readUint] at read
  split at read
  next => cases read
  next inside =>
    cases read
    have size := Decoder.length_slice (not_lt.mp inside)
    have word := littleEndian_ofLittleEndian ((buffer.drop offset).take width)
    rw [size] at word
    rw [word]
    exact ⟨rfl, List.take_prefix _ _⟩

end VectorDb.Common.BinarySerializer

namespace VectorDb.Storage
open Lib Common BinarySerializer

namespace Block

def record (entry : BlockEntry) : Bytes :=
  littleEndian 4 entry.key.length ++ entry.key ++ littleEndian 4 entry.value.length ++ entry.value

/-- The entry is written out in the bytes. A tombstone's flag is any byte but zero. -/
def Stands (entry : BlockEntry) (bytes : Bytes) : Prop :=
  ∃ flag : Byte, record entry ++ [flag] <:+: bytes ∧ (entry.isTombstone = true ↔ flag ≠ 0)

theorem Stands.mono {entry : BlockEntry} {bytes more : Bytes} (stands : Stands entry bytes) (part : bytes <:+: more) :
    Stands entry more := by
  obtain ⟨flag, written, tombstone⟩ := stands
  exact ⟨flag, written.trans part, tombstone⟩

theorem initial_append {data first second : Bytes} {offset middle : Nat} (here : first <+: data.drop offset)
    (next : second <+: data.drop middle) (adjacent : offset + first.length = middle) :
    first ++ second <+: data.drop offset := by
  obtain ⟨rest, split⟩ := here
  rw [← adjacent, ← List.drop_drop, ← split, List.drop_left] at next
  rw [← split]
  exact (List.prefix_append_right_inj first).mpr next

theorem flag_initial {data : Bytes} {offset : Nat} (inside : offset < data.length) :
    [data.getD offset 0] <+: data.drop offset := by
  rw [List.drop_eq_getElem_cons inside, List.getD_eq_getElem data 0 inside]
  exact ⟨_, rfl⟩

theorem readEntry_sound {data : Bytes} {offset next : Nat} {entry : BlockEntry}
    (read : readEntry data offset = .ok (entry, next)) : Stands entry data := by
  simp only [readEntry, bind, Except.bind] at read
  split at read
  next => cases read
  next key keyRead =>
    obtain ⟨afterKeyLen, keyLen⟩ := readUint_sound keyRead
    split at read
    next => cases read
    next keyInside =>
      split at read
      next => cases read
      next value valueRead =>
        obtain ⟨afterValueLen, valueLen⟩ := readUint_sound valueRead
        split at read
        next => cases read
        next valueInside =>
          split at read
          next => cases read
          next flagInside =>
            cases read
            have keySize := Decoder.length_slice (not_lt.mp keyInside)
            have valueSize := Decoder.length_slice (not_lt.mp valueInside)
            refine ⟨data.getD (value.2 + value.1) 0, ?_, by simp⟩
            rw [record, keySize, valueSize]
            -- Each part starts where the one before it ends.
            have throughKey := initial_append keyLen ⟨_, List.take_append_drop key.1 (data.drop key.2)⟩
              (by rw [littleEndian_length, afterKeyLen])
            have throughValueLen := initial_append throughKey valueLen
              (by rw [List.length_append, littleEndian_length, keySize]; omega)
            have throughValue := initial_append throughValueLen ⟨_, List.take_append_drop value.1 (data.drop value.2)⟩
              (by simp only [List.length_append, littleEndian_length, keySize]; omega)
            have throughFlag := initial_append throughValue (flag_initial (not_le.mp flagInside))
              (by simp only [List.length_append, littleEndian_length, keySize, valueSize]; omega)
            exact throughFlag.isInfix.trans (List.drop_suffix offset data).isInfix

theorem readEntries_sound {data : Bytes} {count offset : Nat} {block final : Block}
    (read : readEntries data count offset block = .ok final) (stand : ∀ entry ∈ block.entries, Stands entry data) :
    ∀ entry ∈ final.entries, Stands entry data := by
  induction count generalizing offset block with
  | zero =>
    cases read
    exact stand
  | succ count ih =>
    rw [readEntries, Action.except_bind_ok] at read
    obtain ⟨⟨entry, next⟩, entryRead, rest⟩ := read
    refine ih rest ?_
    simp only [pushMoved, List.mem_append, List.mem_singleton]
    rintro other (before | rfl)
    · exact stand other before
    · exact readEntry_sound entryRead

theorem deserialize_sound {data : Bytes} {block : Block} (read : deserialize data = .ok block) :
    ∀ entry ∈ block.entries, Stands entry data := by
  rw [deserialize, Action.except_bind_ok] at read
  obtain ⟨⟨numEntries, offset⟩, -, rest⟩ := read
  exact readEntries_sound rest (by simp [empty])

theorem get_sound {block : Block} {key : Bytes} {entry : BlockEntry} (found : block.get key = some entry) :
    entry ∈ block.entries ∧ entry.key = key := by
  obtain ⟨member, equal⟩ := bisect_some found
  exact ⟨member, compare_eq_iff_eq.mp equal⟩

end Block

namespace SSTableReader

variable {reader : SSTableReader}

theorem readBlock_sound {idx : IndexEntry} {block : Block} (read : reader.readBlock idx = .ok block) :
    ∀ entry ∈ block.entries, Block.Stands entry reader.file := by
  intro entry member
  rw [readBlock] at read
  split at read
  next => cases read
  next =>
    refine (Block.deserialize_sound read entry member).mono ?_
    rw [readBytes]
    split
    · have initial := List.take_prefix idx.blockSize (reader.file.drop idx.blockOffset)
      exact initial.isInfix.trans (List.drop_suffix _ _).isInfix
    · exact List.nil_infix

theorem search_sound {key : Bytes} {entry : BlockEntry} (found : reader.search key = .ok (some entry)) :
    ∃ idx ∈ reader.index, ∃ block, reader.readBlock idx = .ok block ∧ entry ∈ block.entries ∧ entry.key = key := by
  rw [search] at found
  split at found
  next => cases found
  next =>
    split at found
    next => cases found
    next idx here =>
      obtain ⟨block, read, got⟩ := Action.except_bind_ok.mp found
      exact ⟨idx, List.mem_of_getElem? here, block, read, Block.get_sound (Except.ok.inj got)⟩

theorem mapM_readBlock_ok {index : List IndexEntry} {blocks : List Block}
    (read : index.mapM reader.readBlock = .ok blocks) {block : Block} :
    block ∈ blocks ↔ ∃ idx ∈ index, reader.readBlock idx = .ok block := by
  induction index generalizing blocks with
  | nil =>
    cases read
    simp
  | cons idx index ih =>
    rw [List.mapM_cons] at read
    obtain ⟨first, firstRead, restRead⟩ := Action.except_bind_ok.mp read
    obtain ⟨rest, others, done⟩ := Action.except_bind_ok.mp restRead
    cases done
    simp only [List.mem_cons, ih others, exists_eq_or_imp, firstRead, Except.ok.injEq]
    exact or_congr_left eq_comm

theorem readAll_ok {all : List BlockEntry} (read : reader.readAll = .ok all) {entry : BlockEntry} :
    entry ∈ all ↔ ∃ idx ∈ reader.index, ∃ block, reader.readBlock idx = .ok block ∧ entry ∈ block.entries := by
  obtain ⟨blocks, blocksRead, done⟩ := Action.except_bind_ok.mp read
  cases done
  simp only [List.mem_flatMap, mapM_readBlock_ok blocksRead]
  constructor
  · rintro ⟨block, ⟨idx, member, here⟩, inside⟩
    exact ⟨idx, member, block, here, inside⟩
  · rintro ⟨idx, member, block, here, inside⟩
    exact ⟨block, ⟨idx, member, here⟩, inside⟩

theorem open_file {filepath file : Bytes} (opened : SSTableReader.open filepath (some file) = .ok reader) :
    reader.file = file := by
  simp only [SSTableReader.open, bind, Except.bind] at opened
  repeat' split at opened
  all_goals cases opened
  all_goals rfl

theorem get_found {key : Bytes} {entry : BlockEntry} (found : reader.get key = some (.ok (some entry))) :
    reader.search key = .ok (some entry) := by
  rw [SSTableReader.get] at found
  obtain ⟨answer, -, result⟩ := Option.bind_eq_some_iff.mp found
  cases answer
  · cases result
  · exact Option.some.inj result

/-- Whatever file `Open` takes, damaged or not, no entry is made up: each one that `Get` or `ReadAll` returns is
written out in the file, and `Get` returns an entry of the wanted key that `ReadAll` returns too. -/
theorem entries_stand {filepath file : Bytes} (opened : SSTableReader.open filepath (some file) = .ok reader) :
    (∀ key entry, reader.get key = some (.ok (some entry)) →
      entry.key = key ∧ Block.Stands entry file ∧ ∀ all, reader.readAll = .ok all → entry ∈ all) ∧
    ∀ all, reader.readAll = .ok all → ∀ entry ∈ all, Block.Stands entry file := by
  obtain rfl := open_file opened
  constructor
  · intro key entry found
    obtain ⟨idx, member, block, read, inside, same⟩ := search_sound (get_found found)
    refine ⟨same, readBlock_sound read entry inside, fun all readAll => ?_⟩
    exact (readAll_ok readAll).mpr ⟨idx, member, block, read, inside⟩
  · intro all readAll entry member
    obtain ⟨idx, -, block, read, inside⟩ := (readAll_ok readAll).mp member
    exact readBlock_sound read entry inside

def strangeFlag : Bytes :=
  let block := writeUint32 [] 1 ++ Block.record ⟨[97], [5], true⟩ ++ [7]
  block ++ writeUint32 (writeUint32 [] 0) 0 ++ SSTableWriter.indexBlock [⟨[97], 0, 15⟩] ++
    SSTableWriter.footer 15 8 23 21 1

theorem entries_stand_strangeFlag :
    ∃ reader, SSTableReader.open [] (some strangeFlag) = .ok reader ∧
      reader.get [97] = some (.ok (some ⟨[97], [5], true⟩)) ∧ Block.Stands ⟨[97], [5], true⟩ strangeFlag := by
  have opened : SSTableReader.open [] (some strangeFlag) = .ok ⟨strangeFlag, ⟨[], 0, 0⟩, [⟨[97], 0, 15⟩], 1⟩ := rfl
  have found : SSTableReader.get ⟨strangeFlag, ⟨[], 0, 0⟩, [⟨[97], 0, 15⟩], 1⟩ [97] =
      some (.ok (some ⟨[97], [5], true⟩)) := rfl
  exact ⟨_, opened, found, ((entries_stand opened).1 _ _ found).2.1⟩

end SSTableReader

end VectorDb.Storage
