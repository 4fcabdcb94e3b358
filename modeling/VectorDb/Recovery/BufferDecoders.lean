import VectorDb.Checkpoint.Format
import VectorDb.Wal.Record

namespace VectorDb.Storage
open Lib Common Decoder Decoding

/-- `WAL::DeserializeEntry` with its comparisons and copies. -/
def WAL.decodeEntry : BufferDecoder WALEntry := do
  require 13 (corruption "WAL payload too small")
  let typeByte ← take 1
  let type := WALEntryType.ofByte (typeByte.getD 0 0)
  let sequenceNumber ← readUint64
  let keyLen ← readUint32
  require keyLen (corruption "WAL key extends past payload")
  let key ← take keyLen
  if type = .kPut then
    let valLen ← readUint32
    require valLen (corruption "WAL value extends past payload")
    let value ← take valLen
    return ⟨sequenceNumber, type, key, value⟩
  else
    return ⟨sequenceNumber, type, key, []⟩

namespace Block

def decodeEntry : BufferDecoder BlockEntry := do
  let keyLen ← readUint32
  require keyLen (corruption "Block key extends past data")
  let key ← take keyLen
  let valLen ← readUint32
  require valLen (corruption "Block value extends past data")
  let value ← take valLen
  -- `offset >= data.size()`, with the one byte that is read next
  require 1 (corruption "Block tombstone flag missing")
  let flag ← take 1
  return ⟨key, value, flag.getD 0 0 ≠ 0⟩

def decodeEntries : Nat → Block → BufferDecoder Block
  | 0, block => pure block
  | count + 1, block => do
    let entry ← decodeEntry
    decodeEntries count (block.pushMoved entry)

/-- `Block::Deserialize` with its comparisons and copies. -/
def decode : BufferDecoder Block := do
  let numEntries ← readUint32
  decodeEntries numEntries empty

end Block

theorem getD_slice (data : Bytes) (offset : Nat) : ((data.drop offset).take 1).getD 0 0 = data.getD offset 0 := by
  simp [List.getD_eq_getElem?_getD, List.getElem?_drop]

theorem Block.eval_decodeEntry (data : Bytes) (offset : Nat) :
    decodeEntry.eval data offset = readEntry data offset := by
  rw [decodeEntry, readEntry, eval_bind, readUint32, eval_readUint]
  refine bind_congr ?_
  rintro ⟨keyLen, offset⟩
  simp only [eval_require_bind, eval_take_bind]
  by_cases keyPast : offset + keyLen > data.length
  · rw [if_pos keyPast, if_pos keyPast]
    rfl
  rw [if_neg keyPast, if_neg keyPast, eval_bind, eval_readUint]
  refine bind_congr ?_
  rintro ⟨valLen, offset⟩
  simp only [eval_require_bind, eval_take_bind]
  by_cases valuePast : offset + valLen > data.length
  · rw [if_pos valuePast, if_pos valuePast]
    rfl
  rw [if_neg valuePast, if_neg valuePast]
  by_cases flagPast : offset + valLen ≥ data.length
  · rw [if_pos flagPast, if_pos (Nat.lt_succ_of_le flagPast)]
    rfl
  · rw [if_neg flagPast, if_neg (by omega), getD_slice]
    rfl

theorem Block.eval_decodeEntries (data : Bytes) (count offset : Nat) (block : Block) :
    ((decodeEntries count block).eval data offset).map Prod.fst = readEntries data count offset block := by
  induction count generalizing offset block with
  | zero => rfl
  | succ count ih =>
    rw [decodeEntries, readEntries, map_eval_bind, eval_decodeEntry]
    refine bind_congr ?_
    rintro ⟨entry, offset⟩
    exact ih offset _

theorem Block.eval_decode (data : Bytes) : (decode.eval data 0).map Prod.fst = deserialize data := by
  rw [decode, deserialize, map_eval_bind, readUint32, eval_readUint]
  refine bind_congr ?_
  rintro ⟨numEntries, offset⟩
  exact eval_decodeEntries data numEntries offset empty

theorem WAL.eval_decodeEntry (payload : Bytes) :
    (WAL.decodeEntry.eval payload 0).map Prod.fst = deserializeEntry payload := by
  have typeByte : (payload.take 1).getD 0 0 = payload.getD 0 0 := getD_slice payload 0
  rw [WAL.decodeEntry, deserializeEntry, eval_require_bind]
  by_cases short : payload.length < 13
  · rw [if_pos short, if_pos (by omega)]
    rfl
  rw [if_neg short, if_neg (by omega), eval_take_bind, List.drop_zero, typeByte, map_eval_bind, readUint64,
    eval_readUint]
  refine bind_congr ?_
  rintro ⟨sequenceNumber, offset⟩
  rw [map_eval_bind, readUint32, eval_readUint]
  refine bind_congr ?_
  rintro ⟨keyLen, offset⟩
  simp only [eval_require_bind, eval_take_bind]
  by_cases keyPast : offset + keyLen > payload.length
  · rw [if_pos keyPast, if_pos keyPast]
    rfl
  rw [if_neg keyPast, if_neg keyPast]
  by_cases isPut : WALEntryType.ofByte (payload.getD 0 0) = .kPut
  · rw [if_pos isPut, if_pos isPut, map_eval_bind, eval_readUint]
    refine bind_congr ?_
    rintro ⟨valLen, offset⟩
    simp only [eval_require_bind, eval_take_bind]
    by_cases valuePast : offset + valLen > payload.length
    · rw [if_pos valuePast, if_pos valuePast]
      rfl
    · rw [if_neg valuePast, if_neg valuePast]
      rfl
  · rw [if_neg isPut, if_neg isPut]
    rfl

theorem WAL.guarded_decodeEntry : WAL.decodeEntry.Guarded reach 0 fun _ _ => True := by
  apply (guarded_require _ (by decide)).bind
  intro _ room long
  apply (guarded_take (by omega)).bind
  intro _ _ _
  apply guarded_readUint64.bind
  intro _ _ _
  apply guarded_readUint32.bind
  intro keyLen _ within
  apply (guarded_require _ within).bind
  intro _ _ roomy
  apply (guarded_take roomy).bind
  intro key room _
  split
  · apply guarded_readUint32.bind
    intro valLen _ within
    apply (guarded_require _ within).bind
    intro _ _ roomy
    apply (guarded_take roomy).bind
    intro _ _ _
    exact guarded_pure _ trivial
  · exact guarded_pure _ trivial

namespace Block

theorem guarded_decodeEntry {room : Nat} : decodeEntry.Guarded reach room fun _ _ => True := by
  apply guarded_readUint32.bind
  intro keyLen _ within
  apply (guarded_require _ within).bind
  intro _ _ roomy
  apply (guarded_take roomy).bind
  intro _ _ _
  apply guarded_readUint32.bind
  intro valLen _ within
  apply (guarded_require _ within).bind
  intro _ _ roomy
  apply (guarded_take roomy).bind
  intro _ _ _
  apply (guarded_require _ (by decide)).bind
  intro _ _ roomy
  apply (guarded_take roomy).bind
  intro _ _ _
  exact guarded_pure _ trivial

theorem guarded_decodeEntries (count : Nat) {room : Nat} (block : Block) :
    (decodeEntries count block).Guarded reach room fun _ _ => True := by
  induction count generalizing room block with
  | zero => exact guarded_pure _ trivial
  | succ count ih =>
    apply guarded_decodeEntry.bind
    intro _ _ _
    exact ih _

theorem guarded_decode : decode.Guarded reach 0 fun _ _ => True := by
  apply guarded_readUint32.bind
  intro numEntries _ _
  exact guarded_decodeEntries numEntries empty

theorem consumes_decodeEntry : decodeEntry.Consumes 9 := by
  apply (consumes_readUint 4).bind
  intro keyLen
  apply (consumes_require keyLen _).bind
  intro _
  apply (consumes_take keyLen).bind
  intro _
  apply (consumes_readUint 4).bind
  intro valLen
  apply (consumes_require valLen _).bind
  intro _
  apply (consumes_take valLen).bind
  intro _
  apply (consumes_require 1 _).bind
  intro _
  apply (consumes_take 1).bind
  intro _
  exact (consumes_pure _).weaken (by omega)

theorem consumes_decodeEntries (count : Nat) (block : Block) : (decodeEntries count block).Consumes (9 * count) := by
  induction count generalizing block with
  | zero => exact consumes_pure block
  | succ count ih =>
    apply consumes_decodeEntry.bind
    intro entry
    exact (ih _).weaken (by omega)

end Block

namespace CheckpointManager

theorem consumes_readMeta : readMeta.Consumes 32 := by
  apply (consumes_readUint 4).bind
  intro _
  apply (consumes_readUint 8).bind
  intro _
  apply (consumes_readUint 8).bind
  intro _
  apply consumes_readString.bind
  intro _
  apply consumes_readString.bind
  intro _
  apply consumes_readString.bind
  intro _
  exact consumes_pure _

theorem consumes_readMetas (numFiles : Nat) (known : List SSTableMeta) :
    (readMetas numFiles known).Consumes (32 * numFiles) := by
  induction numFiles generalizing known with
  | zero => exact consumes_pure known
  | succ numFiles ih =>
    apply consumes_readMeta.bind
    intro file
    exact (ih _).weaken (by omega)

end CheckpointManager

/-- A `std::vector<uint8_t>`, which is never longer than its `max_size`. -/
structure Buffer where
  bytes : Bytes
  size_le : bytes.length ≤ 2 ^ 63 - 1

def Buffer.run {α : Type} (buffer : Buffer) (decoder : BufferDecoder α) : Run Status α :=
  decoder.run (2 ^ 64) buffer.bytes 0

theorem Buffer.inside {α : Type} (buffer : Buffer) {decoder : BufferDecoder α}
    (guarded : decoder.Guarded reach 0 fun _ _ => True) :
    (buffer.run decoder).Inside (2 ^ 64) buffer.bytes.length ∧
      (buffer.run decoder).result = (decoder.eval buffer.bytes 0).map Prod.fst := by
  have size := buffer.size_le
  exact guarded.inside (Nat.zero_le _) (by simp [reach]; omega)

theorem Block.count_refused {data : Bytes} {count offset : Nat}
    (declared : BinarySerializer.readUint32 data 0 = .ok (count, offset)) (short : data.length < offset + 9 * count) :
    ∃ e, deserialize data = .error e := by
  obtain ⟨e, refused⟩ := (consumes_decodeEntries count empty).refuses (guarded_decodeEntries count empty)
    (readUint_inside declared).2 short
  refine ⟨e, ?_⟩
  rw [deserialize, declared]
  exact (eval_decodeEntries data count offset empty).symm.trans (congrArg (Except.map Prod.fst) refused)

theorem CheckpointManager.count_refused {bytes : Bytes} {count offset : Nat}
    (declared : BinarySerializer.readUint32 bytes 8 = .ok (count, offset)) (short : bytes.length < offset + 32 * count) :
    ∃ e, loadBytes (some bytes) = .error e := by
  obtain ⟨next, inside⟩ := readUint_inside declared
  obtain ⟨e, refused⟩ := (consumes_readMetas count []).refuses (guarded_readMetas count []) inside short
  obtain ⟨lsn, lsnRead⟩ : ∃ lsn, BinarySerializer.readUint 8 bytes 0 = .ok (lsn, 8) := by
    rw [BinarySerializer.readUint, if_neg (by omega)]
    exact ⟨_, rfl⟩
  rw [BinarySerializer.readUint32] at declared
  refine ⟨e, ?_⟩
  simp only [loadBytes, parseCheckpoint, readUint64, readUint32, eval_bind, eval_readUint]
  simp only [lsnRead, declared, refused, bind, Except.bind, Except.map]

/-- No decoder leaves its buffer, and lengths and counts that ask for more than is left are errors. A
block entry takes at least 9 bytes and a catalogue entry at least 32. -/
theorem decoders_stay_inside (buffer : Buffer) :
    ((buffer.run WAL.decodeEntry).Inside (2 ^ 64) buffer.bytes.length ∧
      (buffer.run WAL.decodeEntry).result = deserializeEntry buffer.bytes) ∧
    ((buffer.run Block.decode).Inside (2 ^ 64) buffer.bytes.length ∧
      (buffer.run Block.decode).result = Block.deserialize buffer.bytes ∧
      ∀ count offset, BinarySerializer.readUint32 buffer.bytes 0 = .ok (count, offset) →
        buffer.bytes.length < offset + 9 * count → ∃ e, (buffer.run Block.decode).result = .error e) ∧
    ((buffer.run CheckpointManager.parseCheckpoint).Inside (2 ^ 64) buffer.bytes.length ∧
      (buffer.run CheckpointManager.parseCheckpoint).result = CheckpointManager.loadBytes (some buffer.bytes) ∧
      ∀ count offset, BinarySerializer.readUint32 buffer.bytes 8 = .ok (count, offset) →
        buffer.bytes.length < offset + 32 * count →
          ∃ e, (buffer.run CheckpointManager.parseCheckpoint).result = .error e) := by
  obtain ⟨entryInside, entryResult⟩ := buffer.inside WAL.guarded_decodeEntry
  obtain ⟨blockInside, blockResult⟩ := buffer.inside Block.guarded_decode
  obtain ⟨checkpointInside, checkpointResult⟩ := buffer.inside CheckpointManager.guarded_parseCheckpoint
  rw [WAL.eval_decodeEntry] at entryResult
  rw [Block.eval_decode] at blockResult
  refine ⟨⟨entryInside, entryResult⟩, ⟨blockInside, blockResult, ?_⟩, checkpointInside, checkpointResult, ?_⟩
  · intro count offset declared short
    rw [blockResult]
    exact Block.count_refused declared short
  · intro count offset declared short
    rw [checkpointResult]
    exact CheckpointManager.count_refused declared short

end VectorDb.Storage
