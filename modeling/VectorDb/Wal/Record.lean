import VectorDb.Common.BinarySerializer
import VectorDb.MemTable.Mutation

namespace VectorDb.Storage
open Lib Common BinarySerializer

/-- The type byte of a record. `DeserializeEntry` casts any byte, so unknown ones are values too. -/
inductive WALEntryType where
  | kPut
  | kDelete
  | unknown (byte : Byte)
deriving DecidableEq, Repr

namespace WALEntryType

def toByte : WALEntryType → Byte
  | kPut => 1
  | kDelete => 2
  | unknown byte => byte

def ofByte (byte : Byte) : WALEntryType :=
  if byte = 1 then kPut else if byte = 2 then kDelete else unknown byte

end WALEntryType

structure WALEntry where
  sequenceNumber : Nat
  type : WALEntryType
  key : Bytes
  value : Bytes
deriving DecidableEq, Repr

def kWALHeaderSize : Nat := 8

def crc32TableStep (crc : BitVec 32) : BitVec 32 :=
  (crc >>> 1) ^^^ (if crc &&& 1 = 1 then 0xEDB88320 else 0)

def crc32Table (i : BitVec 32) : BitVec 32 := crc32TableStep^[8] i

def crc32Update (crc : BitVec 32) (b : Byte) : BitVec 32 :=
  (crc >>> 8) ^^^ crc32Table ((crc ^^^ BitVec.ofNat 32 b.val) &&& 0xFF)

def computeCRC32 (data : Bytes) : BitVec 32 := data.foldl crc32Update 0xFFFFFFFF ^^^ 0xFFFFFFFF

def serializePayload (entry : WALEntry) : Bytes :=
  let payload := [entry.type.toByte]
  let payload := writeUint64 payload entry.sequenceNumber
  let payload := writeUint32 payload entry.key.length ++ entry.key
  if entry.type = .kPut then writeUint32 payload entry.value.length ++ entry.value else payload

def serializeEntry (entry : WALEntry) : Bytes :=
  let payload := serializePayload entry
  let record := writeUint32 [] payload.length
  let record := writeUint32 record (computeCRC32 payload).toNat
  record ++ payload

def deserializeEntry (payload : Bytes) : ErrorOr WALEntry := do
  if payload.length < 13 then throw (corruption "WAL payload too small")
  let type := WALEntryType.ofByte (payload.getD 0 0)
  let (sequenceNumber, offset) ← readUint64 payload 1
  let (keyLen, offset) ← readUint32 payload offset
  if offset + keyLen > payload.length then throw (corruption "WAL key extends past payload")
  let key := (payload.drop offset).take keyLen
  let offset := offset + keyLen
  if type = .kPut then
    let (valLen, offset) ← readUint32 payload offset
    if offset + valLen > payload.length then throw (corruption "WAL value extends past payload")
    return ⟨sequenceNumber, type, key, (payload.drop offset).take valLen⟩
  else
    return ⟨sequenceNumber, type, key, []⟩

def Mutation.entry (m : Mutation) (sequenceNumber : Nat) : WALEntry :=
  match m with
  | put key value => ⟨sequenceNumber, .kPut, key, value⟩
  | delete key => ⟨sequenceNumber, .kDelete, key, []⟩

def WALEntry.mutation (entry : WALEntry) : Mutation :=
  if entry.type = .kPut then .put entry.key entry.value else .delete entry.key

def WALEntry.IsMutation (entry : WALEntry) : Prop := entry.type = .kPut ∨ entry.type = .kDelete

def Mutation.payloadSize : Mutation → Nat
  | put key value => 1 + 8 + 4 + key.length + (4 + value.length)
  | delete key => 1 + 8 + 4 + key.length

theorem Mutation.mutation_entry (m : Mutation) (lsn : Nat) : (m.entry lsn).mutation = m := by cases m <;> rfl

theorem Mutation.isMutation_entry (m : Mutation) (lsn : Nat) : (m.entry lsn).IsMutation := by
  cases m
  · exact .inl rfl
  · exact .inr rfl

theorem Mutation.sequenceNumber_entry (m : Mutation) (lsn : Nat) : (m.entry lsn).sequenceNumber = lsn := by
  cases m <;> rfl

theorem serializePayload_length (m : Mutation) (lsn : Nat) :
    (serializePayload (m.entry lsn)).length = m.payloadSize := by
  cases m <;> simp [serializePayload, Mutation.entry, Mutation.payloadSize, writeUint32, writeUint64] <;> omega

theorem serializeEntry_length (m : Mutation) (lsn : Nat) :
    (serializeEntry (m.entry lsn)).length = kWALHeaderSize + m.payloadSize := by
  simp [serializeEntry, writeUint32, serializePayload_length, kWALHeaderSize, ← Nat.add_assoc]

private theorem deserializeEntry_put {payload key value : Bytes} {lsn : Nat} (lsnFits : lsn < 2 ^ 64)
    (keyFits : key.length < 2 ^ 32) (valueFits : value.length < 2 ^ 32)
    (shape : payload = [1] ++ (littleEndian 8 lsn ++ (littleEndian 4 key.length ++
      (key ++ (littleEndian 4 value.length ++ (value ++ [])))))) :
    deserializeEntry payload = .ok ⟨lsn, .kPut, key, value⟩ := by
  have isPut : WALEntryType.ofByte (payload.getD 0 0) = .kPut := by simp [shape, WALEntryType.ofByte]
  have start : BytesAt payload 1 _ := (BytesAt.start shape).skip
  obtain ⟨lsnRead, atKeyLen⟩ := start.readUint64_eq lsnFits
  obtain ⟨keyRead, atKey⟩ := atKeyLen.readUint32_eq keyFits
  obtain ⟨valueRead, atValue⟩ := atKey.skip.readUint32_eq valueFits
  have long : ¬ payload.length < 13 := by have := atKey.inside; omega
  have keyInside : ¬ payload.length < 13 + key.length := not_lt.mpr atKey.inside
  have valueInside : ¬ payload.length < 13 + key.length + 4 + value.length := not_lt.mpr atValue.inside
  rw [deserializeEntry, isPut]
  simp [lsnRead, keyRead, atKey.slice, valueRead, atValue.slice, long, keyInside, valueInside, bind, Except.bind,
    pure, Except.pure]

private theorem deserializeEntry_delete {payload key : Bytes} {lsn : Nat} (lsnFits : lsn < 2 ^ 64)
    (keyFits : key.length < 2 ^ 32)
    (shape : payload = [2] ++ (littleEndian 8 lsn ++ (littleEndian 4 key.length ++ (key ++ [])))) :
    deserializeEntry payload = .ok ⟨lsn, .kDelete, key, []⟩ := by
  have isDelete : WALEntryType.ofByte (payload.getD 0 0) = .kDelete := by simp [shape, WALEntryType.ofByte]
  have start : BytesAt payload 1 _ := (BytesAt.start shape).skip
  obtain ⟨lsnRead, atKeyLen⟩ := start.readUint64_eq lsnFits
  obtain ⟨keyRead, atKey⟩ := atKeyLen.readUint32_eq keyFits
  have long : ¬ payload.length < 13 := by have := atKey.inside; omega
  have keyInside : ¬ payload.length < 13 + key.length := not_lt.mpr atKey.inside
  rw [deserializeEntry, isDelete]
  simp [lsnRead, keyRead, atKey.slice, long, keyInside, bind, Except.bind, pure, Except.pure]

theorem deserialize_serialize (m : Mutation) (lsn : Nat) (lsnFits : lsn < 2 ^ 64)
    (fits : m.payloadSize < 2 ^ 32) :
    deserializeEntry (serializePayload (m.entry lsn)) = .ok (m.entry lsn) := by
  cases m with
  | put key value =>
    simp only [Mutation.payloadSize] at fits
    refine deserializeEntry_put lsnFits (by omega) (by omega) ?_
    simp [serializePayload, Mutation.entry, WALEntryType.toByte, writeUint32, writeUint64]
  | delete key =>
    simp only [Mutation.payloadSize] at fits
    refine deserializeEntry_delete lsnFits (by omega) ?_
    simp [serializePayload, Mutation.entry, WALEntryType.toByte, writeUint32, writeUint64]

end VectorDb.Storage
