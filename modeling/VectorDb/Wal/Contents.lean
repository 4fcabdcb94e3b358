import VectorDb.Wal.Log

namespace VectorDb.Storage
open Lib Common

structure LogRecord where
  mutation : Mutation
  lsn : Nat
deriving DecidableEq, Repr

namespace LogRecord

def entry (record : LogRecord) : WALEntry := record.mutation.entry record.lsn

def bytes (record : LogRecord) : Bytes := serializeEntry record.entry

structure Readable (limit : Option Nat) (record : LogRecord) : Prop where
  lsnFits : record.lsn < 2 ^ 64
  fits : record.mutation.payloadSize < 2 ^ 32
  within : ∀ bound ∈ limit, record.mutation.payloadSize ≤ bound

theorem bytes_length (record : LogRecord) :
    record.bytes.length = kWALHeaderSize + record.mutation.payloadSize := serializeEntry_length _ _

end LogRecord

theorem scan_records (limit : Option Nat) (records : List LogRecord) (tail : Bytes)
    (readable : ∀ record ∈ records, record.Readable limit) (stop : readRecord limit tail = none) :
    scan limit (records.flatMap LogRecord.bytes ++ tail) = records.map LogRecord.entry := by
  induction records with
  | nil => exact scan_stop stop
  | cons record records ih =>
    have fine := readable record (by simp)
    have read : readRecord limit (record.bytes ++ (records.flatMap LogRecord.bytes ++ tail)) =
        some (record.entry, record.bytes.length) := by
      rw [record.bytes_length]
      exact readRecord_serializeEntry limit _ _ _ fine.lsnFits fine.fits fine.within
    rw [List.flatMap_cons, List.append_assoc, scan_cons read, List.drop_left,
      ih fun other member => readable other (by simp [member]), List.map_cons]

def stamped (ms : List Mutation) : List LogRecord := (ms.zipIdx 1).map fun (m, lsn) => ⟨m, lsn⟩

def logBytes (ms : List Mutation) : Bytes := (stamped ms).flatMap LogRecord.bytes

theorem stamped_concat (ms : List Mutation) (m : Mutation) :
    stamped (ms ++ [m]) = stamped ms ++ [⟨m, ms.length + 1⟩] := by
  simp [stamped, List.zipIdx_append, Nat.add_comm]

theorem stamped_length (ms : List Mutation) : (stamped ms).length = ms.length := by simp [stamped]

theorem stamped_mutations (ms : List Mutation) : (stamped ms).map LogRecord.mutation = ms := by
  simp [stamped, Function.comp_def]

theorem stamped_lsns (ms : List Mutation) : (stamped ms).map LogRecord.lsn = List.range' 1 ms.length := by
  simp [stamped, Function.comp_def]

theorem stamped_sequenceNumbers (ms : List Mutation) :
    ((stamped ms).map LogRecord.entry).map WALEntry.sequenceNumber = List.range' 1 ms.length := by
  rw [← stamped_lsns, List.map_map]
  exact List.map_congr_left fun record _ => by cases record with | mk m lsn => cases m <;> rfl

theorem mem_stamped {ms : List Mutation} {record : LogRecord} (member : record ∈ stamped ms) :
    record.mutation ∈ ms ∧ 1 ≤ record.lsn ∧ record.lsn ≤ ms.length := by
  refine ⟨stamped_mutations ms ▸ List.mem_map_of_mem member, ?_⟩
  have inRange := stamped_lsns ms ▸ List.mem_map_of_mem (f := LogRecord.lsn) member
  simp [List.mem_range'_1] at inRange
  omega

theorem logBytes_concat (ms : List Mutation) (m : Mutation) :
    logBytes (ms ++ [m]) = logBytes ms ++ serializeEntry (m.entry (ms.length + 1)) := by
  simp [logBytes, stamped_concat, LogRecord.bytes, LogRecord.entry]

theorem logBytes_length (ms : List Mutation) :
    (logBytes ms).length = (ms.map fun m => kWALHeaderSize + m.payloadSize).sum := by
  induction ms using List.reverseRecOn with
  | nil => rfl
  | append_singleton ms m ih => simp [logBytes_concat, ih, serializeEntry_length]

theorem logBytes_length_le (ms newer : List Mutation) : (logBytes ms).length ≤ (logBytes (ms ++ newer)).length := by
  simp [logBytes_length]

theorem length_le_logBytes (ms : List Mutation) : ms.length ≤ (logBytes ms).length := by
  rw [logBytes_length]
  induction ms with
  | nil => simp
  | cons m ms ih =>
    simp [kWALHeaderSize] at ih ⊢
    omega

theorem length_lt_of_room {ms : List Mutation} (room : (logBytes ms).length ≤ maxFileSize) : ms.length < 2 ^ 63 := by
  have := (length_le_logBytes ms).trans room
  simp [maxFileSize] at this
  omega

def Torn (tail : Bytes) : Prop :=
  ∃ (m : Mutation) (lsn kept : Nat), m.payloadSize ≤ kMaxPayload ∧ kept < (serializeEntry (m.entry lsn)).length ∧
    tail = (serializeEntry (m.entry lsn)).take kept

theorem Torn.stops {tail : Bytes} (torn : Torn tail) (limit : Option Nat) : readRecord limit tail = none := by
  obtain ⟨m, lsn, kept, short, proper, rfl⟩ := torn
  exact readRecord_torn limit m lsn kept (by simp [kMaxPayload] at short; omega) proper

theorem torn_nil : Torn [] :=
  ⟨.delete [], 0, 0, by simp [Mutation.payloadSize, kMaxPayload], by simp [serializeEntry_length, kWALHeaderSize],
    rfl⟩

structure LogFile (ms : List Mutation) : Prop where
  short : ∀ m ∈ ms, m.payloadSize ≤ kMaxPayload
  room : (logBytes ms).length ≤ maxFileSize

namespace LogFile

theorem nil : LogFile [] := ⟨by simp, by simp [logBytes, stamped]⟩

theorem readable {ms : List Mutation} (log : LogFile ms) (limit : Option Nat)
    (loose : ∀ bound ∈ limit, kMaxPayload ≤ bound) : ∀ record ∈ stamped ms, record.Readable limit := by
  intro record member
  obtain ⟨inLog, -, last⟩ := mem_stamped member
  have short := log.short _ inLog
  have few := length_lt_of_room log.room
  refine ⟨?_, ?_, fun bound isBound => short.trans (loose bound isBound)⟩
  · omega
  · simp [kMaxPayload] at short
    omega

theorem readAll_eq {ms : List Mutation} (log : LogFile ms) {tail : Bytes} (torn : Torn tail) :
    WAL.readAll (logBytes ms ++ tail) = (stamped ms).map LogRecord.entry :=
  scan_records _ _ _ (log.readable _ (by simp)) (torn.stops _)

private theorem foldl_nextAfter (ms : List Mutation) (fits : ms.length < 2 ^ 63) :
    ((stamped ms).map LogRecord.entry).foldl WAL.nextAfter 1 = ms.length + 1 := by
  induction ms using List.reverseRecOn with
  | nil => rfl
  | append_singleton ms m ih =>
    have entryLsn : ∀ lsn, (m.entry lsn).sequenceNumber = lsn := by intro lsn; cases m <;> rfl
    rw [List.length_append, List.length_singleton] at fits ⊢
    rw [stamped_concat, List.map_append, List.foldl_append, ih (by omega)]
    simp [WAL.nextAfter, LogRecord.entry, entryLsn]
    omega

theorem open_next {ms : List Mutation} (log : LogFile ms) {tail : Bytes} (torn : Torn tail) :
    (WAL.open (some (logBytes ms ++ tail))).nextSequenceNumber = ms.length + 1 := by
  rw [← foldl_nextAfter ms (length_lt_of_room log.room)]
  simp only [WAL.open, Option.elim_some, logBytes]
  rw [scan_records _ _ _ (log.readable _ (by simp)) (torn.stops _)]

end LogFile

structure WAL.Holds (wal : WAL) (file : Bytes) (ms : List Mutation) : Prop where
  room : (logBytes ms).length ≤ maxFileSize
  contents : file = logBytes ms
  clean : wal.writeFile = ⟨true, []⟩
  next : wal.nextSequenceNumber = ms.length + 1

namespace WAL

theorem append_faultless (wal : WAL) (file : Bytes) (m : Mutation) (clean : wal.writeFile = ⟨true, []⟩) :
    let record := serializeEntry (m.entry wal.nextSequenceNumber)
    let next := (wal.nextSequenceNumber + 1) % 2 ^ 64
    append .faultless wal file (m.entry 0) =
      if file.length + record.length ≤ maxFileSize then
        (.ok wal.nextSequenceNumber, ⟨⟨true, []⟩, next⟩, file ++ record)
      else (.error (ioError "WAL write failed"), ⟨⟨false, record⟩, next⟩, file) := by
  intro record next
  have stamp : { m.entry 0 with sequenceNumber := wal.nextSequenceNumber } = m.entry wal.nextSequenceNumber := by
    cases m <;> rfl
  simp only [append, stamp, clean, OutputStream.write, Device.faultless, List.nil_append, if_true]
  by_cases room : file.length + record.length ≤ maxFileSize
  · simp [room, record, OutputStream.flush, next]
  · simp [room, record, next]

theorem append_bad (device : Device) (wal : WAL) (file : Bytes) (entry : WALEntry)
    (bad : wal.writeFile.good = false) :
    append device wal file entry = (.error (ioError "WAL write failed"),
      ⟨wal.writeFile, (wal.nextSequenceNumber + 1) % 2 ^ 64⟩, file) := by
  simp [append, OutputStream.write, bad]

theorem holds_open {ms : List Mutation} (log : LogFile ms) :
    (WAL.open (some (logBytes ms))).Holds (logBytes ms) ms :=
  ⟨log.room, rfl, rfl, by simpa using log.open_next torn_nil⟩

theorem holds_new : (WAL.open none).Holds [] [] := ⟨LogFile.nil.room, rfl, rfl, rfl⟩

namespace Holds

theorem log {wal : WAL} {file : Bytes} {ms : List Mutation} (holds : wal.Holds file ms)
    (short : ∀ m ∈ ms, m.payloadSize ≤ kMaxPayload) : LogFile ms := ⟨short, holds.room⟩

theorem currentSequenceNumber_eq {wal : WAL} {file : Bytes} {ms : List Mutation} (holds : wal.Holds file ms) :
    wal.currentSequenceNumber = ms.length := by
  have := length_lt_of_room holds.room
  rw [currentSequenceNumber, holds.next]
  omega

theorem append_ok {wal wal' : WAL} {file file' : Bytes} {ms : List Mutation} {m : Mutation} {lsn : Nat}
    (holds : wal.Holds file ms) (done : append .faultless wal file (m.entry 0) = (.ok lsn, wal', file')) :
    lsn = ms.length + 1 ∧ wal'.Holds file' (ms ++ [m]) := by
  have wrap : (ms.length + 1 + 1) % 2 ^ 64 = ms.length + 1 + 1 :=
    Nat.mod_eq_of_lt (by have := length_lt_of_room holds.room; omega)
  rw [append_faultless _ _ _ holds.clean, holds.next, holds.contents] at done
  split at done
  next room =>
    cases done
    refine ⟨rfl, ?_, (logBytes_concat ms m).symm, rfl, by simpa using wrap⟩
    rwa [logBytes_concat, List.length_append]
  next => cases done

theorem append_room {wal : WAL} {file : Bytes} {ms : List Mutation} {m : Mutation} (holds : wal.Holds file ms)
    (room : (logBytes (ms ++ [m])).length ≤ maxFileSize) :
    ∃ lsn wal' file', append .faultless wal file (m.entry 0) = (.ok lsn, wal', file') := by
  rw [logBytes_concat, List.length_append] at room
  rw [append_faultless _ _ _ holds.clean, holds.next, holds.contents]
  exact ⟨_, _, _, if_pos room⟩

end Holds

end WAL

end VectorDb.Storage
