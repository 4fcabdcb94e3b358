import VectorDb.Wal.Contents
import VectorDb.MemTable.MemTable

namespace VectorDb.Storage
open Lib Common

namespace RecoveryManager

variable (pf : Platform)

/-- One pass of the replay loop over the MemTable and the number of entries applied. -/
def recoverEntry (lastFlushedLsn : Nat) (state : MemTable × Nat) (entry : WALEntry) : ErrorOr (MemTable × Nat) :=
  if entry.sequenceNumber ≤ lastFlushedLsn then .ok state
  else
    match entry.type with
    | .kPut => .ok (state.1.put pf entry.key entry.value, state.2 + 1)
    | .kDelete => .ok (state.1.delete pf entry.key, state.2 + 1)
    | .unknown _ => .error (corruption "Unknown WAL entry type during recovery")

def recoverMemTable (log : Option Bytes) (memtable : MemTable) (lastFlushedLsn : Nat) : ErrorOr (MemTable × Nat) :=
  match log with
  | none => .ok (memtable, 0)
  | some file => (WAL.readAll file).foldlM (recoverEntry pf lastFlushedLsn) (memtable, 0)

def replayed (lastFlushedLsn : Nat) (entries : List WALEntry) : List Mutation :=
  (entries.filter fun entry => lastFlushedLsn < entry.sequenceNumber).map WALEntry.mutation

theorem recoverEntry_mutation (lastFlushedLsn : Nat) (m : MemTable) (count : Nat) {entry : WALEntry}
    (known : entry.IsMutation) :
    recoverEntry pf lastFlushedLsn (m, count) entry = .ok (if lastFlushedLsn < entry.sequenceNumber then
      (m.apply pf entry.mutation, count + 1) else (m, count)) := by
  obtain ⟨lsn, type, key, value⟩ := entry
  rcases known with rfl | rfl <;>
    by_cases unflushed : lastFlushedLsn < lsn <;>
      simp [recoverEntry, WALEntry.mutation, MemTable.apply, unflushed]

theorem foldlM_recoverEntry (lastFlushedLsn : Nat) {entries : List WALEntry}
    (known : ∀ entry ∈ entries, entry.IsMutation) (m : MemTable) (count : Nat) :
    entries.foldlM (recoverEntry pf lastFlushedLsn) (m, count) =
      .ok (m.applyAll pf (replayed lastFlushedLsn entries), count + (replayed lastFlushedLsn entries).length) := by
  induction entries generalizing m count with
  | nil => rfl
  | cons entry entries ih =>
    have rest := ih fun other member => known other (by simp [member])
    rw [List.foldlM_cons, recoverEntry_mutation pf _ _ _ (known entry (by simp))]
    by_cases unflushed : lastFlushedLsn < entry.sequenceNumber
    · simp only [bind, Except.bind, replayed, unflushed, if_true, rest, decide_true, List.filter_cons_of_pos,
        List.map_cons, List.length_cons, MemTable.applyAll, List.foldl_cons]
      rw [Nat.add_assoc, Nat.add_comm 1]
    · simp [bind, Except.bind, replayed, unflushed, rest]

def unflushed (lastFlushedLsn : Nat) (records : List LogRecord) : List Mutation :=
  (records.filter fun record => lastFlushedLsn < record.lsn).map LogRecord.mutation

theorem unflushed_cons (n : Nat) (record : LogRecord) (records : List LogRecord) : unflushed n (record :: records) =
    if record.lsn ≤ n then unflushed n records else record.mutation :: unflushed n records := by
  by_cases flushed : record.lsn ≤ n
  · simp [unflushed, flushed, not_lt.mpr flushed]
  · simp [unflushed, flushed, not_le.mp flushed]

theorem replayed_records (lastFlushedLsn : Nat) (records : List LogRecord) :
    replayed lastFlushedLsn (records.map LogRecord.entry) = unflushed lastFlushedLsn records := by
  simp [replayed, unflushed, List.filter_map, Function.comp_def, LogRecord.entry, Mutation.sequenceNumber_entry,
    Mutation.mutation_entry]

theorem foldlM_records (lastFlushedLsn : Nat) (records : List LogRecord) (m : MemTable) (count : Nat) :
    (records.map LogRecord.entry).foldlM (recoverEntry pf lastFlushedLsn) (m, count) =
      .ok (m.applyAll pf (unflushed lastFlushedLsn records), count + (unflushed lastFlushedLsn records).length) := by
  rw [foldlM_recoverEntry, replayed_records]
  intro entry member
  obtain ⟨record, -, rfl⟩ := List.mem_map.mp member
  exact Mutation.isMutation_entry _ _

theorem unflushed_stamped (n : Nat) (ms : List Mutation) : unflushed n (stamped ms) = ms.drop n := by
  have numbered : ∀ start, unflushed n ((ms.zipIdx start).map fun pair => ⟨pair.1, pair.2⟩) =
      ms.drop (n + 1 - start) := by
    induction ms with
    | nil => simp [unflushed]
    | cons m ms ih =>
      intro start
      rw [List.zipIdx_cons, List.map_cons, unflushed_cons, ih]
      split_ifs with flushed
      · rw [show n + 1 - start = n + 1 - (start + 1) + 1 by dsimp only at flushed; omega, List.drop_succ_cons]
      · rw [show n + 1 - start = 0 by dsimp only at flushed; omega,
          show n + 1 - (start + 1) = 0 by dsimp only at flushed; omega]
        rfl
  exact numbered 1

theorem recoverMemTable_log {ms : List Mutation} (log : LogFile ms) {tail : Bytes} (torn : Torn tail) (n : Nat) :
    recoverMemTable pf (some (logBytes ms ++ tail)) (MemTable.new pf) n =
      .ok ((MemTable.new pf).applyAll pf (ms.drop n), (ms.drop n).length) := by
  rw [recoverMemTable, log.readAll_eq torn, foldlM_records, unflushed_stamped, Nat.zero_add]

end RecoveryManager

end VectorDb.Storage
