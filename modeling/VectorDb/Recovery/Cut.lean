import VectorDb.Recovery.RecoverMemTable

namespace VectorDb.Storage.RecoveryManager
open Lib Common

def logEntries (log : Option Bytes) : List WALEntry := log.elim [] WAL.readAll

def flushedBetween (after upTo : Nat) (entries : List WALEntry) : List Mutation :=
  (entries.filter fun entry => after < entry.sequenceNumber ∧ entry.sequenceNumber ≤ upTo).map WALEntry.mutation

theorem replayed_split {entries : List WALEntry} {after upTo : Nat} (ordered : after ≤ upTo)
    (increasing : Ascending WALEntry.sequenceNumber entries) :
    replayed after entries = flushedBetween after upTo entries ++ replayed upTo entries := by
  have behind := increasing.filter fun entry => after < entry.sequenceNumber
  have split := filter_lt_append WALEntry.sequenceNumber behind (upTo + 1)
  rw [List.filter_filter, List.filter_filter] at split
  rw [replayed, flushedBetween, replayed, ← List.map_append, ← split]
  congr 2
  · apply List.filter_congr
    intro entry _
    simp [and_comm]
  · apply List.filter_congr
    intro entry _
    simp
    omega

variable (pf : Platform)

theorem recoverMemTable_eq (log : Option Bytes) (m : MemTable) (lastFlushedLsn : Nat)
    (known : ∀ entry ∈ logEntries log, entry.IsMutation) :
    recoverMemTable pf log m lastFlushedLsn = .ok (m.applyAll pf (replayed lastFlushedLsn (logEntries log)),
      (replayed lastFlushedLsn (logEntries log)).length) := by
  cases log with
  | none => rfl
  | some file =>
    rw [recoverMemTable]
    change (logEntries (some file)).foldlM _ _ = _
    rw [foldlM_recoverEntry pf _ known, Nat.zero_add]

theorem recovery_composes_with_flushing (log : Option Bytes)
    (known : ∀ entry ∈ logEntries log, entry.IsMutation)
    (increasing : Ascending WALEntry.sequenceNumber (logEntries log))
    (lastFlushedLsn : Nat) :
    ∃ all fresh again count applied,
      recoverMemTable pf log (MemTable.new pf) 0 = .ok (all, count) ∧
      recoverMemTable pf log (MemTable.new pf) lastFlushedLsn = .ok (fresh, applied) ∧
      applied = (logEntries log).countP (fun entry => lastFlushedLsn < entry.sequenceNumber) ∧
      recoverMemTable pf log fresh lastFlushedLsn = .ok (again, applied) ∧ again.entries = fresh.entries ∧
      ∀ key, (fresh.table.get key).or
        (((MemTable.new pf).applyAll pf (flushedBetween 0 lastFlushedLsn (logEntries log))).table.get key) =
          all.table.get key := by
  refine ⟨_, _, _, _, _, recoverMemTable_eq pf log _ 0 known, recoverMemTable_eq pf log _ lastFlushedLsn known, ?_,
    recoverMemTable_eq pf log _ lastFlushedLsn known, MemTable.applyAll_twice pf _, ?_⟩
  · rw [replayed, List.length_map, List.countP_eq_length_filter]
  · intro key
    rw [replayed_split (Nat.zero_le lastFlushedLsn) increasing, MemTable.table_get_append]

def overwrittenLog : Bytes := serializeEntry ⟨1, .kPut, [97], [98]⟩ ++ serializeEntry ⟨2, .kDelete, [97], []⟩

theorem logEntries_overwrittenLog :
    logEntries (some overwrittenLog) = [⟨1, .kPut, [97], [98]⟩, ⟨2, .kDelete, [97], []⟩] := by decide +kernel

theorem recovery_composes_with_flushing_overwritten :
    ∃ all fresh, recoverMemTable .reference (some overwrittenLog) (MemTable.new .reference) 0 = .ok (all, 2) ∧
      recoverMemTable .reference (some overwrittenLog) (MemTable.new .reference) 1 = .ok (fresh, 1) ∧
      ∀ key, (fresh.table.get key).or (((MemTable.new .reference).applyAll .reference
        (flushedBetween 0 1 (logEntries (some overwrittenLog)))).table.get key) = all.table.get key := by
  have known : ∀ entry ∈ logEntries (some overwrittenLog), entry.IsMutation := by
    rw [logEntries_overwrittenLog]
    simp [WALEntry.IsMutation]
  have increasing : Ascending WALEntry.sequenceNumber (logEntries (some overwrittenLog)) := by
    rw [logEntries_overwrittenLog]
    decide
  obtain ⟨all, fresh, _, count, applied, fromZero, fromOne, appliedEq, -, -, lookups⟩ :=
    recovery_composes_with_flushing .reference _ known increasing 1
  obtain ⟨_, _, _, _, _, -, fromZero', countEq, -⟩ := recovery_composes_with_flushing .reference _ known increasing 0
  rw [fromZero] at fromZero'
  cases fromZero'
  rw [logEntries_overwrittenLog] at appliedEq countEq
  subst appliedEq countEq
  exact ⟨all, fresh, fromZero, fromOne, lookups⟩

/-- A log whose only entry has sequence number 0, which `Append` never gives. -/
def zeroLog : Bytes := serializeEntry ⟨0, .kPut, [97], [98]⟩

theorem logEntries_zeroLog : logEntries (some zeroLog) = [⟨0, .kPut, [97], [98]⟩] := by decide +kernel

theorem recovery_skips_zero :
    (∀ entry ∈ logEntries (some zeroLog), entry.IsMutation) ∧
      Ascending WALEntry.sequenceNumber (logEntries (some zeroLog)) ∧
      ∃ all, recoverMemTable .reference (some zeroLog) (MemTable.new .reference) 0 = .ok (all, 0) ∧
        (all.table.get [97]).or (((MemTable.new .reference).applyAll .reference
          (((logEntries (some zeroLog)).filter fun entry => entry.sequenceNumber ≤ 0).map
            WALEntry.mutation)).table.get [97]) ≠ all.table.get [97] := by
  have known : ∀ entry ∈ logEntries (some zeroLog), entry.IsMutation := by
    rw [logEntries_zeroLog]
    simp [WALEntry.IsMutation]
  refine ⟨known, by simp [logEntries_zeroLog, Ascending], _, recoverMemTable_eq _ _ _ 0 known, ?_⟩
  simp only [MemTable.table_get, MemTable.find_applyAll_new, logEntries_zeroLog]
  decide

end VectorDb.Storage.RecoveryManager
