import VectorDb.Wal.Log

namespace VectorDb.Storage
open Lib Common

namespace OutputStream

def FlushPasses (device : Device) (stream : OutputStream) (file : Bytes) : Prop :=
  (device.flush file stream.pending).ok = true ∨
    stream.pending.length ≤ (device.flush file stream.pending).passed

variable (device : Device) (stream : OutputStream) (file : Bytes)

theorem write_total {stream : OutputStream} (good : stream.good = true) (bytes : Bytes) :
    (stream.write device file bytes).2 ++ (stream.write device file bytes).1.pending =
      file ++ (stream.pending ++ bytes) := by
  simp [write, good]

theorem flush_total : (stream.flush device file).2 ++ (stream.flush device file).1.pending = file ++ stream.pending := by
  unfold flush
  split
  · dsimp only
    split <;> simp
  · rfl

theorem flush_clean (good : (stream.flush device file).1.good = true) : (stream.flush device file).1.pending = [] := by
  unfold flush at *
  split at good
  · dsimp only at good ⊢
    split at good
    · simp_all
    · simp at good
  · contradiction

theorem flush_pending_eq_nil {stream : OutputStream} (good : stream.good = true) :
    (stream.flush device file).1.pending = [] ↔ stream.FlushPasses device file := by
  simp only [flush, good, if_true, FlushPasses]
  split
  · simp_all
  · simp_all

end OutputStream

namespace WAL

def appendAll (wal : WAL) (file : Bytes) (calls : List (Device × WALEntry)) : WAL × Bytes :=
  calls.foldl (fun state call => (state.1.append call.1 state.2 call.2).2) (wal, file)

def sync (device : Device) (wal : WAL) (file : Bytes) : ErrorOr Unit × WAL × Bytes :=
  let (stream, file) := wal.writeFile.flush device file
  if ¬ stream.good then (.error (ioError "WAL sync failed"), { wal with writeFile := stream }, file)
  else (.ok (), { wal with writeFile := stream }, file)

def nextRecord (wal : WAL) (entry : WALEntry) : Bytes :=
  serializeEntry { entry with sequenceNumber := wal.nextSequenceNumber }

def written (device : Device) (wal : WAL) (file : Bytes) (entry : WALEntry) : OutputStream × Bytes :=
  wal.writeFile.write device file (wal.nextRecord entry)

def Settled (wal : WAL) : Prop := wal.writeFile.good = true → wal.writeFile.pending = []

def AckedIsWritten (device : Device) (wal : WAL) (file : Bytes) (entry : WALEntry) : Prop :=
  ∀ lsn, (wal.append device file entry).1 = .ok lsn →
    (wal.append device file entry).2.2 = file ++ serializeEntry { entry with sequenceNumber := lsn }

def AckedIsFlushed (device : Device) (wal : WAL) (file : Bytes) (entry : WALEntry) : Prop :=
  ∀ lsn, (wal.append device file entry).1 = .ok lsn →
    (wal.written device file entry).1.FlushPasses device (wal.written device file entry).2

variable {device : Device} {wal : WAL} {file : Bytes} {entry : WALEntry}

theorem append_eq : wal.append device file entry =
    if ¬ (wal.written device file entry).1.good then
      (.error (ioError "WAL write failed"),
        ⟨(wal.written device file entry).1, (wal.nextSequenceNumber + 1) % 2 ^ 64⟩, (wal.written device file entry).2)
    else
      (.ok wal.nextSequenceNumber,
        ⟨((wal.written device file entry).1.flush device (wal.written device file entry).2).1,
          (wal.nextSequenceNumber + 1) % 2 ^ 64⟩,
        ((wal.written device file entry).1.flush device (wal.written device file entry).2).2) := rfl

theorem append_settled : (wal.append device file entry).2.1.Settled := by
  rw [append_eq]
  split
  next bad =>
    intro good
    exact absurd good bad
  next =>
    exact OutputStream.flush_clean device _ _

theorem appendAll_settled (settled : wal.Settled) (calls : List (Device × WALEntry)) :
    (wal.appendAll file calls).1.Settled := by
  induction calls using List.reverseRecOn with
  | nil => exact settled
  | append_singleton calls call _ =>
    rw [appendAll, List.foldl_append]
    exact append_settled

theorem append_acked {lsn : Nat} (acked : (wal.append device file entry).1 = .ok lsn) :
    wal.writeFile.good = true ∧ lsn = wal.nextSequenceNumber ∧ (wal.written device file entry).1.good = true ∧
      (wal.append device file entry).2 =
        (⟨((wal.written device file entry).1.flush device (wal.written device file entry).2).1,
          (wal.nextSequenceNumber + 1) % 2 ^ 64⟩,
          ((wal.written device file entry).1.flush device (wal.written device file entry).2).2) := by
  rw [append_eq] at acked ⊢
  split at acked
  next => cases acked
  next good =>
    rw [not_not] at good
    cases acked
    refine ⟨?_, rfl, good, by rw [if_neg (not_not_intro good)]⟩
    by_contra bad
    rw [Bool.not_eq_true] at bad
    simp [written, OutputStream.write, bad] at good

theorem append_total {lsn : Nat} (settled : wal.Settled) (acked : (wal.append device file entry).1 = .ok lsn) :
    (wal.append device file entry).2.2 ++ (wal.append device file entry).2.1.writeFile.pending =
      file ++ serializeEntry { entry with sequenceNumber := lsn } := by
  obtain ⟨good, rfl, -, after⟩ := append_acked acked
  rw [after]
  dsimp only
  rw [OutputStream.flush_total, written, OutputStream.write_total device file good, settled good]
  rfl

theorem append_written_iff {lsn : Nat} (settled : wal.Settled) (acked : (wal.append device file entry).1 = .ok lsn) :
    (wal.append device file entry).2.2 = file ++ serializeEntry { entry with sequenceNumber := lsn } ↔
      (wal.append device file entry).2.1.writeFile.pending = [] := by
  rw [← append_total settled acked, List.self_eq_append_right]

/-- `Append` does not look at the stream after its flush, so an acknowledged record is in the file exactly
if that flush takes it there. -/
theorem acked_written_iff (start : Option Bytes) (calls : List (Device × WALEntry)) (device : Device)
    (entry : WALEntry) :
    AckedIsWritten device ((WAL.open start).appendAll (start.getD []) calls).1
        ((WAL.open start).appendAll (start.getD []) calls).2 entry ↔
      AckedIsFlushed device ((WAL.open start).appendAll (start.getD []) calls).1
        ((WAL.open start).appendAll (start.getD []) calls).2 entry := by
  have settled : ((WAL.open start).appendAll (start.getD []) calls).1.Settled := appendAll_settled (fun _ => rfl) calls
  apply forall_congr'
  intro lsn
  apply imp_congr_right
  intro acked
  obtain ⟨-, -, good, after⟩ := append_acked acked
  rw [append_written_iff settled acked, after]
  exact OutputStream.flush_pending_eq_nil device _ good

theorem synced_written {lsn : Nat} {device' : Device} (settled : wal.Settled)
    (acked : (wal.append device file entry).1 = .ok lsn)
    (synced : ((wal.append device file entry).2.1.sync device' (wal.append device file entry).2.2).1 = .ok ()) :
    (wal.append device file entry).2.2 = file ++ serializeEntry { entry with sequenceNumber := lsn } := by
  apply (append_written_iff settled acked).mpr
  apply append_settled
  by_contra bad
  rw [Bool.not_eq_true] at bad
  simp [sync, OutputStream.flush, bad] at synced

def full : Device where
  write _ _ := ⟨0, true⟩
  flush _ _ := ⟨0, false⟩

theorem full_disk_acknowledges :
    ¬ ∀ (start : Option Bytes) (calls : List (Device × WALEntry)) (device : Device) (entry : WALEntry),
      AckedIsWritten device ((WAL.open start).appendAll (start.getD []) calls).1
        ((WAL.open start).appendAll (start.getD []) calls).2 entry := by
  intro written
  have inFile := written none [] full ⟨0, .kDelete, [97], []⟩ 1 rfl
  exact absurd (congrArg List.length inFile) (by decide +kernel)

end WAL

end VectorDb.Storage
