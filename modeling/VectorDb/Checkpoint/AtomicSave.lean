import VectorDb.Checkpoint.Format
import VectorDb.Lib.Trace

namespace VectorDb.Storage.CheckpointManager
open Lib Common

/-- The files at `checkpoint_path_` and `temp_path_`, by their bytes. A crash is one of the process: what was
written before it stays. -/
structure Manifest where
  installed : Option Bytes
  temp : Option Bytes
deriving DecidableEq, Repr

def Manifest.empty : Manifest := ⟨none, none⟩

/-- What goes wrong in one call. A failed write or flush leaves some of the bytes in the file. -/
structure SaveFaults where
  openTemp : Bool
  writeTemp : Option Nat
  rename : Bool

def SaveFaults.none : SaveFaults := ⟨false, .none, false⟩

section Save
variable (faults : SaveFaults) (dataDir : Path)

def openTempBytes : Action Status Manifest Unit := do
  if faults.openTemp then
    throw ⟨.kStorageIoError, text "Failed to open temp checkpoint file for writing: " ++ tempPath dataDir⟩
  -- `std::ios::trunc` empties the file that is there
  modify fun manifest => { manifest with temp := some [] }

def writeTempBytes (buffer : Bytes) : Action Status Manifest Unit :=
  match faults.writeTemp with
  | some kept => do
    modify fun manifest => { manifest with temp := some (buffer.take kept) }
    throw ⟨.kStorageIoError, text "Failed to write to temp checkpoint file: " ++ tempPath dataDir⟩
  | none => modify fun manifest => { manifest with temp := some buffer }

def renameTempBytes : Action Status Manifest Unit := do
  if faults.rename then throw (ioError "Failed to atomically rename checkpoint file")
  -- `std::rename` replaces the old file in one step
  modify fun manifest => ⟨manifest.temp, none⟩

def writeManifest (buffer : Bytes) : Program Status Manifest Unit := do
  Program.atomic (openTempBytes faults dataDir)
  -- a crash during the write leaves some of the bytes
  Program.tearing (fun manifest manifest' => ∃ kept, manifest' = { manifest with temp := some (buffer.take kept) })
    (writeTempBytes faults dataDir buffer)

def saveCheckpointBytes (checkpoint : Checkpoint) : Program Status Manifest Unit := do
  writeManifest faults dataDir (serializeCheckpoint checkpoint)
  Program.atomic (renameTempBytes faults)

end Save

inductive SaveEvent where
  | saved (checkpoint : Checkpoint)
  | failed (checkpoint : Checkpoint) (status : Status)
  | interrupted (checkpoint : Checkpoint)

namespace SaveEvent

def checkpoint : SaveEvent → Checkpoint
  | saved checkpoint => checkpoint
  | failed checkpoint _ => checkpoint
  | interrupted checkpoint => checkpoint

def Step (dataDir : Path) (before : Manifest) : SaveEvent → Manifest → Prop
  | saved checkpoint, after => ∃ faults, (saveCheckpointBytes faults dataDir checkpoint).run before = .ok () after
  | failed checkpoint status, after => ∃ faults,
      (saveCheckpointBytes faults dataDir checkpoint).run before = .error status after
  | interrupted checkpoint, after => ∃ faults, (saveCheckpointBytes faults dataDir checkpoint).Crash before after

end SaveEvent

/-- The checkpoint that counts after these calls: the last one saved, where a call that was cut off may have
saved its own or not. -/
inductive Counts : List SaveEvent → Checkpoint → Prop
  | none : Counts [] ⟨0, []⟩
  | saved {events : List SaveEvent} {checkpoint : Checkpoint} : Counts (events ++ [.saved checkpoint]) checkpoint
  | failed {events : List SaveEvent} {current checkpoint : Checkpoint} {status : Status} :
      Counts events current → Counts (events ++ [.failed checkpoint status]) current
  | before {events : List SaveEvent} {current checkpoint : Checkpoint} :
      Counts events current → Counts (events ++ [.interrupted checkpoint]) current
  | after {events : List SaveEvent} {checkpoint : Checkpoint} : Counts (events ++ [.interrupted checkpoint]) checkpoint

variable {faults : SaveFaults} {dataDir : Path} {checkpoint current : Checkpoint} {before after : Manifest}
  {events : List SaveEvent}

theorem writeManifest_keeps (faults : SaveFaults) (dataDir : Path) (buffer : Bytes) :
    Program.Keeps Manifest.installed (writeManifest faults dataDir buffer) := by
  refine .bind (.atomic fun manifest => ?_) fun _ => .tearing ?_ fun manifest => ?_
  · unfold openTempBytes
    cases faults.openTemp <;> rfl
  · rintro manifest _ ⟨kept, rfl⟩
    rfl
  · unfold writeTempBytes
    cases faults.writeTemp <;> rfl

theorem writeManifest_ok {buffer : Bytes} (ran : (writeManifest faults dataDir buffer).run before = .ok () after) :
    after = { before with temp := some buffer } := by
  obtain ⟨opens, writes, rename⟩ := faults
  cases opens with
  | true => cases ran
  | false =>
    cases writes with
    | some kept => cases ran
    | none =>
      cases ran
      rfl

theorem renameTempBytes_cases (before : Manifest) : renameTempBytes faults before =
    if faults.rename = true then .error (ioError "Failed to atomically rename checkpoint file") before
    else .ok () ⟨before.temp, none⟩ := by
  unfold renameTempBytes
  cases faults.rename <;> rfl

theorem save_ok (ran : (saveCheckpointBytes faults dataDir checkpoint).run before = .ok () after) :
    after.installed = some (serializeCheckpoint checkpoint) := by
  obtain ⟨⟨⟩, between, wrote, renamed⟩ := Action.bind_ok.mp (Program.run_bind _ _ ▸ ran)
  obtain rfl := writeManifest_ok wrote
  rw [Program.run_atomic, renameTempBytes_cases] at renamed
  split_ifs at renamed
  cases renamed
  rfl

theorem save_error {status : Status} (ran : (saveCheckpointBytes faults dataDir checkpoint).run before = .error status after) :
    after.installed = before.installed := by
  have kept := (writeManifest_keeps faults dataDir (serializeCheckpoint checkpoint)).final before
  rw [saveCheckpointBytes, Program.run_bind] at ran
  cases wrote : (writeManifest faults dataDir (serializeCheckpoint checkpoint)).run before with
  | error status' between =>
    rw [Action.bind_of_error wrote] at ran
    cases ran
    rwa [Action.final_of_error wrote] at kept
  | ok _ between =>
    rw [Action.bind_of_ok wrote, Program.run_atomic, renameTempBytes_cases] at ran
    split_ifs at ran
    cases ran
    rwa [Action.final_of_ok wrote] at kept

theorem save_crash (crash : (saveCheckpointBytes faults dataDir checkpoint).Crash before after) :
    after.installed = before.installed ∨ after.installed = some (serializeCheckpoint checkpoint) := by
  rcases Program.crash_bind crash with inside | ⟨⟨⟩, between, wrote, later⟩
  · exact .inl (writeManifest_keeps _ _ _ _ _ inside)
  · obtain rfl := writeManifest_ok wrote
    rcases Program.crash_atomic later with rfl | ⟨status, failed⟩ | ⟨⟨⟩, renamed⟩
    · exact .inl rfl
    · rw [renameTempBytes_cases] at failed
      split_ifs at failed
      cases failed
      exact .inl rfl
    · rw [renameTempBytes_cases] at renamed
      split_ifs at renamed
      cases renamed
      exact .inr rfl

/-- After any calls, failures at any point and crashes at any byte, `LoadCheckpoint` succeeds and returns the
checkpoint of the last call that got to its rename. -/
theorem load_counts (run : Trace (SaveEvent.Step dataDir) Manifest.empty events after)
    (fits : ∀ event ∈ events, CheckpointFits event.checkpoint) :
    ∃ current, Counts events current ∧ loadBytes after.installed = .ok current := by
  induction run with
  | nil => exact ⟨_, .none, rfl⟩
  | @snoc events before after event run step ih =>
    obtain ⟨current, counts, loads⟩ := ih fun other member => fits other (List.mem_append_left _ member)
    have here := fits event (by simp)
    cases event with
    | saved checkpoint =>
      obtain ⟨faults, ran⟩ := step
      exact ⟨checkpoint, .saved, by rw [save_ok ran]; exact loadBytes_serialize here⟩
    | failed checkpoint status =>
      obtain ⟨faults, ran⟩ := step
      exact ⟨current, .failed counts, by rw [save_error ran, loads]⟩
    | interrupted checkpoint =>
      obtain ⟨faults, crash⟩ := step
      rcases save_crash crash with old | new
      · exact ⟨current, .before counts, by rw [old, loads]⟩
      · exact ⟨checkpoint, .after, by rw [new]; exact loadBytes_serialize here⟩

theorem load_counts_cut_off :
    let events : List SaveEvent := [.saved ⟨1, []⟩, .interrupted ⟨2, []⟩]
    let after : Manifest := ⟨some (serializeCheckpoint ⟨1, []⟩), some ((serializeCheckpoint ⟨2, []⟩).take 3)⟩
    Trace (SaveEvent.Step []) Manifest.empty events after ∧
      ∃ current, Counts events current ∧ loadBytes after.installed = .ok current := by
  intro events after
  have fits : ∀ event ∈ events, CheckpointFits event.checkpoint := by
    intro event member
    rcases List.mem_pair.mp member with rfl | rfl <;> exact ⟨by decide, by decide, nofun⟩
  have second : SaveEvent.Step [] ⟨some (serializeCheckpoint ⟨1, []⟩), none⟩ (.interrupted ⟨2, []⟩) after :=
    ⟨.none, .after rfl (.during ⟨3, rfl⟩)⟩
  have run : Trace (SaveEvent.Step []) Manifest.empty events after := .cons ⟨.none, rfl⟩ (.cons second .nil)
  exact ⟨run, load_counts run fits⟩

/-! The layers above know a checkpoint file by what `LoadCheckpoint` reads from it. -/

def SaveFaults.seen (faults : SaveFaults) (io : Faults) : Faults :=
  { io with openTemp := faults.openTemp, writeTemp := faults.writeTemp.isSome, rename := faults.rename }

/-- The file at `temp_path_` may differ. No call reads it. -/
def Reflects (manifest : Manifest) (files : CheckpointFiles) : Prop :=
  Option.Rel Stored manifest.installed files.installed

theorem Reflects.loads {files : CheckpointFiles} (shows : Reflects before files) :
    loadCheckpoint files = .ok checkpoint ↔ loadBytes before.installed = .ok checkpoint := by
  obtain ⟨_, _⟩ := before
  obtain ⟨_, temp⟩ := files
  cases shows with
  | none => exact Iff.rfl
  | some stored => exact loadCheckpoint_stored stored temp checkpoint

theorem Reflects.save {files : CheckpointFiles} (shows : Reflects before files) (fits : CheckpointFits checkpoint) (io : Faults) :
    match (saveCheckpointBytes faults dataDir checkpoint).run before,
      (do writeTemp (faults.seen io) dataDir checkpoint; renameTemp (faults.seen io) : Action _ _ _) files with
    | .ok _ after, .ok _ files' => Reflects after files'
    | .error status after, .error status' files' => status = status' ∧ Reflects after files'
    | _, _ => False := by
  obtain ⟨opens, writes, renames⟩ := faults
  cases opens with
  | true => exact ⟨rfl, shows⟩
  | false =>
    cases writes with
    | some kept => exact ⟨rfl, shows⟩
    | none =>
      cases renames with
      | true => exact ⟨rfl, shows⟩
      | false => exact .some ⟨fits, rfl⟩

end VectorDb.Storage.CheckpointManager
