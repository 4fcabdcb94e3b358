import VectorDb.Compaction.Catalogue
import VectorDb.Lib.Program

namespace VectorDb.Storage
open Lib Common

structure Checkpoint where
  lastFlushedLsn : Nat
  sstables : List SSTableMeta
deriving DecidableEq, Repr

inductive CheckpointFile where
  | complete (checkpoint : Checkpoint)
  | torn
deriving DecidableEq, Repr

/-- The file at `checkpoint_path_` and the one at `temp_path_`. -/
structure CheckpointFiles where
  installed : Option CheckpointFile
  temp : Option CheckpointFile

namespace CheckpointManager

variable (io : Faults)

def tempPath (dataDir : Path) : Path := dataDir ++ text "/MANIFEST.checkpoint.tmp"

def writeTemp (dataDir : Path) (checkpoint : Checkpoint) : Action Status CheckpointFiles Unit := do
  if io.openTemp then
    throw ⟨.kStorageIoError, text "Failed to open temp checkpoint file for writing: " ++ tempPath dataDir⟩
  if io.writeTemp then
    modify fun files => { files with temp := some .torn }
    throw ⟨.kStorageIoError, text "Failed to write to temp checkpoint file: " ++ tempPath dataDir⟩
  modify fun files => { files with temp := some (.complete checkpoint) }

def renameTemp : Action Status CheckpointFiles Unit := do
  if io.rename then throw (ioError "Failed to atomically rename checkpoint file")
  modify fun files => ⟨files.temp, none⟩

def loadCheckpoint (files : CheckpointFiles) : ErrorOr Checkpoint :=
  match files.installed with
  | none => .ok ⟨0, []⟩
  | some (.complete checkpoint) => .ok checkpoint
  | some .torn => .error BinarySerializer.overflow

end CheckpointManager

end VectorDb.Storage
