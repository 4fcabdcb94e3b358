import VectorDb.Checkpoint.Checkpoint
import VectorDb.Engine.TableLookup
import VectorDb.Recovery.RecoverMemTable

namespace VectorDb.Storage
open Lib Common CompactionManager

structure StorageConfig where
  dataDir : Path := text "/tmp/vectordb_data"
  walDir : Path := text "/tmp/vectordb_data/wal"
  sstDir : Path := text "/tmp/vectordb_data/sst"
  memtableSizeBytes : Nat := 64 * 1024 * 1024

/-- What survives a crash: the log file, the table files and the checkpoint files. -/
structure Disk where
  log : Option Bytes
  tables : Tables
  checkpoints : CheckpointFiles

def Disk.empty : Disk := ⟨none, fun _ => none, ⟨none, none⟩⟩

/-- The members of `StorageEngine` without its locks, its block cache and its thread. -/
structure StorageEngine where
  config : StorageConfig
  compactionManager : CompactionManager
  activeMemtable : MemTable
  immutableMemtable : Option MemTable
  wal : WAL
  nextSstSequence : Nat
  walWrites : Nat
  memtableFlushes : Nat

structure World where
  disk : Disk
  engine : StorageEngine

namespace World

def store (world : World) : Store := ⟨world.disk.tables, world.engine.compactionManager⟩

def withStore (store : Store) (world : World) : World :=
  ⟨{ world.disk with tables := store.tables }, { world.engine with compactionManager := store.manager }⟩

theorem store_withStore (store : Store) (world : World) : (withStore store world).store = store := rfl

theorem withStore_withStore (store store' : Store) (world : World) :
    withStore store (withStore store' world) = withStore store world := rfl

theorem withStore_store (world : World) : withStore world.store world = world := rfl

def checkpoints (world : World) : CheckpointFiles := world.disk.checkpoints

def withCheckpoints (checkpoints : CheckpointFiles) (world : World) : World :=
  ⟨{ world.disk with checkpoints }, world.engine⟩

end World

namespace StorageEngine

variable (pf : Platform) (io : Faults) (device : Device)

def onStore {α : Type} (x : Action Status Store α) : Action Status World α := Action.zoom World.store World.withStore x

def onCheckpoints {α : Type} (x : Action Status CheckpointFiles α) : Action Status World α :=
  Action.zoom World.checkpoints World.withCheckpoints x

/-- The step of `WriteEntry` under `wal_mutex_`. -/
def appendLog (m : Mutation) : Action Status World Unit := do
  let world ← get
  let (result, wal, file) := world.engine.wal.append device (world.disk.log.getD []) (m.entry 0)
  set (World.mk { world.disk with log := some file } { world.engine with wal })
  match result with
  | .error status => throw status
  | .ok _ => modify fun world => { world with engine := { world.engine with walWrites := world.engine.walWrites + 1 } }

/-- A crash inside `Append` leaves a proper part of the record. -/
def tornAppend (m : Mutation) (world world' : World) : Prop :=
  world.engine.wal.writeFile.good = true ∧
    ∃ kept < (serializeEntry (m.entry world.engine.wal.nextSequenceNumber)).length,
      world' = { world with disk := { world.disk with log := some (world.disk.log.getD [] ++
        (serializeEntry (m.entry world.engine.wal.nextSequenceNumber)).take kept) } }

/-- The step of `WriteEntry` under `memtable_mutex_`. The result is `needs_flush`. -/
def applyMutation (m : Mutation) : Action Status World Bool := do
  let world ← get
  let active := world.engine.activeMemtable.apply pf m
  set { world with engine := { world.engine with activeMemtable := active } }
  return decide (active.approximateMemoryUsage ≥ world.engine.config.memtableSizeBytes)

def swapMemTables : Action Status World (Option MemTable) := do
  let world ← get
  if world.engine.activeMemtable.isEmpty then return none
  set { world with engine := { world.engine with
    activeMemtable := MemTable.new pf
    immutableMemtable := none } }
  return some world.engine.activeMemtable

def captureLsn : Action Status World Nat := do return (← get).engine.wal.currentSequenceNumber

def drawSstSequence : Action Status World Nat := do
  let world ← get
  set { world with engine := { world.engine with nextSstSequence := world.engine.nextSstSequence + 1 } }
  return world.engine.nextSstSequence

def writeSst (path : Path) (m : MemTable) : Action Status World Unit :=
  onStore (Action.zoom Store.tables (fun tables store => { store with tables }) (writeTable io path m))

/-- A crash inside `SSTableWriter::Write` leaves part of the file. -/
def tornSst (path : Path) (world world' : World) : Prop :=
  ∃ bytes, world' = { world with disk := { world.disk with
    tables := Function.update world.disk.tables path (some (.torn bytes)) } }

/-- The catalogue entry of the file just flushed. Its range is read back and stays empty if that fails. -/
def flushedMeta (path : Path) (seq : Nat) (tables : Tables) : SSTableMeta where
  filepath := path
  level := 0
  smallestKey := match openTable io tables path with | .ok table => table.smallestKey | .error _ => []
  largestKey := match openTable io tables path with | .ok table => table.largestKey | .error _ => []
  fileSizeBytes := match tables path with | some file => file.size | none => 0
  sequenceNumber := seq

def saveCheckpoint (checkpoint : Checkpoint) : Program Status World Unit := do
  let world ← Program.atomic get
  Program.tearing (fun world world' => world' = world.withCheckpoints { world.checkpoints with temp := some .torn })
    (onCheckpoints (CheckpointManager.writeTemp io world.engine.config.dataDir checkpoint))
  Program.atomic (onCheckpoints (CheckpointManager.renameTemp io))

def finishFlush : Action Status World Unit := modify fun world => { world with engine := { world.engine with
  immutableMemtable := none
  memtableFlushes := world.engine.memtableFlushes + 1 } }

def flushMemTable : Program Status World Unit := do
  match ← Program.atomic (swapMemTables pf) with
  | none => return ()
  | some toFlush =>
    let flushLsn ← Program.atomic captureLsn
    let seq ← Program.atomic drawSstSequence
    let world ← Program.atomic get
    let path := flushPath world.engine.config.sstDir seq
    Program.tearing (tornSst path) (writeSst io path toFlush)
    Program.atomic (onStore do registerFile (flushedMeta io path seq (← get).tables))
    let world ← Program.atomic get
    saveCheckpoint io ⟨flushLsn, world.engine.compactionManager.files⟩
    Program.atomic finishFlush

def writeEntry (m : Mutation) : Program Status World Unit := do
  Program.tearing (tornAppend m) (appendLog device m)
  let needsFlush ← Program.atomic (applyMutation pf m)
  if needsFlush then flushMemTable pf io

def put (key value : Bytes) : Program Status World Unit := writeEntry pf io device (.put key value)

def delete (key : Bytes) : Program Status World Unit := writeEntry pf io device (.delete key)

def get (world : World) (key : Bytes) : ErrorOr (Option Bytes) :=
  match world.engine.activeMemtable.get key with
  | some value => .ok (some value)
  | none =>
    match world.engine.immutableMemtable.bind fun immutable => immutable.get key with
    | some value => .ok (some value)
    | none => getFromSSTables pf io world.store key

/-- One pass of `CompactionLoop` after the wait. Its errors are logged and dropped. -/
def compactionPass : Program Status World Unit := do
  let world ← Program.atomic MonadState.get
  if world.engine.compactionManager.needsCompaction then
    let _ ← ((compactionSteps pf io).zoom World.store World.withStore).attempt
    let lastFlushedLsn ← Program.atomic captureLsn
    let world ← Program.atomic MonadState.get
    let _ ← (saveCheckpoint io ⟨lastFlushedLsn, world.engine.compactionManager.files⟩).attempt

/-- The destructor. An error of the final flush is logged and dropped. -/
def close : Program Status World Unit := do
  let world ← Program.atomic MonadState.get
  if ¬ world.engine.activeMemtable.isEmpty then
    let _ ← (flushMemTable pf io).attempt

/-- `Open`. Opening the log for appending creates it. -/
def «open» (config : StorageConfig) : Action Status Disk StorageEngine := do
  let checkpoint ← Action.reads fun disk => CheckpointManager.loadCheckpoint disk.checkpoints
  let manager ← Action.reads fun _ =>
    checkpoint.sstables.foldlM CompactionManager.addFile (CompactionManager.new config.sstDir leveled.kNumLevels)
  let disk ← MonadState.get
  let wal := WAL.open disk.log
  let log := some (disk.log.getD [])
  set { disk with log }
  let (active, _) ← Action.reads fun disk =>
    RecoveryManager.recoverMemTable pf disk.log (MemTable.new pf) checkpoint.lastFlushedLsn
  return ⟨config, manager, active, none, wal, 1, 0, 0⟩

end StorageEngine

end VectorDb.Storage
