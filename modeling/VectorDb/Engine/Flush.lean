import VectorDb.Engine.StorageEngine

namespace VectorDb.Storage
open Lib Common CompactionManager

namespace StorageEngine

variable (pf : Platform)

theorem saveCheckpoint_run (checkpoint : Checkpoint) (world : World) :
    (saveCheckpoint .none checkpoint).run world =
      .ok () (world.withCheckpoints ⟨some (.complete checkpoint), none⟩) := by
  rfl

def afterFlush (world : World) (table : SSTable) : World where
  disk := { world.disk with
    tables := Function.update world.disk.tables
      (flushPath world.engine.config.sstDir world.engine.nextSstSequence) (some (.complete table))
    checkpoints := ⟨some (.complete ⟨world.engine.wal.currentSequenceNumber, world.engine.compactionManager.files ++
      [flushMeta world.engine.config.sstDir table world.engine.nextSstSequence]⟩), none⟩ }
  engine := { world.engine with
    activeMemtable := MemTable.new pf
    immutableMemtable := none
    compactionManager := { world.engine.compactionManager with
      files := world.engine.compactionManager.files ++
        [flushMeta world.engine.config.sstDir table world.engine.nextSstSequence] }
    nextSstSequence := world.engine.nextSstSequence + 1
    memtableFlushes := world.engine.memtableFlushes + 1 }

theorem swapMemTables_empty {world : World} (empty : world.engine.activeMemtable.isEmpty = true) :
    swapMemTables pf world = .ok none world := by
  rw [swapMemTables, Action.bind_of_ok (Action.get_eq world), if_pos empty]
  rfl

theorem swapMemTables_filled {world : World} (filled : ¬ world.engine.activeMemtable.isEmpty = true) :
    swapMemTables pf world = .ok (some world.engine.activeMemtable) { world with engine := { world.engine with
      activeMemtable := MemTable.new pf
      immutableMemtable := none } } := by
  rw [swapMemTables, Action.bind_of_ok (Action.get_eq world), if_neg filled]
  rfl

theorem flushMemTable_empty {world : World} (empty : world.engine.activeMemtable.entries = []) :
    (flushMemTable pf .none).run world = .ok () world := by
  have isEmpty := (MemTable.isEmpty_iff _).mpr empty
  rw [flushMemTable, Program.run_bind, Program.run_atomic, Action.bind_of_ok (swapMemTables_empty pf isEmpty)]
  rfl

theorem writeSst_run {world : World} {m : MemTable} (path : Path) (nonempty : m.entries ≠ []) :
    writeSst .none path m world = .ok () { world with disk := { world.disk with
      tables := Function.update world.disk.tables path (some (.complete (.ofMemTable m nonempty))) } } :=
  Action.zoom_ok.mpr ⟨_, Action.zoom_ok.mpr ⟨_, writeTable_none nonempty _, rfl⟩, rfl⟩

theorem flushedMeta_eq {tables : Tables} {sstDir : Path} {seq : Nat} {table : SSTable}
    (written : tables (flushPath sstDir seq) = some (.complete table)) :
    flushedMeta .none (flushPath sstDir seq) seq tables = flushMeta sstDir table seq := by
  simp [flushedMeta, openTable_none written, written, flushMeta]

theorem captureLsn_run (world : World) : captureLsn world = .ok world.engine.wal.currentSequenceNumber world := rfl

theorem drawSstSequence_run (world : World) : drawSstSequence world = .ok world.engine.nextSstSequence
    { world with engine := { world.engine with nextSstSequence := world.engine.nextSstSequence + 1 } } := rfl

theorem registerFlushed_run {world : World} {sstDir : Path} {seq : Nat} {table : SSTable}
    (written : world.disk.tables (flushPath sstDir seq) = some (.complete table))
    (levels : 0 < world.engine.compactionManager.maxLevel) :
    (onStore do registerFile (flushedMeta .none (flushPath sstDir seq) seq (← MonadState.get).tables)) world =
      .ok () (world.withStore (withFiles world.store [flushMeta sstDir table seq])) := by
  refine Action.zoom_ok.mpr ⟨withFiles world.store [flushMeta sstDir table seq], ?_, rfl⟩
  rw [Action.bind_of_ok (Action.get_eq _), World.store, flushedMeta_eq written, registerFile_ok]
  exact ⟨⟨le_rfl, levels⟩, rfl⟩

theorem flushMemTable_run {world : World} (nonempty : world.engine.activeMemtable.entries ≠ [])
    (levels : 0 < world.engine.compactionManager.maxLevel) :
    (flushMemTable pf .none).run world =
      .ok () (afterFlush pf world (.ofMemTable world.engine.activeMemtable nonempty)) := by
  have filled : ¬ world.engine.activeMemtable.isEmpty = true := fun isEmpty =>
    nonempty ((MemTable.isEmpty_iff _).mp isEmpty)
  rw [flushMemTable, Program.run_bind, Program.run_atomic, Action.bind_of_ok (swapMemTables_filled pf filled)]
  simp only [Program.run_bind, Program.run_atomic, Program.run_tearing]
  rw [Action.bind_of_ok (captureLsn_run _), Action.bind_of_ok (drawSstSequence_run _),
    Action.bind_of_ok (Action.get_eq _), Action.bind_of_ok (writeSst_run _ nonempty)]
  dsimp only
  rw [Action.bind_of_ok (registerFlushed_run (Function.update_self _ _ _) (by exact levels)),
    Action.bind_of_ok (Action.get_eq _), Action.bind_of_ok (saveCheckpoint_run _ _)]
  rfl

end StorageEngine

end VectorDb.Storage
