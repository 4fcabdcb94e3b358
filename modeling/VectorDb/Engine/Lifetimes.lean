import VectorDb.Engine.CheckpointInvariant

namespace VectorDb.Storage
open Lib Common CompactionManager

namespace StorageEngine

structure Lifetime where
  world : World
  restored : List SSTableMeta

/-- A call or a compaction pass, or a clean close and an `Open` with some MemTable size. -/
inductive Act where
  | work (event : Event)
  | reopen (memtableSizeBytes : Nat)

namespace Act

def program (pf : Platform) : Act → Program Status World Unit
  | work event => event.program pf .none .faultless
  | reopen _ => close pf .none

def Continues (pf : Platform) (restored : List SSTableMeta) (worked : World) : Act → Lifetime → Prop
  | work _, after => after = ⟨worked, restored⟩
  | reopen memtableSizeBytes, after =>
    «open» pf { worked.engine.config with memtableSizeBytes } worked.disk =
        .ok after.world.engine after.world.disk ∧
      after.restored = after.world.engine.compactionManager.files

def Step (pf : Platform) (before : Lifetime) (act : Act) (after : Lifetime) : Prop :=
  ∃ worked, (act.program pf).run before.world = .ok () worked ∧ act.Continues pf before.restored worked after

end Act

structure WritesNew (before after : World) : Prop where
  flushed : after.engine.nextSstSequence ≠ before.engine.nextSstSequence →
    flushPath before.engine.config.sstDir before.engine.nextSstSequence ∉
        before.engine.compactionManager.files.map SSTableMeta.filepath ∧
      ∀ file ∈ before.engine.compactionManager.files, file.level = 0 →
        file.sequenceNumber < before.engine.nextSstSequence
  merged : ∀ number ≥ before.engine.compactionManager.nextFileNumber,
    number + 1 < after.engine.compactionManager.nextFileNumber →
      outputPath before.engine.compactionManager.dataDir (before.engine.compactionManager.pickCompactionLevel + 1)
        number ∉ before.engine.compactionManager.files.map SSTableMeta.filepath

/-- The numbers of the files written between the worlds are above those of the restored files of level 0, and not
those of restored files at the target level, as far as these are in the catalogue. The last number that a merge draws
is the number of no file. -/
structure DrawsUnused (restored : List SSTableMeta) (before after : World) : Prop where
  flushed : after.engine.nextSstSequence ≠ before.engine.nextSstSequence →
    ∀ file ∈ restored, file ∈ before.engine.compactionManager.files → file.level = 0 →
      file.sequenceNumber < before.engine.nextSstSequence
  merged : ∀ number ≥ before.engine.compactionManager.nextFileNumber,
    number + 1 < after.engine.compactionManager.nextFileNumber →
      ∀ file ∈ restored, file ∈ before.engine.compactionManager.files →
        file.level = before.engine.compactionManager.pickCompactionLevel + 1 → file.sequenceNumber ≠ number + 1

def Act.Unused (pf : Platform) (life : Lifetime) (act : Act) : Prop :=
  ∀ worked, (act.program pf).run life.world = .ok () worked → DrawsUnused life.restored life.world worked

inductive Named (sstDir : Path) (file : SSTableMeta) : Prop
  | flushed : file.level = 0 → file.filepath = flushPath sstDir file.sequenceNumber → Named sstDir file
  | merged (number : Nat) : 1 ≤ file.level → file.sequenceNumber = number + 1 →
      file.filepath = outputPath sstDir file.level number → Named sstDir file

structure Identified (sstDir : Path) (life : Lifetime) : Prop where
  configured : life.world.engine.config.sstDir = sstDir
  dataDir : life.world.engine.compactionManager.dataDir = sstDir
  maxLevel : life.world.engine.compactionManager.maxLevel = leveled.kNumLevels
  named : ∀ file ∈ life.world.engine.compactionManager.files, Named sstDir file
  levels : ∀ file ∈ life.world.engine.compactionManager.files, file.level < leveled.kNumLevels
  paths : (life.world.engine.compactionManager.files.map SSTableMeta.filepath).Nodup
  recent : ∀ file ∈ life.world.engine.compactionManager.files, file ∉ life.restored →
    (file.level = 0 → file.sequenceNumber < life.world.engine.nextSstSequence) ∧
      (1 ≤ file.level → file.sequenceNumber ≤ life.world.engine.compactionManager.nextFileNumber)
  present : ∀ file ∈ life.world.engine.compactionManager.files,
    ∃ table, life.world.disk.tables file.filepath = some (.complete table)
  listed : ∃ lsn, CheckpointManager.loadCheckpoint life.world.disk.checkpoints =
    .ok ⟨lsn, life.world.engine.compactionManager.files⟩

def Backed (sstDir : Path) (disk : Disk) : Prop :=
  ∃ life lsn, Identified sstDir life ∧
    CheckpointManager.loadCheckpoint disk.checkpoints = .ok ⟨lsn, life.world.engine.compactionManager.files⟩ ∧
    ∀ file ∈ life.world.engine.compactionManager.files, ∃ table, disk.tables file.filepath = some (.complete table)

variable {pf : Platform} {config : StorageConfig} {world world' : World} {disk : Disk} {life after : Lifetime}
  {sstDir : Path} {restored : List SSTableMeta}

theorem close_eq (levels : 0 < world.engine.compactionManager.maxLevel) :
    (close pf .none).run world = (flushMemTable pf .none).run world := by
  rw [close, Program.run_bind, Program.run_atomic, Action.bind_of_ok (Action.get_eq world)]
  by_cases empty : world.engine.activeMemtable.entries = []
  · rw [if_neg (not_not_intro ((MemTable.isEmpty_iff _).mpr empty)), flushMemTable_empty pf empty]
    rfl
  · rw [if_pos fun isEmpty => empty ((MemTable.isEmpty_iff _).mp isEmpty), Program.run_bind, Program.run_attempt,
      Action.bind_of_ok (Action.attempt_of_ok (flushMemTable_run pf empty levels)), flushMemTable_run pf empty levels]
    rfl

theorem addFiles_eq {files : List SSTableMeta} {manager manager' : CompactionManager}
    (added : files.foldlM addFile manager = .ok manager') :
    manager' = { manager with files := manager.files ++ files } := by
  induction files generalizing manager with
  | nil =>
    cases added
    simp
  | cons file files ih =>
    rw [List.foldlM_cons] at added
    cases first : manager.addFile file with
    | error status =>
      rw [first] at added
      cases added
    | ok next =>
      rw [first] at added
      obtain ⟨-, -, rfl⟩ := addFile_ok first
      simpa using ih added

structure Opened (config : StorageConfig) (disk : Disk) (checkpoint : Checkpoint) (world : World) : Prop where
  loaded : CheckpointManager.loadCheckpoint disk.checkpoints = .ok checkpoint
  configured : world.engine.config = config
  manager : world.engine.compactionManager = ⟨config.sstDir, leveled.kNumLevels, checkpoint.sstables, 1⟩
  number : world.engine.nextSstSequence = 1
  wal : world.engine.wal = WAL.open disk.log
  disk : world.disk = { disk with log := some (disk.log.getD []) }

theorem opened_of_ok (opened : «open» pf config disk = .ok world.engine world.disk) :
    ∃ checkpoint, Opened config disk checkpoint world := by
  obtain ⟨checkpoint, first, load, adding⟩ := Action.bind_ok.mp opened
  obtain ⟨loaded, rfl⟩ := Action.reads_ok.mp load
  obtain ⟨manager, second, add, logging⟩ := Action.bind_ok.mp adding
  obtain ⟨added, rfl⟩ := Action.reads_ok.mp add
  rw [Action.bind_of_ok (Action.get_eq _), Action.bind_of_ok (Action.set_eq _ _)] at logging
  obtain ⟨⟨active, count⟩, third, recover, returned⟩ := Action.bind_ok.mp logging
  obtain ⟨-, rfl⟩ := Action.reads_ok.mp recover
  obtain ⟨disk', engine⟩ := world
  cases returned
  exact ⟨checkpoint, loaded, rfl, by simp [addFiles_eq added, CompactionManager.new], rfl, rfl, rfl⟩

theorem Opened.levels {checkpoint : Checkpoint} (opened : Opened config disk checkpoint world) :
    0 < world.engine.compactionManager.maxLevel := by
  rw [opened.manager]
  simp [leveled.kNumLevels]

theorem Opened.holds {checkpoint : Checkpoint} {ms : List Mutation} (opened : Opened config disk checkpoint world)
    (log : LogFile ms) (isLog : disk.log = some (logBytes ms)) :
    world.engine.wal.Holds (world.disk.log.getD []) ms := by
  rw [opened.wal, opened.disk, isLog]
  exact WAL.holds_open log

variable (pf config) in
theorem opens_log {checkpoint : Checkpoint} {ms : List Mutation} (log : LogFile ms)
    (isLog : disk.log = some (logBytes ms))
    (loaded : CheckpointManager.loadCheckpoint disk.checkpoints = .ok checkpoint)
    (levels : ∀ file ∈ checkpoint.sstables, 0 ≤ file.level ∧ file.level < leveled.kNumLevels) :
    ∃ engine, «open» pf config disk = .ok engine disk ∧ Opened config disk checkpoint ⟨disk, engine⟩ := by
  obtain ⟨engine, opens⟩ : ∃ engine, «open» pf config disk = .ok engine disk :=
    ⟨_, open_ok log torn_nil (by rw [isLog, List.append_nil]) loaded levels⟩
  obtain ⟨checkpoint', opened⟩ : ∃ checkpoint, Opened config disk checkpoint ⟨disk, engine⟩ := opened_of_ok opens
  cases opened.loaded.symm.trans loaded
  exact ⟨engine, opens, opened⟩

theorem Backed.opens (backed : Backed sstDir disk) (directory : config.sstDir = sstDir)
    (opens : «open» pf config disk = .ok after.world.engine after.world.disk)
    (restores : after.restored = after.world.engine.compactionManager.files) : Identified sstDir after := by
  obtain ⟨checkpoint, opened⟩ := opened_of_ok opens
  obtain ⟨life, lsn, identified, loaded, complete⟩ := backed
  cases opened.loaded.symm.trans loaded
  have files : after.world.engine.compactionManager.files = life.world.engine.compactionManager.files := by
    rw [opened.manager]
  refine ⟨?_, ?_, ?_, ?_, ?_, ?_, fun file member new => ?_, ?_, lsn, ?_⟩
  · rw [opened.configured, directory]
  · rw [opened.manager, directory]
  · rw [opened.manager]
  · rw [files]
    exact identified.named
  · rw [files]
    exact identified.levels
  · rw [files]
    exact identified.paths
  · exact absurd (restores ▸ member) new
  · rw [files, opened.disk]
    exact complete
  · rw [files, opened.disk]
    exact loaded

inductive Worked (pf : Platform) (world : World) : World → Prop
  | kept {ms : List Mutation} {between : World} : Wrote pf .faultless world ms between → Worked pf world between
  | flushed {ms : List Mutation} {between : World} (nonempty : between.engine.activeMemtable.entries ≠ []) :
      Wrote pf .faultless world ms between →
      Worked pf world (afterFlush pf between (.ofMemTable between.engine.activeMemtable nonempty))
  | compacted {stats : CompactionStats} {store : Store} :
      runCompaction pf .none world.store = .ok stats store → Worked pf world (afterCompaction world store)

theorem Worked.merges (worked : Worked pf world world')
    (drawn : world.engine.compactionManager.nextFileNumber < world'.engine.compactionManager.nextFileNumber) :
    0 ≤ world.engine.compactionManager.pickCompactionLevel := by
  cases worked with
  | kept wrote => cases wrote <;> exact absurd drawn (lt_irrefl _)
  | flushed _ wrote => cases wrote <;> exact absurd drawn (lt_irrefl _)
  | compacted ran =>
    obtain ⟨level, sources, targets, fileData, outs, run⟩ := runCompaction_ok ran
    exact run.valid.trans_eq run.picked.symm

namespace Identified

theorem compacts (identified : Identified sstDir life)
    (needed : life.world.engine.compactionManager.needsCompaction = true) :
    ∃ stats store, runCompaction pf .none life.world.store = .ok stats store := by
  refine runCompaction_succeeds Faults.silent_none needed ?_ identified.present
  rw [World.store, identified.maxLevel]
  decide

theorem worked {act : Act} (identified : Identified sstDir life)
    (ran : (act.program pf).run life.world = .ok () world) : Worked pf life.world world := by
  have levels : 0 < life.world.engine.compactionManager.maxLevel := by
    rw [identified.maxLevel]
    decide
  have called : ∀ command : Command, (command.program pf .none .faultless).run life.world = .ok () world →
      Worked pf life.world world := by
    intro command ran
    obtain ⟨between, wrote, rfl | ⟨nonempty, rfl⟩⟩ := command.run_cases levels ran
    · exact .kept wrote
    · exact .flushed nonempty wrote
  match act with
  | .work (.call command) => exact called command ran
  | .work .compaction =>
    cases needed : life.world.engine.compactionManager.needsCompaction with
    | false =>
      cases (compactionPass_unneeded needed).symm.trans ran
      exact .kept .nothing
    | true =>
      obtain ⟨stats, store, compacted⟩ := identified.compacts needed
      cases (compactionPass_run needed compacted).symm.trans ran
      exact .compacted compacted
  | .reopen _ => exact called .flush ((close_eq levels).symm.trans ran)

theorem fresh (pf : Platform) (config : StorageConfig) :
    Identified config.sstDir ⟨StorageEngine.fresh pf config, []⟩ where
  configured := rfl
  dataDir := rfl
  maxLevel := rfl
  named := by simp [StorageEngine.fresh, CompactionManager.new]
  levels := by simp [StorageEngine.fresh, CompactionManager.new]
  paths := by simp [StorageEngine.fresh, CompactionManager.new]
  recent := by simp [StorageEngine.fresh, CompactionManager.new]
  present := by simp [StorageEngine.fresh, CompactionManager.new]
  listed := ⟨0, rfl⟩

theorem write {ms : List Mutation} (identified : Identified sstDir ⟨world, restored⟩)
    (wrote : Wrote pf .faultless world ms world') : Identified sstDir ⟨world', restored⟩ := by
  cases wrote with
  | nothing => exact identified
  | entry =>
    exact ⟨identified.configured, identified.dataDir, identified.maxLevel, identified.named, identified.levels,
      identified.paths, identified.recent, identified.present, identified.listed⟩

theorem flush (identified : Identified sstDir ⟨world, restored⟩) (table : SSTable)
    (new : flushPath world.engine.config.sstDir world.engine.nextSstSequence ∉
      world.engine.compactionManager.files.map SSTableMeta.filepath) :
    Identified sstDir ⟨afterFlush pf world table, restored⟩ := by
  have configured : world.engine.config.sstDir = sstDir := identified.configured
  have files : ∀ file ∈ (afterFlush pf world table).engine.compactionManager.files,
      file ∈ world.engine.compactionManager.files ∨ file = flushMeta sstDir table world.engine.nextSstSequence := by
    simp [afterFlush, configured]
  refine ⟨configured, identified.dataDir, identified.maxLevel, fun file member => ?_, fun file member => ?_, ?_,
    fun file member new => ?_, fun file member => ?_, ⟨_, rfl⟩⟩
  · rcases files file member with old | rfl
    · exact identified.named file old
    · exact .flushed rfl rfl
  · rcases files file member with old | rfl
    · exact identified.levels file old
    · simp [flushMeta, leveled.kNumLevels]
  · simp only [afterFlush, List.map_append, List.map_cons, List.map_nil]
    exact List.Nodup.append identified.paths (by simp) (by simpa [flushMeta] using new)
  · rcases files file member with old | rfl
    · obtain ⟨shallow, deep⟩ := identified.recent file old new
      exact ⟨fun zero => Nat.lt_succ_of_lt (shallow zero), deep⟩
    · exact ⟨fun _ => Nat.lt_succ_self _, fun deep => absurd deep (by simp [flushMeta])⟩
  · rcases files file member with old | rfl
    · obtain ⟨present, complete⟩ := identified.present file old
      have other : file.filepath ≠ flushPath world.engine.config.sstDir world.engine.nextSstSequence :=
        fun same => new (same ▸ List.mem_map_of_mem old)
      exact ⟨present, by simpa [afterFlush, other] using complete⟩
    · exact ⟨table, by simp [afterFlush, flushMeta, configured]⟩

theorem compact {stats : CompactionStats} {store : Store} (identified : Identified sstDir ⟨world, restored⟩)
    (ran : runCompaction pf .none world.store = .ok stats store)
    (new : ∀ number ≥ world.engine.compactionManager.nextFileNumber, number + 1 < store.manager.nextFileNumber →
      outputPath world.engine.compactionManager.dataDir (world.engine.compactionManager.pickCompactionLevel + 1)
        number ∉ world.engine.compactionManager.files.map SSTableMeta.filepath) :
    Identified sstDir ⟨afterCompaction world store, restored⟩ := by
  obtain ⟨level, sources, targets, fileData, outs, run⟩ := runCompaction_ok ran
  have dataDir : world.engine.compactionManager.dataDir = sstDir := identified.dataDir
  have valid := run.valid
  have next : store.manager.nextFileNumber = world.engine.compactionManager.nextFileNumber + outs.length + 1 := by
    rw [run.manager]
    rfl
  have unlisted : ∀ j < outs.length, outputPath world.engine.compactionManager.dataDir (level + 1)
      (world.engine.compactionManager.nextFileNumber + j) ∉
        world.engine.compactionManager.files.map SSTableMeta.filepath := by
    intro j bound
    rw [← run.picked]
    exact new _ (Nat.le_add_right _ _) (by omega)
  have files : ∀ file ∈ store.manager.files,
      (file ∈ world.engine.compactionManager.files ∧ file.filepath ∉ (sources ++ targets).map SSTableMeta.filepath) ∨
        ∃ (j : Nat) (bound : j < outs.length), file = outputMetaOf .none world.engine.compactionManager.dataDir (level + 1)
          outs[j] (world.engine.compactionManager.nextFileNumber + j) := by
    intro file member
    rw [run.manager, List.mem_filter, List.mem_append, mem_outputMetasFrom, decide_eq_true_eq] at member
    exact member.1.imp (fun old => ⟨old, member.2⟩) id
  refine ⟨identified.configured, ?_, ?_, fun file member => ?_, fun file member => ?_, ?_,
    fun file member new => ?_, fun file member => ?_, ⟨_, rfl⟩⟩
  · exact (congrArg CompactionManager.dataDir run.manager).trans dataDir
  · exact (congrArg CompactionManager.maxLevel run.manager).trans identified.maxLevel
  · rcases files file member with ⟨old, -⟩ | ⟨j, bound, rfl⟩
    · exact identified.named file old
    · exact .merged _ (by simp only [outputMetaOf]; omega) rfl (by rw [← dataDir]; rfl)
  · rcases files file member with ⟨old, -⟩ | ⟨j, bound, rfl⟩
    · exact identified.levels file old
    · rw [← identified.maxLevel]
      exact (run.room (List.ne_nil_of_length_pos (by omega))).2
  · exact run.paths identified.paths unlisted
  · change (_ → _ < world.engine.nextSstSequence) ∧ (_ → _ ≤ store.manager.nextFileNumber)
    rcases files file member with ⟨old, -⟩ | ⟨j, bound, rfl⟩
    · obtain ⟨shallow, deep⟩ := identified.recent file old new
      exact ⟨shallow, fun isDeep => (deep isDeep).trans (by dsimp only; omega)⟩
    · simp only [outputMetaOf]
      exact ⟨by omega, by omega⟩
  · rcases files file member with ⟨old, left⟩ | ⟨j, bound, rfl⟩
    · obtain ⟨table, complete⟩ := identified.present file old
      exact ⟨table, (run.others _ left fun j bound same =>
        unlisted j bound (same ▸ List.mem_map_of_mem old)).trans complete⟩
    · exact ⟨outs[j], run.written j bound fun input => unlisted j bound (run.input_listed input)⟩

theorem backed (identified : Identified sstDir life) : Backed sstDir life.world.disk :=
  have ⟨_, listed⟩ := identified.listed
  ⟨life, _, identified, listed, identified.present⟩

theorem writesNew_iff (identified : Identified sstDir life) (worked : Worked pf life.world world) :
    WritesNew life.world world ↔ DrawsUnused life.restored life.world world := by
  have configured := identified.configured
  have dataDir := identified.dataDir
  constructor
  · intro new
    refine ⟨fun drawn file _ listed zero => (new.flushed drawn).2 file listed zero,
      fun number drawn later file _ listed level same => new.merged number drawn later ?_⟩
    have deep := worked.merges (drawn.trans_lt (Nat.lt_of_succ_lt later))
    cases identified.named file listed with
    | flushed zero => omega
    | merged other _ number' path =>
      obtain rfl : other = number := by omega
      rw [dataDir, ← level, ← path]
      exact List.mem_map_of_mem listed
  · intro unused
    have below : world.engine.nextSstSequence ≠ life.world.engine.nextSstSequence →
        ∀ file ∈ life.world.engine.compactionManager.files, file.level = 0 →
          file.sequenceNumber < life.world.engine.nextSstSequence := by
      intro drawn file listed zero
      by_cases old : file ∈ life.restored
      · exact unused.flushed drawn file old listed zero
      · exact (identified.recent file listed old).1 zero
    refine ⟨fun drawn => ⟨fun taken => ?_, below drawn⟩, fun number drawn later taken => ?_⟩
    · obtain ⟨file, listed, same⟩ := List.mem_map.mp taken
      cases identified.named file listed with
      | flushed zero path =>
        rw [path, configured] at same
        exact (below drawn file listed zero).ne (flushPath_inj same)
      | merged other deep _ path =>
        rw [path, configured] at same
        exact flushPath_ne_outputPath _ _ deep _ same.symm
    · obtain ⟨file, listed, same⟩ := List.mem_map.mp taken
      have deep := worked.merges (drawn.trans_lt (Nat.lt_of_succ_lt later))
      cases identified.named file listed with
      | flushed zero path =>
        rw [path, dataDir] at same
        exact flushPath_ne_outputPath _ _ (by omega) _ same
      | merged other isDeep number' path =>
        rw [path, dataDir] at same
        obtain ⟨level, rfl⟩ := outputPath_inj same
        by_cases old : file ∈ life.restored
        · exact unused.merged other drawn later file old listed level number'
        · have := (identified.recent file listed old).2 isDeep
          omega

theorem flush_unlisted {ms : List Mutation} {table : SSTable} (wrote : Wrote pf .faultless life.world ms world)
    (new : WritesNew life.world (afterFlush pf world table)) :
    flushPath world.engine.config.sstDir world.engine.nextSstSequence ∉
      world.engine.compactionManager.files.map SSTableMeta.filepath := by
  cases wrote with
  | nothing => exact (new.flushed (Nat.succ_ne_self _)).1
  | entry => exact (new.flushed (Nat.succ_ne_self _)).1

theorem work (identified : Identified sstDir life) (worked : Worked pf life.world world)
    (unused : DrawsUnused life.restored life.world world) : Identified sstDir ⟨world, life.restored⟩ := by
  have new := (identified.writesNew_iff worked).mpr unused
  cases worked with
  | kept wrote => exact identified.write wrote
  | flushed nonempty wrote => exact (identified.write wrote).flush _ (flush_unlisted wrote new)
  | compacted ran => exact identified.compact ran new.merged

theorem step {act : Act} (identified : Identified sstDir life)
    (steps : guarded (Act.Unused pf) (Act.Step pf) life act after) : Identified sstDir after := by
  obtain ⟨unused, worked, ran, continues⟩ := steps
  have kept := identified.work (identified.worked ran) (unused worked ran)
  cases act with
  | work event =>
    cases continues
    exact kept
  | reopen memtableSizeBytes => exact kept.backed.opens (by exact kept.configured) continues.1 continues.2

theorem of_run {acts : List Act}
    (run : Trace (guarded (Act.Unused pf) (Act.Step pf)) ⟨StorageEngine.fresh pf config, []⟩ acts life) :
    Identified config.sstDir life :=
  run.induct (P := fun _ life => Identified config.sstDir life) (fresh pf config)
    fun _ _ _ _ _ identified steps => identified.step steps

end Identified

/-- In a run that draws no number of a restored file the paths stay distinct, and the next act writes
to new paths exactly if it draws no such number either. -/
theorem lifetimes_write_new_iff {acts : List Act}
    (run : Trace (guarded (Act.Unused pf) (Act.Step pf)) ⟨fresh pf config, []⟩ acts life) :
    (life.world.engine.compactionManager.files.map SSTableMeta.filepath).Nodup ∧
      ∀ (act : Act) (worked : World), (act.program pf).run life.world = .ok () worked →
        (WritesNew life.world worked ↔ DrawsUnused life.restored life.world worked) :=
  have identified := Identified.of_run run
  ⟨identified.paths, fun _ _ ran => identified.writesNew_iff (identified.worked ran)⟩

variable (pf) in
theorem writeEntry_flushes {all : List Mutation} {m : Mutation}
    (holds : world.engine.wal.Holds (world.disk.log.getD []) all) (room : (logBytes (all ++ [m])).length ≤ maxFileSize)
    (levels : 0 < world.engine.compactionManager.maxLevel) (full : world.engine.config.memtableSizeBytes = 0) :
    ∃ between nonempty, Wrote pf .faultless world [m] between ∧ (writeEntry pf .none .faultless m).run world =
      .ok () (afterFlush pf between (.ofMemTable between.engine.activeMemtable nonempty)) := by
  obtain ⟨lsn, wal, file, appended⟩ := holds.append_room room
  have nonempty : (afterWrite pf world m wal file).engine.activeMemtable.entries ≠ [] := by
    change (world.engine.activeMemtable.apply pf m).entries ≠ []
    rw [MemTable.entries_apply]
    exact upsert_ne_nil _ _ _
  refine ⟨_, nonempty, .entry appended, ?_⟩
  rw [writeEntry_run appended, if_pos (by rw [full]; exact Nat.zero_le _)]
  exact flushMemTable_run pf nonempty levels

private theorem reopened_with_table (pf : Platform) (config : StorageConfig)
    (full : config.memtableSizeBytes = 0) : ∃ life,
    Trace (guarded (Act.Unused pf) (Act.Step pf)) ⟨fresh pf config, []⟩
      [.work (.call (.put [1] [2])), .reopen 0] life ∧
    life.world.engine.wal.Holds (life.world.disk.log.getD []) [.put [1] [2]] ∧
    life.world.engine.config.memtableSizeBytes = 0 ∧ 0 < life.world.engine.compactionManager.maxLevel ∧
    flushPath life.world.engine.config.sstDir life.world.engine.nextSstSequence ∈
      life.world.engine.compactionManager.files.map SSTableMeta.filepath := by
  have serving := serving_fresh pf config
  obtain ⟨between, nonempty, wrote, ran⟩ := writeEntry_flushes pf (m := .put [1] [2]) (holds_fresh pf config)
    (by rw [logBytes_length]; decide) serving.levels full
  obtain ⟨table, isTable⟩ : ∃ table, table = SSTable.ofMemTable between.engine.activeMemtable nonempty := ⟨_, rfl⟩
  rw [← isTable] at ran
  have logged : Logged [.put [1] [2]] [] (afterFlush pf between table) :=
    (wrote.logged (logged_fresh pf config)).afterFlush table
  have flushed : Serving pf config [] (afterFlush pf between table) := (wrote.serving serving).afterFlush table
  have first : Trace (guarded (Act.Unused pf) (Act.Step pf)) ⟨fresh pf config, []⟩ [.work (.call (.put [1] [2]))]
      ⟨afterFlush pf between table, []⟩ :=
    .snoc .nil ⟨fun _ _ => ⟨by simp, by simp⟩, _, ran, rfl⟩
  have closed : (close pf .none).run (afterFlush pf between table) = .ok () (afterFlush pf between table) :=
    (close_eq flushed.levels).trans (flushMemTable_empty pf (MemTable.entries_new pf))
  have log : LogFile [.put [1] [2]] := logged.holds.log (by decide)
  obtain ⟨engine, opens, opened⟩ := opens_log pf { (afterFlush pf between table).engine.config with
    memtableSizeBytes := 0 } log logged.log logged.checkpoint flushed.file_levels
  have unused : (Act.reopen 0).Unused pf ⟨afterFlush pf between table, []⟩ := fun _ _ => ⟨by simp, by simp⟩
  have configured : engine.config = _ := opened.configured
  have manager : engine.compactionManager = _ := opened.manager
  have number : engine.nextSstSequence = 1 := opened.number
  refine ⟨⟨⟨_, engine⟩, engine.compactionManager.files⟩, .snoc first ⟨unused, _, closed, opens, rfl⟩,
    opened.holds log logged.log, ?_, opened.levels, ?_⟩
  · rw [configured]
  · rw [manager, configured, number]
    cases wrote
    simp [afterFlush, afterWrite, fresh, CompactionManager.new, flushMeta]

theorem lifetimes_write_new_reopened : ∃ life,
    Trace (guarded (Act.Unused .reference) (Act.Step .reference)) ⟨fresh .reference { memtableSizeBytes := 0 }, []⟩
      [.work (.call (.put [1] [2])), .reopen 0] life ∧
    (life.world.engine.compactionManager.files.map SSTableMeta.filepath).Nodup ∧
      ∀ (act : Act) (worked : World), (act.program .reference).run life.world = .ok () worked →
        (WritesNew life.world worked ↔ DrawsUnused life.restored life.world worked) := by
  obtain ⟨life, run, -⟩ := reopened_with_table .reference { memtableSizeBytes := 0 } rfl
  exact ⟨life, run, lifetimes_write_new_iff run⟩

theorem second_lifetime_overwrites : ¬ ∀ (pf : Platform) (config : StorageConfig) (acts : List Act) (life : Lifetime),
    Trace (Act.Step pf) ⟨fresh pf config, []⟩ acts life →
      (life.world.engine.compactionManager.files.map SSTableMeta.filepath).Nodup ∧
        ∀ (act : Act) (worked : World), (act.program pf).run life.world = .ok () worked →
          WritesNew life.world worked := by
  intro all
  obtain ⟨life, run, holds, full, levels, taken⟩ :=
    reopened_with_table .reference { memtableSizeBytes := 0 } rfl
  obtain ⟨between, nonempty, wrote, ran⟩ := writeEntry_flushes .reference (m := .put [3] [4]) holds
    (by rw [logBytes_length]; decide) levels full
  have new := (all _ _ _ _ run.unguarded).2 (.work (.call (.put [3] [4]))) _ ran
  refine (new.flushed ?_).1 taken
  cases wrote
  exact Nat.succ_ne_self _

end StorageEngine

end VectorDb.Storage
