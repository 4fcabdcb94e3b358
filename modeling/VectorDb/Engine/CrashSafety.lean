import VectorDb.Engine.Moderate

namespace VectorDb.Storage
open Lib Common CompactionManager

namespace StorageEngine

def newestOf (pf : Platform) (world : World) (key : Bytes) : Option BlockEntry :=
  (find BlockEntry.key world.engine.activeMemtable.entries key).or (newestEntry pf world.store key)

def Recovers (pf : Platform) (config : StorageConfig) (disk : Disk) (ms : List Mutation) : Prop :=
  ∃ world, «open» pf config disk = .ok world.engine world.disk ∧ Readable world.store ∧
    ∀ key, newestOf pf world key = newest BlockEntry.key (effects ms) key

variable {pf : Platform} {config : StorageConfig} {world world' crashed : World} {disk : Disk}
  {flushed unflushed : List Mutation}

theorem addFiles_ok (files : List SSTableMeta) (manager : CompactionManager)
    (levels : ∀ file ∈ files, 0 ≤ file.level ∧ file.level < manager.maxLevel) :
    files.foldlM addFile manager = .ok { manager with files := manager.files ++ files } := by
  induction files generalizing manager with
  | nil => simp [pure, Except.pure]
  | cons file files ih =>
    have level := levels file (by simp)
    have added : manager.addFile file = .ok { manager with files := manager.files ++ [file] } := by
      rw [addFile, if_neg (by omega)]
    rw [List.foldlM_cons, added]
    refine (ih { manager with files := manager.files ++ [file] } fun other member => ?_).trans (by simp)
    exact levels other (by simp [member])

theorem open_of_recovered {checkpoint : Checkpoint} {active : MemTable} {count : Nat} (created : disk.log.isSome)
    (loaded : CheckpointManager.loadCheckpoint disk.checkpoints = .ok checkpoint)
    (levels : ∀ file ∈ checkpoint.sstables, 0 ≤ file.level ∧ file.level < leveled.kNumLevels)
    (replayed : RecoveryManager.recoverMemTable pf disk.log (MemTable.new pf) checkpoint.lastFlushedLsn =
      .ok (active, count)) :
    «open» pf config disk = .ok ⟨config, ⟨config.sstDir, leveled.kNumLevels, checkpoint.sstables, 1⟩,
      active, none, WAL.open disk.log, 1, 0, 0⟩ disk := by
  have catalogue := addFiles_ok checkpoint.sstables (.new config.sstDir leveled.kNumLevels) levels
  have kept : { disk with log := some (disk.log.getD []) } = disk := by
    obtain ⟨file, isFile⟩ := Option.isSome_iff_exists.mp created
    cases disk
    simp_all
  exact Action.bind_ok.mpr ⟨checkpoint, disk, Action.reads_ok.mpr ⟨loaded, rfl⟩, Action.bind_ok.mpr
    ⟨_, disk, Action.reads_ok.mpr ⟨catalogue, rfl⟩, Action.bind_ok.mpr ⟨disk, disk, rfl, Action.bind_ok.mpr
      ⟨⟨⟩, disk, congrArg (EStateM.Result.ok PUnit.unit) kept, Action.bind_ok.mpr
        ⟨_, disk, Action.reads_ok.mpr ⟨replayed, rfl⟩, rfl⟩⟩⟩⟩⟩

theorem open_ok {ms : List Mutation} {tail : Bytes} {checkpoint : Checkpoint} (log : LogFile ms) (torn : Torn tail)
    (isLog : disk.log = some (logBytes ms ++ tail))
    (loaded : CheckpointManager.loadCheckpoint disk.checkpoints = .ok checkpoint)
    (levels : ∀ file ∈ checkpoint.sstables, 0 ≤ file.level ∧ file.level < leveled.kNumLevels) :
    «open» pf config disk = .ok ⟨config, ⟨config.sstDir, leveled.kNumLevels, checkpoint.sstables, 1⟩,
      (MemTable.new pf).applyAll pf (ms.drop checkpoint.lastFlushedLsn), none, WAL.open disk.log, 1, 0, 0⟩ disk := by
  have replayed := RecoveryManager.recoverMemTable_log pf log torn checkpoint.lastFlushedLsn
  rw [← isLog] at replayed
  exact open_of_recovered (by simp [isLog]) loaded levels replayed

theorem Serving.file_levels {recent : List Mutation} (serving : Serving pf config recent world) :
    ∀ file ∈ world.engine.compactionManager.files, 0 ≤ file.level ∧ file.level < leveled.kNumLevels := by
  rw [← serving.reachable.manager.2]
  exact serving.searchable.levels

theorem Serving.reopens {recent : List Mutation} {tail : Bytes} (serving : Serving pf config recent world)
    (readable : Readable world.store) (log : LogFile (flushed ++ unflushed)) (torn : Torn tail)
    (isLog : disk.log = some (logBytes (flushed ++ unflushed) ++ tail))
    (loaded : CheckpointManager.loadCheckpoint disk.checkpoints =
      .ok ⟨flushed.length, world.engine.compactionManager.files⟩)
    (tables : ∀ file ∈ world.engine.compactionManager.files,
      disk.tables file.filepath = world.disk.tables file.filepath) :
    ∃ recovered, «open» pf config disk = .ok recovered.engine recovered.disk ∧ Readable recovered.store ∧
      ∀ key, newestOf pf recovered key =
        (newest BlockEntry.key (effects unflushed) key).or (newestEntry pf world.store key) := by
  refine ⟨⟨disk, _⟩, open_ok log torn isLog loaded serving.file_levels, readable.congr (by rfl) tables, fun key => ?_⟩
  rw [newestOf, MemTable.entries_applyAll_new, List.drop_left, find_replay, find_nil, Option.or_none]
  congr 1
  exact newestEntry_congr pf (by rfl) tables key

theorem Serving.reopens_counted {recent ms : List Mutation} (serving : Serving pf config recent world)
    (log : LogFile ms) (isLog : disk.log = some (logBytes ms))
    (loaded : CheckpointManager.loadCheckpoint disk.checkpoints =
      .ok ⟨ms.length, world.engine.compactionManager.files⟩)
    (tables : disk.tables = world.disk.tables) (key : Bytes) :
    ∃ recovered, «open» pf config disk = .ok recovered.engine recovered.disk ∧
      get pf .none recovered key = .ok ((newestEntry pf world.store key).bind BlockEntry.visible) := by
  refine ⟨⟨disk, _⟩, open_ok log torn_nil (by rw [isLog, List.append_nil]) loaded serving.file_levels, ?_⟩
  rw [get, List.drop_length, MemTable.applyAll, List.foldl_nil, MemTable.get_eq, MemTable.entries_new,
    ← getFromSSTables_eq pf serving.searchable.toLevelled, getFromSSTables, getFromSSTables]
  rw [World.store, tables]
  rfl

theorem Serving.recovers {recent : List Mutation} {tail : Bytes} (serving : Serving pf config recent world)
    (readable : Readable world.store) (stored : Stored pf flushed world) (log : LogFile (flushed ++ unflushed)) (torn : Torn tail)
    (isLog : disk.log = some (logBytes (flushed ++ unflushed) ++ tail))
    (loaded : CheckpointManager.loadCheckpoint disk.checkpoints =
      .ok ⟨flushed.length, world.engine.compactionManager.files⟩)
    (tables : ∀ file ∈ world.engine.compactionManager.files,
      disk.tables file.filepath = world.disk.tables file.filepath) :
    Recovers pf config disk (flushed ++ unflushed) := by
  obtain ⟨recovered, opened, reads, newestOf⟩ := serving.reopens readable log torn isLog loaded tables
  refine ⟨recovered, opened, reads, fun key => ?_⟩
  rw [newestOf, effects_append, newest_append, ← stored key]

structure Logged (flushed unflushed : List Mutation) (world : World) : Prop where
  holds : world.engine.wal.Holds (world.disk.log.getD []) (flushed ++ unflushed)
  created : world.disk.log.isSome
  checkpoint : CheckpointManager.loadCheckpoint world.disk.checkpoints =
    .ok ⟨flushed.length, world.engine.compactionManager.files⟩

theorem log_of_holds {wal : WAL} {log : Option Bytes} {ms : List Mutation} (holds : wal.Holds (log.getD []) ms)
    (created : log.isSome) : log = some (logBytes ms) := by
  obtain ⟨file, rfl⟩ := Option.isSome_iff_exists.mp created
  rw [← holds.contents, Option.getD_some]

theorem Logged.log (logged : Logged flushed unflushed world) :
    world.disk.log = some (logBytes (flushed ++ unflushed)) := log_of_holds logged.holds logged.created

theorem logged_fresh (pf : Platform) (config : StorageConfig) : Logged [] [] (fresh pf config) :=
  ⟨holds_fresh pf config, rfl, rfl⟩

theorem Wrote.created {ms : List Mutation} {device : Device} (wrote : Wrote pf device world ms world')
    (created : world.disk.log.isSome) : world'.disk.log.isSome := by
  cases wrote with
  | nothing => exact created
  | entry => rfl

theorem Wrote.logged {ms : List Mutation} (wrote : Wrote pf .faultless world ms world')
    (logged : Logged flushed unflushed world) : Logged flushed (unflushed ++ ms) world' := by
  refine ⟨?_, wrote.created logged.created, ?_⟩
  · rw [← List.append_assoc]
    exact wrote.holds logged.holds
  · cases wrote with
    | nothing => exact logged.checkpoint
    | entry => exact logged.checkpoint

theorem Logged.afterFlush (logged : Logged flushed unflushed world) (table : SSTable) :
    Logged (flushed ++ unflushed) [] (StorageEngine.afterFlush pf world table) := by
  refine ⟨?_, logged.created, ?_⟩
  · rw [List.append_nil]
    exact logged.holds
  · rw [← logged.holds.currentSequenceNumber_eq]
    rfl

theorem writeTemp_run (dataDir : Path) (checkpoint : Checkpoint) (world : World) :
    onCheckpoints (CheckpointManager.writeTemp .none dataDir checkpoint) world =
      .ok () (world.withCheckpoints ⟨world.disk.checkpoints.installed, some (.complete checkpoint)⟩) := rfl

theorem saveCheckpoint_crash {checkpoint : Checkpoint} (crash : (saveCheckpoint .none checkpoint).Crash world crashed) :
    ∃ files, crashed = world.withCheckpoints files ∧
      (files.installed = world.disk.checkpoints.installed ∨ files.installed = some (.complete checkpoint)) := by
  rcases Program.crash_atomic_bind (Action.get_eq world) crash with rfl | crash
  · exact ⟨_, rfl, .inl rfl⟩
  rcases Program.crash_tearing_bind (writeTemp_run _ checkpoint world) crash with rfl | rfl | crash
  · exact ⟨_, rfl, .inl rfl⟩
  · exact ⟨_, rfl, .inl rfl⟩
  rcases Program.crash_atomic crash with rfl | ⟨e, failed⟩ | ⟨⟨⟩, renamed⟩
  · exact ⟨_, rfl, .inl rfl⟩
  · cases failed
  · cases renamed
    exact ⟨_, rfl, .inr rfl⟩

theorem flushMemTable_crash (nonempty : world.engine.activeMemtable.entries ≠ [])
    (levels : 0 < world.engine.compactionManager.maxLevel)
    (crash : (flushMemTable pf .none).Crash world crashed) :
    crashed.disk.log = world.disk.log ∧
      (crashed.disk.checkpoints.installed = world.disk.checkpoints.installed ∧
        (∀ path ≠ flushPath world.engine.config.sstDir world.engine.nextSstSequence,
          crashed.disk.tables path = world.disk.tables path) ∨
      crashed.disk.checkpoints.installed =
          (afterFlush pf world (.ofMemTable world.engine.activeMemtable nonempty)).disk.checkpoints.installed ∧
        crashed.disk.tables = (afterFlush pf world (.ofMemTable world.engine.activeMemtable nonempty)).disk.tables) := by
  have filled : ¬ world.engine.activeMemtable.isEmpty = true := fun isEmpty =>
    nonempty ((MemTable.isEmpty_iff _).mp isEmpty)
  rcases Program.crash_atomic_bind (swapMemTables_filled pf filled) crash with rfl | crash
  · exact ⟨rfl, .inl ⟨rfl, fun _ _ => rfl⟩⟩
  rcases Program.crash_atomic_bind (captureLsn_run _) crash with rfl | crash
  · exact ⟨rfl, .inl ⟨rfl, fun _ _ => rfl⟩⟩
  rcases Program.crash_atomic_bind (drawSstSequence_run _) crash with rfl | crash
  · exact ⟨rfl, .inl ⟨rfl, fun _ _ => rfl⟩⟩
  rcases Program.crash_atomic_bind (Action.get_eq _) crash with rfl | crash
  · exact ⟨rfl, .inl ⟨rfl, fun _ _ => rfl⟩⟩
  rcases Program.crash_tearing_bind (writeSst_run _ nonempty) crash with rfl | ⟨bytes, rfl⟩ | crash
  · exact ⟨rfl, .inl ⟨rfl, fun _ _ => rfl⟩⟩
  · exact ⟨rfl, .inl ⟨rfl, fun _ other => Function.update_of_ne other _ _⟩⟩
  rcases Program.crash_atomic_bind (registerFlushed_run (Function.update_self _ _ _) (by exact levels)) crash
    with rfl | crash
  · exact ⟨rfl, .inl ⟨rfl, fun _ other => Function.update_of_ne other _ _⟩⟩
  rcases Program.crash_atomic_bind (Action.get_eq _) crash with rfl | crash
  · exact ⟨rfl, .inl ⟨rfl, fun _ other => Function.update_of_ne other _ _⟩⟩
  rcases Program.crash_bind crash with inside | ⟨⟨⟩, saved, save, crash⟩
  · obtain ⟨files, rfl, old | new⟩ := saveCheckpoint_crash inside
    · exact ⟨rfl, .inl ⟨old, fun _ other => Function.update_of_ne other _ _⟩⟩
    · exact ⟨rfl, .inr ⟨new, rfl⟩⟩
  · rw [saveCheckpoint_run] at save
    cases save
    rcases Program.crash_atomic crash with rfl | ⟨e, failed⟩ | ⟨⟨⟩, finished⟩
    · exact ⟨rfl, .inr ⟨rfl, rfl⟩⟩
    · cases failed
    · cases finished
      exact ⟨rfl, .inr ⟨rfl, rfl⟩⟩

theorem flushMemTable_crash_empty (empty : world.engine.activeMemtable.entries = [])
    (crash : (flushMemTable pf .none).Crash world crashed) : crashed = world := by
  rcases Program.crash_atomic_bind (swapMemTables_empty pf ((MemTable.isEmpty_iff _).mpr empty)) crash with same | crash
  · exact same
  · exact Program.crash_pure crash

theorem appendLog_error {m : Mutation} {status : Status} (clean : world.engine.wal.writeFile = ⟨true, []⟩)
    (failed : appendLog .faultless m world = .error status crashed) :
    crashed.disk = { world.disk with log := some (world.disk.log.getD []) } := by
  obtain ⟨wal, file, refused, rfl⟩ := appendLog_failed.mp failed
  rw [WAL.append_faultless _ _ _ clean] at refused
  split at refused
  · cases refused
  · cases refused
    rfl

section Recovery
variable (serving : Serving pf config unflushed world) (stored : Stored pf flushed world)
  (logged : Logged flushed unflushed world) (readable : Readable world.store)
include serving stored logged

include readable in
theorem recovers_kept {tail : Bytes} (short : ∀ m ∈ flushed ++ unflushed, m.payloadSize ≤ kMaxPayload)
    (torn : Torn tail) (isLog : disk.log = some (logBytes (flushed ++ unflushed) ++ tail))
    (installed : disk.checkpoints.installed = world.disk.checkpoints.installed)
    (tables : ∀ file ∈ world.engine.compactionManager.files,
      disk.tables file.filepath = world.disk.tables file.filepath) :
    Recovers pf config disk (flushed ++ unflushed) := by
  refine serving.recovers readable stored (logged.holds.log short) torn isLog ?_ tables
  rw [← logged.checkpoint, CheckpointManager.loadCheckpoint, CheckpointManager.loadCheckpoint, installed]

theorem recovers_flush (ready : Ready pf world) (short : ∀ m ∈ flushed ++ unflushed, m.payloadSize ≤ kMaxPayload)
    (crash : (flushMemTable pf .none).Crash world crashed) : Recovers pf config crashed.disk (flushed ++ unflushed) := by
  have readable := ready.readable serving.searchable
  by_cases empty : world.engine.activeMemtable.entries = []
  · obtain rfl := flushMemTable_crash_empty empty crash
    exact recovers_kept serving stored logged readable short torn_nil (by simpa using logged.log) rfl fun _ _ => rfl
  obtain ⟨log, ⟨installed, tables⟩ | ⟨installed, tables⟩⟩ := flushMemTable_crash empty serving.levels crash
  · refine recovers_kept serving stored logged readable short torn_nil (by simpa [log] using logged.log) installed
      fun file member => tables _ ?_
    rw [serving.configured]
    exact serving.unused file member _ le_rfl
  · have logged' : Logged (flushed ++ unflushed) []
        (afterFlush pf world (.ofMemTable world.engine.activeMemtable empty)) := logged.afterFlush _
    rw [← List.append_nil (flushed ++ unflushed)] at short ⊢
    refine recovers_kept (serving.afterFlush _) (stored.afterFlush serving empty) logged'
      ((ready.afterFlush empty).readable (serving.afterFlush _).searchable) short torn_nil ?_ installed
      fun file _ => congrFun tables file.filepath
    rw [log, List.append_nil]
    exact logged'.log

include readable in
theorem recovers_same (short : ∀ m ∈ flushed ++ unflushed, m.payloadSize ≤ kMaxPayload) :
    Recovers pf config world.disk (flushed ++ unflushed) :=
  recovers_kept serving stored logged readable short torn_nil (by simpa using logged.log) rfl fun _ _ => rfl

include readable in
theorem recovers_logged {m : Mutation} {lsn : Nat} {wal : WAL} {file : Bytes}
    (short : ∀ other ∈ flushed ++ unflushed ++ [m], other.payloadSize ≤ kMaxPayload)
    (appends : world.engine.wal.append .faultless (world.disk.log.getD []) (m.entry 0) = (.ok lsn, wal, file)) :
    Recovers pf config { world.disk with log := some file } (flushed ++ unflushed ++ [m]) := by
  have wrote : Wrote pf .faultless world [m] (afterWrite pf world m wal file) := .entry appends
  rw [List.append_assoc] at short ⊢
  exact recovers_same (wrote.serving serving) (wrote.stored stored) (wrote.logged logged) readable short

include readable in
theorem recovers_append {m : Mutation} (short : ∀ other ∈ flushed ++ unflushed ++ [m], other.payloadSize ≤ kMaxPayload)
    (crash : (Program.tearing (tornAppend m) (appendLog .faultless m)).Crash world crashed) :
    Recovers pf config crashed.disk (flushed ++ unflushed) ∨
      Recovers pf config crashed.disk (flushed ++ unflushed ++ [m]) := by
  have shortOld : ∀ other ∈ flushed ++ unflushed, other.payloadSize ≤ kMaxPayload :=
    fun other member => short other (List.mem_append_left _ member)
  rcases Program.crash_tearing crash with rfl | ⟨-, kept, proper, rfl⟩ | ⟨status, failed⟩ | ⟨⟨⟩, appended⟩
  · exact .inl (recovers_same serving stored logged readable shortOld)
  · refine .inl (recovers_kept serving stored logged readable shortOld ⟨m, _, kept, short m (by simp), proper, rfl⟩ ?_ rfl
      fun _ _ => rfl)
    rw [logged.log]
    rfl
  · rw [appendLog_error logged.holds.clean failed, logged.log, Option.getD_some, ← logged.log]
    exact .inl (recovers_same serving stored logged readable shortOld)
  · obtain ⟨lsn, wal, file, appends, rfl⟩ := appendLog_ok.mp appended
    exact .inr (recovers_logged serving stored logged readable short appends)

theorem recovers_write {m : Mutation} (sized : Sized pf world) (moderate : Moderate pf config [m])
    (short : ∀ other ∈ flushed ++ unflushed ++ [m], other.payloadSize ≤ kMaxPayload)
    (crash : (writeEntry pf .none .faultless m).Crash world crashed) :
    Recovers pf config crashed.disk (flushed ++ unflushed) ∨
      Recovers pf config crashed.disk (flushed ++ unflushed ++ [m]) := by
  have readable := sized.readable serving.searchable
  rcases Program.crash_bind crash with inside | ⟨⟨⟩, between, ran, crash⟩
  · exact recovers_append serving stored logged readable short inside
  rw [Program.run_tearing] at ran
  obtain ⟨lsn, wal, file, appends, rfl⟩ := appendLog_ok.mp ran
  right
  rcases Program.crash_atomic_bind (applyMutation_run m _) crash with rfl | crash
  · exact recovers_logged serving stored logged readable short appends
  split at crash
  · have wrote : Wrote pf .faultless world [m] (afterWrite pf world m wal file) := .entry appends
    rw [List.append_assoc] at short ⊢
    have ready := sized.wrote (serving.configured ▸ moderate.threshold) moderate.entry wrote
    exact recovers_flush (wrote.serving serving) (wrote.stored stored) (wrote.logged logged) ready short crash
  · obtain rfl := Program.crash_pure crash
    exact recovers_logged serving stored logged readable short appends

end Recovery

theorem runAll_logged {commands : List Command} (ran : runAll pf .faultless commands (fresh pf config) = .ok () world) :
    ∃ flushed unflushed, flushed ++ unflushed = written commands ∧ Serving pf config unflushed world ∧
      Stored pf flushed world ∧ Logged flushed unflushed world := by
  refine runAll_induction (P := fun commands world => ∃ flushed unflushed, flushed ++ unflushed = written commands ∧
    Serving pf config unflushed world ∧ Stored pf flushed world ∧ Logged flushed unflushed world)
    ⟨[], [], rfl, serving_fresh pf config, stored_fresh pf config, logged_fresh pf config⟩ ?_ ran
  rintro commands command between after ⟨flushed, unflushed, all, serving, stored, logged⟩ last
  rw [written_concat, ← all]
  obtain ⟨middle, wrote, rfl | ⟨nonempty, rfl⟩⟩ := serving.command_ok last
  · exact ⟨flushed, unflushed ++ command.mutations, by simp, wrote.serving serving, wrote.stored stored,
      wrote.logged logged⟩
  · refine ⟨flushed ++ (unflushed ++ command.mutations), [], by simp, (wrote.serving serving).afterFlush _,
      (wrote.stored stored).afterFlush (wrote.serving serving) nonempty, (wrote.logged logged).afterFlush _⟩

/-- After a crash anywhere inside a call, `Open` recovers all acknowledged writes, and the write in
flight wholly or not at all, as long as the tables stay within the limits of their format. -/
theorem crash_keeps_acknowledged {start : World} {commands : List Command} {command : Command}
    (opened : «open» pf config Disk.empty = .ok start.engine start.disk)
    (ran : runAll pf .faultless commands start = .ok () world)
    (short : ∀ m ∈ written (commands ++ [command]), m.payloadSize ≤ kMaxPayload)
    (moderate : Moderate pf config (written (commands ++ [command])))
    (crash : (command.program pf .none .faultless).Crash world crashed) :
    ∃ recovered, «open» pf config crashed.disk = .ok recovered.engine recovered.disk ∧ Readable recovered.store ∧
      ((∀ key, newestOf pf recovered key = newest BlockEntry.key (effects (written commands)) key) ∨
        ∀ key, newestOf pf recovered key =
          newest BlockEntry.key (effects (written commands ++ command.mutations)) key) := by
  obtain rfl := opened_eq_fresh opened
  obtain ⟨flushed, unflushed, all, serving, stored, logged⟩ := runAll_logged ran
  rw [written_concat] at moderate
  obtain ⟨-, sized⟩ := runAll_sized (moderate.part (by simp)) ran
  rw [written_concat, ← all] at short
  have recovers : Recovers pf config crashed.disk (flushed ++ unflushed) ∨
      Recovers pf config crashed.disk (flushed ++ unflushed ++ command.mutations) := by
    cases command with
    | put key value =>
      exact recovers_write serving stored logged sized (moderate.part (by simp [Command.mutations])) short crash
    | delete key =>
      exact recovers_write serving stored logged sized (moderate.part (by simp [Command.mutations])) short crash
    | flush =>
      rw [Command.mutations, List.append_nil] at short
      exact .inl (recovers_flush serving stored logged sized.toReady short crash)
  rw [← all]
  rcases recovers with ⟨recovered, reopened, readable, old⟩ | ⟨recovered, reopened, readable, new⟩
  · exact ⟨recovered, reopened, readable, .inl old⟩
  · exact ⟨recovered, reopened, readable, .inr new⟩

theorem crash_keeps_acknowledged_torn : ∃ start world crashed recovered,
    «open» .reference {} Disk.empty = .ok start.engine start.disk ∧
    runAll .reference .faultless [.put [1] [2]] start = .ok () world ∧
    (Command.program .reference .none .faultless (.delete [1])).Crash world crashed ∧
    crashed.disk.log ≠ world.disk.log ∧
    «open» .reference {} crashed.disk = .ok recovered.engine recovered.disk ∧ Readable recovered.store ∧
    (newestOf .reference recovered [1] = some ⟨[1], [2], false⟩ ∨
      newestOf .reference recovered [1] = some ⟨[1], [], true⟩) := by
  obtain ⟨world, ran⟩ := runAll_succeeds .reference {} [.put [1] [2]] (by rw [logBytes_length]; decide)
  obtain ⟨flushed, unflushed, -, -, -, logged⟩ := runAll_logged ran
  obtain ⟨part, isPart⟩ : ∃ part, part =
    (serializeEntry (Mutation.entry (.delete [1]) world.engine.wal.nextSequenceNumber)).take 1 := ⟨_, rfl⟩
  have length : part.length = 1 := by simp [isPart, serializeEntry_length, kWALHeaderSize, Mutation.payloadSize]
  have crash : (Command.program .reference .none .faultless (.delete [1])).Crash world
      { world with disk := { world.disk with log := some (world.disk.log.getD [] ++ part) } } :=
    .during ⟨by rw [logged.holds.clean], 1,
      by simp [serializeEntry_length, kWALHeaderSize, Mutation.payloadSize], by rw [isPart]⟩
  have moderate : Moderate .reference {} (written ([.put [1] [2]] ++ [.delete [1]])) :=
    ⟨⟨by decide, by decide⟩, by decide, by decide⟩
  obtain ⟨recovered, reopened, readable, newest⟩ := crash_keeps_acknowledged rfl ran (by decide) moderate crash
  refine ⟨_, world, _, recovered, rfl, ran, crash, ?_, reopened, readable, ?_⟩
  · rw [logged.log, Option.getD_some]
    intro same
    have := congrArg List.length (Option.some.inj same)
    simp [length] at this
  · exact newest.imp (fun old => old [1]) fun new => new [1]

end StorageEngine

end VectorDb.Storage
