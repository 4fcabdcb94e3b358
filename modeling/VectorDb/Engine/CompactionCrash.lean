import VectorDb.Engine.Lifetimes

namespace VectorDb.Storage
open Lib Common

namespace CompactionManager

variable {pf : Platform} {store merged crashed : Store} {newFiles : List SSTableMeta} {inputs : List Path}
  {stats : CompactionStats}

def Untouched (store crashed : Store) : Prop :=
  ∀ path ∈ store.manager.files.map SSTableMeta.filepath, crashed.tables path = store.tables path

def Dropped (crashed : Store) (path : Path) : Prop :=
  crashed.tables path = none ∧ path ∉ crashed.manager.files.map SSTableMeta.filepath

theorem registerFile_tables {file : SSTableMeta}
    (crash : (Program.atomic (registerFile file)).Crash store crashed) : crashed.tables = store.tables := by
  rcases Program.crash_atomic crash with rfl | ⟨status, failed⟩ | ⟨⟨⟩, registered⟩
  · rfl
  · cases added : store.manager.addFile file with
    | ok manager =>
      have registered : registerFile file store = .ok () { store with manager } :=
        Action.bind_ok.mpr ⟨manager, store, Action.reads_ok.mpr ⟨added, rfl⟩, rfl⟩
      simp [registered] at failed
    | error status =>
      simp only [registerFile, Bind.bind, EStateM.bind, Action.reads, added] at failed
      cases failed
      rfl
  · obtain ⟨-, rfl⟩ := registerFile_ok.mp registered
    rfl

theorem dropped_mem {paths : List Path} {path : Path} (dropped : path ∈ paths) :
    Dropped (paths.foldl dropFile store) path := by
  refine ⟨by rw [dropFiles_tables, if_pos dropped], ?_⟩
  rw [dropFiles_manager]
  intro listed
  obtain ⟨file, member, rfl⟩ := List.mem_map.mp listed
  simp [dropped] at member

theorem Dropped.uncatalogue {path other : Path} (dropped : Dropped store path) :
    Dropped { store with manager := store.manager.removeFile other } path :=
  ⟨dropped.1, fun listed => dropped.2 ((List.filter_sublist.map _).mem listed)⟩

theorem removal_crash {start : Store} (untouched : Untouched start store)
    (crash : (forM inputs fun path => do
      Program.atomic (uncatalogue path)
      Program.atomic (unlink path) : Program Status Store PUnit).Crash store crashed) :
    Untouched start crashed ∨ ∃ path ∈ inputs, Dropped crashed path := by
  obtain ⟨early, late, between, rfl, ran, falls⟩ := Program.crash_forM crash
  simp only [Program.run_bind, Program.run_atomic] at ran
  rw [dropFiles_eq] at ran
  cases ran
  have now : Untouched start (early.foldl dropFile store) ∨
      ∃ path ∈ early, Dropped (early.foldl dropFile store) path := by
    cases early with
    | nil => exact .inl untouched
    | cons path early => exact .inr ⟨path, List.mem_cons_self, dropped_mem List.mem_cons_self⟩
  have grow : (∃ path ∈ early, Dropped crashed path) → ∃ path ∈ early ++ late, Dropped crashed path :=
    fun ⟨path, member, dropped⟩ => ⟨path, List.mem_append_left _ member, dropped⟩
  rcases falls with rfl | ⟨path, rest, rfl, inside⟩
  · exact now.imp id grow
  rcases Program.crash_atomic_bind (show uncatalogue path _ = .ok () _ from rfl) inside with rfl | inside
  · exact now.imp id grow
  rcases Program.crash_atomic inside with rfl | ⟨status, failed⟩ | ⟨⟨⟩, unlinked⟩
  · exact now.imp id fun ⟨path, member, dropped⟩ => ⟨path, List.mem_append_left _ member, dropped.uncatalogue⟩
  · cases failed
  · cases unlinked
    have dropped : Dropped ((early ++ [path]).foldl dropFile store) path := dropped_mem (by simp)
    rw [List.foldl_append] at dropped
    exact .inr ⟨path, by simp, dropped⟩

theorem compactionSteps_crash (merges : mergeSelected pf .none store = .ok (newFiles, inputs, stats) merged)
    (unlisted : ∀ number ≥ store.manager.nextFileNumber, number + 1 < merged.manager.nextFileNumber →
      outputPath store.manager.dataDir (store.manager.pickCompactionLevel + 1) number ∉
        store.manager.files.map SSTableMeta.filepath)
    (crash : (compactionSteps pf .none).Crash store crashed) :
    Untouched store crashed ∨ ∃ path ∈ inputs, Dropped crashed path := by
  obtain ⟨level, sources, targets, picked, needed, selected, nonempty, merging, rfl⟩ := mergeSelected_merges merges
  obtain ⟨fileData, outs, -, -, outputs, rfl, -⟩ := mergeFiles_ok (numberInputs_ranks _ _) merging
  rw [picked] at unlisted
  have same : Untouched store merged := by
    intro path listed
    refine outputs.others path fun j bound isOutput => unlisted _ (Nat.le_add_right _ j) ?_ (isOutput ▸ listed)
    rw [outputs.manager]
    dsimp only
    omega
  rcases Program.crash_atomic_bind (Action.get_eq store) crash with rfl | crash
  · exact .inl fun _ _ => rfl
  simp only [picked, needed, selected, nonempty, if_false] at crash
  rcases Program.crash_tearing_bind merging crash with rfl | torn | crash
  · exact .inl fun _ _ => rfl
  · refine .inl fun path listed => torn path fun number drawn later isOutput => ?_
    rw [outputLimit_ok merging] at later
    exact unlisted number drawn (by omega) (isOutput ▸ listed)
  rcases Program.crash_bind crash with inside | ⟨⟨⟩, catalogued, registered, crash⟩
  · obtain ⟨early, late, between, -, ran, falls⟩ := Program.crash_forM inside
    simp only [Program.run_atomic] at ran
    obtain ⟨-, rfl⟩ := (registerFiles_ok _).mp ran
    rcases falls with rfl | ⟨file, rest, -, inside⟩
    · exact .inl same
    · rw [Untouched, registerFile_tables inside]
      exact .inl same
  · rw [Program.run_forM] at registered
    simp only [Program.run_atomic] at registered
    obtain ⟨-, rfl⟩ := (registerFiles_ok _).mp registered
    rcases Program.crash_bind crash with inside | ⟨⟨⟩, removed, removing, crash⟩
    · exact removal_crash (by exact same) inside
    · obtain rfl := Program.crash_pure crash
      simp only [Program.run_forM, Program.run_bind, Program.run_atomic, dropFiles_eq] at removing
      cases removing
      obtain ⟨file, rest, rfl⟩ := List.exists_cons_of_ne_nil nonempty
      have input : file.filepath ∈ (numberInputs (file :: rest) targets).map SSTableMeta.filepath := by
        simp [numberInputs_paths]
      exact .inr ⟨_, input, dropped_mem input⟩

theorem runCompaction_crash {final : Store} (ran : runCompaction pf .none store = .ok stats final)
    (unlisted : ∀ number ≥ store.manager.nextFileNumber, number + 1 < final.manager.nextFileNumber →
      outputPath store.manager.dataDir (store.manager.pickCompactionLevel + 1) number ∉
        store.manager.files.map SSTableMeta.filepath)
    (crash : (compactionSteps pf .none).Crash store crashed) :
    Untouched store crashed ∨ ∃ path ∈ store.manager.files.map SSTableMeta.filepath, Dropped crashed path := by
  obtain ⟨newFiles, inputs, merged, merges, levels, rfl⟩ := runCompaction_merged ran
  rw [dropFiles_manager, withFiles] at unlisted
  rcases compactionSteps_crash merges unlisted crash with untouched | ⟨path, input, dropped⟩
  · exact .inl untouched
  · obtain ⟨level, sources, targets, fileData, outs, run, rfl, rfl⟩ := mergeSelected_ok merges
    exact .inr ⟨path, (run.compaction levels).input_listed input, dropped⟩

theorem runCompaction_drops {final : Store} (ran : runCompaction pf .none store = .ok stats final) :
    ∃ path ∈ store.manager.files.map SSTableMeta.filepath, Dropped final path := by
  obtain ⟨level, sources, targets, fileData, outs, run⟩ := runCompaction_ok ran
  obtain ⟨file, rest, rfl⟩ := List.exists_cons_of_ne_nil run.nonempty
  have input : file.filepath ∈ (file :: rest ++ targets).map SSTableMeta.filepath := by simp
  refine ⟨_, run.input_listed input, run.dropped _ input, fun listed => ?_⟩
  rw [run.manager] at listed
  obtain ⟨other, member, same⟩ := List.mem_map.mp listed
  rw [List.mem_filter, same, decide_eq_true_eq] at member
  exact member.2 input

end CompactionManager

namespace StorageEngine
open CompactionManager

variable {pf : Platform} {config : StorageConfig} {world crashed : World} {disk : Disk} {life : Lifetime}

theorem searchTables_present {tables : Tables} (key : Bytes) {files : List SSTableMeta}
    (present : ∀ file ∈ files, ∃ table, tables file.filepath = some (.complete table)) :
    ∃ result, searchTables .none tables key files = .ok result := by
  induction files with
  | nil => exact ⟨none, rfl⟩
  | cons file files ih =>
    obtain ⟨table, complete⟩ := present file List.mem_cons_self
    have rest := ih fun other member => present other (List.mem_cons_of_mem _ member)
    rw [searchTables]
    split_ifs
    · exact rest
    · rw [openTable_none complete]
      simp only [Bind.bind, Except.bind]
      cases table.lookup key with
      | none => exact rest
      | some entry =>
        dsimp only
        split_ifs <;> exact ⟨_, rfl⟩

structure Survives (pf : Platform) (disk : Disk) : Prop where
  complete : ∃ checkpoint, CheckpointManager.loadCheckpoint disk.checkpoints = .ok checkpoint ∧
    ∀ file ∈ checkpoint.sstables, ∃ table, disk.tables file.filepath = some (.complete table)
  found : ∀ (config : StorageConfig) (world : World), «open» pf config disk = .ok world.engine world.disk →
    ∀ key, ∃ result, get pf .none world key = .ok result

theorem survives_of_complete {checkpoint : Checkpoint}
    (loaded : CheckpointManager.loadCheckpoint disk.checkpoints = .ok checkpoint)
    (complete : ∀ file ∈ checkpoint.sstables, ∃ table, disk.tables file.filepath = some (.complete table)) :
    Survives pf disk := by
  refine ⟨⟨checkpoint, loaded, complete⟩, fun config world opens key => ?_⟩
  obtain ⟨checkpoint', opened⟩ := opened_of_ok opens
  cases opened.loaded.symm.trans loaded
  have sorted : ∀ file ∈ pf.sort searchedBefore checkpoint.sstables,
      ∃ table, disk.tables file.filepath = some (.complete table) :=
    fun file member => complete file ((pf.mem_sort _ _ _).mp member)
  obtain ⟨result, searched⟩ := searchTables_present key sorted
  have tables : getFromSSTables pf .none world.store key = .ok result := by
    rw [getFromSSTables, World.store, opened.manager, opened.disk]
    exact searched
  rw [get, tables]
  split
  · exact ⟨_, rfl⟩
  · split <;> exact ⟨_, rfl⟩

def NoneDeleted (start crashed : World) : Prop :=
  ∀ file ∈ start.engine.compactionManager.files, crashed.disk.tables file.filepath ≠ none

def Renamed (crashed : World) : Prop :=
  ∃ lsn, crashed.disk.checkpoints.installed = some (.complete ⟨lsn, crashed.engine.compactionManager.files⟩)

theorem compactionPass_crash {stats : CompactionStats} {store : Store}
    (needed : world.engine.compactionManager.needsCompaction = true)
    (ran : runCompaction pf .none world.store = .ok stats store)
    (crash : (compactionPass pf .none).Crash world crashed) :
    (∃ between, (compactionSteps pf .none).Crash world.store between ∧ crashed = world.withStore between) ∨
      ∃ files, crashed = (world.withStore store).withCheckpoints files ∧
        (files.installed = world.disk.checkpoints.installed ∨
          files.installed = some (.complete ⟨world.engine.wal.currentSequenceNumber, store.manager.files⟩)) := by
  rcases Program.crash_atomic_bind (Action.get_eq world) crash with rfl | crash
  · exact .inl ⟨_, .before _ _, rfl⟩
  rw [if_pos needed] at crash
  rcases Program.crash_bind crash with inside | ⟨result, compacted, attempted, crash⟩
  · obtain ⟨between, inner, rfl⟩ := Program.crash_zoom World.store_withStore World.withStore_withStore
      World.withStore_store (Program.crash_attempt inside)
    exact .inl ⟨between, inner, rfl⟩
  right
  rw [compactionSteps_attempt ran] at attempted
  cases attempted
  rcases Program.crash_atomic_bind (captureLsn_run _) crash with rfl | crash
  · exact ⟨_, rfl, .inl rfl⟩
  rcases Program.crash_atomic_bind (Action.get_eq _) crash with rfl | crash
  · exact ⟨_, rfl, .inl rfl⟩
  rcases Program.crash_bind crash with inside | ⟨result, saved, attempted, crash⟩
  · obtain ⟨files, rfl, installed⟩ := saveCheckpoint_crash (Program.crash_attempt inside)
    exact ⟨files, rfl, installed⟩
  · rw [Program.run_attempt, Action.attempt_of_ok (saveCheckpoint_run _ _)] at attempted
    cases attempted
    obtain rfl := Program.crash_pure crash
    exact ⟨_, rfl, .inr rfl⟩

theorem Backed.survives {sstDir : Path} (backed : Backed sstDir disk) : Survives pf disk :=
  have ⟨_, _, _, loaded, complete⟩ := backed
  survives_of_complete loaded complete

section OldCheckpoint
variable {sstDir : Path} (identified : Identified sstDir life)
  (installed : disk.checkpoints.installed = life.world.disk.checkpoints.installed)
include identified installed

theorem loads_catalogue : ∃ lsn, CheckpointManager.loadCheckpoint disk.checkpoints =
    .ok ⟨lsn, life.world.engine.compactionManager.files⟩ := by
  obtain ⟨lsn, listed⟩ := identified.listed
  refine ⟨lsn, ?_⟩
  rw [← listed, CheckpointManager.loadCheckpoint, CheckpointManager.loadCheckpoint, installed]

theorem backed_same (same : ∀ path ∈ life.world.engine.compactionManager.files.map SSTableMeta.filepath,
    disk.tables path = life.world.disk.tables path) : Backed sstDir disk := by
  obtain ⟨lsn, loaded⟩ := loads_catalogue identified installed
  refine ⟨life, lsn, identified, loaded, fun file member => ?_⟩
  obtain ⟨table, complete⟩ := identified.present file member
  exact ⟨table, (same _ (List.mem_map_of_mem member)).trans complete⟩

end OldCheckpoint

theorem noneDeleted_untouched {sstDir : Path} (identified : Identified sstDir life)
    (untouched : Untouched life.world.store crashed.store) : NoneDeleted life.world crashed := by
  intro file member deleted
  obtain ⟨table, complete⟩ := identified.present file member
  have same : crashed.disk.tables file.filepath = life.world.disk.tables file.filepath :=
    untouched _ (List.mem_map_of_mem member)
  rw [← same, deleted] at complete
  cases complete

theorem dropped_lost {sstDir : Path} {path : Path} (identified : Identified sstDir life)
    (installed : crashed.disk.checkpoints.installed = life.world.disk.checkpoints.installed)
    (listed : path ∈ life.world.engine.compactionManager.files.map SSTableMeta.filepath)
    (dropped : Dropped crashed.store path) :
    ¬ Survives pf crashed.disk ∧ ¬ (NoneDeleted life.world crashed ∨ Renamed crashed) := by
  obtain ⟨lsn, loaded⟩ := loads_catalogue identified installed
  obtain ⟨file, member, rfl⟩ := List.mem_map.mp listed
  have deleted : crashed.disk.tables file.filepath = none := dropped.1
  constructor
  · intro survives
    obtain ⟨checkpoint, loaded', complete⟩ := survives.complete
    cases loaded.symm.trans loaded'
    obtain ⟨table, complete⟩ := complete file member
    simp [deleted] at complete
  · rintro (noneDeleted | ⟨lsn', renamed⟩)
    · exact noneDeleted file member deleted
    · rw [CheckpointManager.loadCheckpoint, renamed] at loaded
      have files : crashed.engine.compactionManager.files = life.world.engine.compactionManager.files :=
        congrArg Checkpoint.sstables (Except.ok.inj loaded)
      exact dropped.2 (List.mem_map_of_mem (files ▸ member))

theorem Identified.crash_compaction {sstDir : Path} (identified : Identified sstDir life)
    (unused : Act.Unused pf life (.work .compaction)) (crash : (compactionPass pf .none).Crash life.world crashed) :
    (Backed sstDir crashed.disk ∧ (NoneDeleted life.world crashed ∨ Renamed crashed)) ∨
      ¬ Survives pf crashed.disk ∧ ¬ (NoneDeleted life.world crashed ∨ Renamed crashed) := by
  cases needed : life.world.engine.compactionManager.needsCompaction with
  | false =>
    have same : crashed = life.world := by
      rcases Program.crash_atomic_bind (Action.get_eq _) crash with same | crash
      · exact same
      · rw [needed] at crash
        exact Program.crash_pure crash
    subst same
    exact .inl ⟨identified.backed, .inl (noneDeleted_untouched identified fun _ _ => rfl)⟩
  | true =>
    obtain ⟨stats, store, ran⟩ := identified.compacts needed
    have draws := unused _ (compactionPass_run needed ran)
    have new := ((identified.writesNew_iff (.compacted ran)).mpr draws).merged
    rcases compactionPass_crash needed ran crash with ⟨between, inside, rfl⟩ | ⟨files, rfl, old | renamed⟩
    · rcases runCompaction_crash ran new inside with untouched | ⟨path, listed, dropped⟩
      · exact .inl ⟨backed_same identified rfl untouched, .inl (noneDeleted_untouched identified untouched)⟩
      · exact .inr (dropped_lost identified rfl listed dropped)
    · obtain ⟨path, listed, dropped⟩ := runCompaction_drops ran
      exact .inr (dropped_lost identified old listed dropped)
    · have after := identified.compact ran new
      exact .inl ⟨backed_same after renamed fun _ _ => rfl, .inr ⟨_, renamed⟩⟩

/-- What happens to the engine: an act, or a crash inside a call or a compaction pass and an `Open`. -/
inductive Happening where
  | does (act : Act)
  | crash (event : Event) (memtableSizeBytes : Nat)

/-- The step of a happening that draws no number of a restored file. A crash inside a compaction pass
comes before the first deletion or after the rename. -/
def Happening.Step (pf : Platform) (before : Lifetime) : Happening → Lifetime → Prop
  | does act, after => guarded (Act.Unused pf) (Act.Step pf) before act after
  | crash event memtableSizeBytes, after => Act.Unused pf before (.work event) ∧
    ∃ crashed, (event.program pf .none .faultless).Crash before.world crashed ∧
      (event = .compaction → NoneDeleted before.world crashed ∨ Renamed crashed) ∧
      «open» pf { before.world.engine.config with memtableSizeBytes } crashed.disk =
        .ok after.world.engine after.world.disk ∧ after.restored = after.world.engine.compactionManager.files

theorem writeEntry_crash {m : Mutation} (crash : (writeEntry pf .none .faultless m).Crash world crashed) :
    (crashed.disk.tables = world.disk.tables ∧ crashed.disk.checkpoints = world.disk.checkpoints) ∨
      ∃ between, Wrote pf .faultless world [m] between ∧
        (writeEntry pf .none .faultless m).run world = (flushMemTable pf .none).run between ∧
        (flushMemTable pf .none).Crash between crashed := by
  rcases Program.crash_bind crash with inside | ⟨⟨⟩, logged, ran, crash⟩
  · left
    rcases Program.crash_tearing inside with rfl | ⟨-, kept, proper, rfl⟩ | ⟨status, failed⟩ | ⟨⟨⟩, appended⟩
    · exact ⟨rfl, rfl⟩
    · exact ⟨rfl, rfl⟩
    · obtain ⟨wal, file, -, rfl⟩ := appendLog_failed.mp failed
      exact ⟨rfl, rfl⟩
    · obtain ⟨lsn, wal, file, -, rfl⟩ := appendLog_ok.mp appended
      exact ⟨rfl, rfl⟩
  rw [Program.run_tearing] at ran
  obtain ⟨lsn, wal, file, appended, rfl⟩ := appendLog_ok.mp ran
  rcases Program.crash_atomic_bind (applyMutation_run m _) crash with rfl | crash
  · exact .inl ⟨rfl, rfl⟩
  split at crash
  next full =>
    refine .inr ⟨_, .entry appended, ?_, crash⟩
    rw [writeEntry_run appended, if_pos (of_decide_eq_true full)]
  next =>
    obtain rfl := Program.crash_pure crash
    exact .inl ⟨rfl, rfl⟩

theorem Command.crash_cases {command : Command} (crash : (command.program pf .none .faultless).Crash world crashed) :
    (crashed.disk.tables = world.disk.tables ∧ crashed.disk.checkpoints = world.disk.checkpoints) ∨
      ∃ ms between, Wrote pf .faultless world ms between ∧
        (command.program pf .none .faultless).run world = (flushMemTable pf .none).run between ∧
        (flushMemTable pf .none).Crash between crashed := by
  cases command with
  | put key value => exact (writeEntry_crash crash).imp id fun ⟨between, rest⟩ => ⟨_, between, rest⟩
  | delete key => exact (writeEntry_crash crash).imp id fun ⟨between, rest⟩ => ⟨_, between, rest⟩
  | flush => exact .inr ⟨[], world, .nothing, rfl, crash⟩

theorem Identified.crash_call {sstDir : Path} {command : Command} (identified : Identified sstDir life)
    (unused : Act.Unused pf life (.work (.call command)))
    (crash : (command.program pf .none .faultless).Crash life.world crashed) : Backed sstDir crashed.disk := by
  rcases command.crash_cases crash with ⟨tables, checkpoints⟩ | ⟨ms, between, wrote, runs, crash⟩
  · exact backed_same identified (congrArg CheckpointFiles.installed checkpoints) fun path _ => congrFun tables path
  have kept : Identified sstDir ⟨between, life.restored⟩ := identified.write wrote
  by_cases empty : between.engine.activeMemtable.entries = []
  · obtain rfl := flushMemTable_crash_empty empty crash
    exact kept.backed
  have levels : 0 < between.engine.compactionManager.maxLevel := kept.maxLevel.ge.trans_lt' (by decide)
  have draws := unused _ (runs.trans (flushMemTable_run pf empty levels))
  have worked : Worked pf life.world _ := .flushed empty wrote
  obtain ⟨-, ⟨installed, tables⟩ | ⟨installed, tables⟩⟩ := flushMemTable_crash empty levels crash
  · have new := Identified.flush_unlisted wrote ((identified.writesNew_iff worked).mpr draws)
    refine backed_same kept installed fun path listed => tables path ?_
    rintro rfl
    exact new listed
  · exact backed_same (identified.work worked draws) installed fun path _ => congrFun tables path

theorem Identified.happens {sstDir : Path} {happening : Happening} {after : Lifetime}
    (identified : Identified sstDir life) (step : happening.Step pf life after) : Identified sstDir after := by
  cases happening with
  | does act => exact identified.step step
  | crash event memtableSizeBytes =>
    obtain ⟨unused, crashed, crash, outside, opens, restores⟩ := step
    have backed : Backed sstDir crashed.disk := by
      cases event with
      | call command => exact identified.crash_call unused crash
      | compaction =>
        rcases identified.crash_compaction unused crash with ⟨backed, -⟩ | ⟨-, inside⟩
        · exact backed
        · exact absurd (outside rfl) inside
    exact backed.opens (by exact identified.configured) opens restores

theorem Identified.of_happenings {happenings : List Happening}
    (run : Trace (Happening.Step pf) ⟨StorageEngine.fresh pf config, []⟩ happenings life) :
    Identified config.sstDir life :=
  run.induct (P := fun _ life => Identified config.sstDir life) (Identified.fresh pf config)
    fun _ _ _ _ _ identified step => identified.happens step

theorem compaction_crash_iff {happenings : List Happening}
    (run : Trace (Happening.Step pf) ⟨fresh pf config, []⟩ happenings life)
    (unused : Act.Unused pf life (.work .compaction)) (crash : (compactionPass pf .none).Crash life.world crashed) :
    Survives pf crashed.disk ↔ NoneDeleted life.world crashed ∨ Renamed crashed := by
  rcases (Identified.of_happenings run).crash_compaction unused crash with ⟨backed, outside⟩ | ⟨lost, inside⟩
  · exact ⟨fun _ => outside, fun _ => backed.survives⟩
  · exact ⟨fun survives => absurd survives lost, fun outside => absurd outside inside⟩

theorem first_lifetime {events : List Event} (run : Trace (Event.Step pf) (fresh pf config) events world) :
    Trace (Happening.Step pf) ⟨fresh pf config, []⟩ (events.map fun event => .does (.work event)) ⟨world, []⟩ := by
  refine run.induct (P := fun events world => Trace (Happening.Step pf) ⟨fresh pf config, []⟩
    (events.map fun event => .does (.work event)) ⟨world, []⟩) .nil fun events before event after _ earlier next => ?_
  rw [List.map_append]
  exact .snoc earlier ⟨fun _ _ => ⟨by simp, by simp⟩, after, next, rfl⟩

theorem compactionPass_crash_inside {store : Store} (needed : world.engine.compactionManager.needsCompaction = true)
    (crash : (compactionSteps pf .none).Crash world.store store) :
    (compactionPass pf .none).Crash world (world.withStore store) := by
  refine .after (Action.get_eq world) ?_
  rw [Program.bind, if_pos needed]
  exact (Program.Crash.zoom World.store_withStore World.withStore_withStore World.withStore_store crash).attempt.bind _

theorem AllHold.writes_output {entry : BlockEntry} {newFiles : List SSTableMeta} {inputs : List Path} {merged : Store}
    {stats : CompactionStats} (hold : AllHold entry world) (named : entry.key ≠ []) (live : entry.isTombstone = false)
    (merges : mergeSelected pf .none world.store = .ok (newFiles, inputs, stats) merged)
    (levels : ∀ file ∈ newFiles, 0 ≤ file.level ∧ file.level < merged.manager.maxLevel) : newFiles ≠ [] := by
  obtain ⟨level, sources, targets, fileData, outs, run, rfl, -⟩ := mergeSelected_ok merges
  have compaction := run.compaction levels
  obtain ⟨lo, hi, selection⟩ := compaction.selection
  obtain ⟨first, rest, rfl⟩ := List.exists_cons_of_ne_nil run.nonempty
  have latest : latestInput world.disk.tables (first :: rest) targets entry.key = some entry := by
    have version := (hold first (selection.source first (by simp)).1).2 entry.key
    rw [latestInput, List.cons_append, List.findSome?_cons, version, find_cons, if_pos rfl]
  obtain ⟨table, output, -⟩ := compaction.output_holds.mpr ⟨named, by simp [kept, live], latest⟩
  intro none
  have : outs = [] := by simpa [outputMetasFrom] using none
  simp [this] at output

private theorem four_tables : ∃ world stats store, Trace (Happening.Step .reference) ⟨fresh .reference {}, []⟩
      ((rewrites [1] [2] 4).map fun event => .does (.work event)) ⟨world, []⟩ ∧
    AllHold ⟨[1], [2], false⟩ world ∧ world.engine.compactionManager.needsCompaction = true ∧
    runCompaction .reference .none world.store = .ok stats store := by
  obtain ⟨world, run, resting, hold, count⟩ := rewrites_run .reference {} [1] [2] 4
    (by rw [logBytes_length]; decide) (by decide)
  have needed := hold.needs (by rw [count]; decide)
  obtain ⟨stats, store, ran⟩ := resting.serving.compacts needed
  exact ⟨world, stats, store, first_lifetime run.unguarded, hold, needed, ran⟩

theorem compaction_crash_torn : ∃ life crashed path, Trace (Happening.Step .reference) ⟨fresh .reference {}, []⟩
      ((rewrites [1] [2] 4).map fun event => .does (.work event)) life ∧
    (compactionPass .reference .none).Crash life.world crashed ∧ crashed.disk.tables path = some (.torn [7]) ∧
    Survives .reference crashed.disk := by
  obtain ⟨world, stats, store, run, hold, needed, ran⟩ := four_tables
  obtain ⟨newFiles, inputs, merged, merges, levels, -⟩ := runCompaction_merged ran
  obtain ⟨level, torn⟩ := compactionSteps_torn merges (hold.writes_output (by simp) rfl merges levels) [7]
  have crash := compactionPass_crash_inside needed torn
  refine ⟨⟨world, []⟩, _, _, run, crash, Function.update_self _ _ _,
    (compaction_crash_iff run (fun _ _ => ⟨by simp, by simp⟩) crash).mpr (.inl fun file member => ?_)⟩
  obtain ⟨table, present⟩ := (Identified.of_happenings run).present file member
  change Function.update world.disk.tables _ _ file.filepath ≠ none
  rw [Function.update_apply]
  split_ifs
  · simp
  · exact Option.ne_none_iff_exists'.mpr ⟨_, present⟩

/-- A crash between `RunCompaction` and `SaveCheckpoint`: the checkpoint lists the deleted inputs. -/
theorem compaction_crash_loses : ∃ life crashed, Trace (Happening.Step .reference) ⟨fresh .reference {}, []⟩
      ((rewrites [1] [2] 4).map fun event => .does (.work event)) life ∧
    (compactionPass .reference .none).Crash life.world crashed ∧ ¬ Survives .reference crashed.disk := by
  obtain ⟨world, stats, store, run, -, needed, ran⟩ := four_tables
  obtain ⟨path, listed, dropped⟩ := runCompaction_drops ran
  have crash : (compactionPass .reference .none).Crash world (world.withStore store) := by
    refine .after (Action.get_eq world) ?_
    rw [Program.bind, if_pos needed]
    exact .bind_after (compactionSteps_attempt ran) (.before _ _)
  have lost : ¬ Survives .reference (world.withStore store).disk ∧ _ :=
    dropped_lost (Identified.of_happenings run) rfl listed dropped
  exact ⟨⟨world, []⟩, _, run, crash, lost.1⟩

end StorageEngine

end VectorDb.Storage
