import VectorDb.Compaction.Renumbering
import VectorDb.Engine.CompactedReads
import VectorDb.Engine.CompactionCrash

namespace VectorDb.Storage
open Lib Common CompactionManager

theorem Searchable.congr {store : Store} {tables : Tables} (searchable : Searchable store)
    (same : ∀ file ∈ store.manager.files, tables file.filepath = store.tables file.filepath) :
    Searchable { store with tables } where
  recorded file member := by
    obtain ⟨table, recorded⟩ := searchable.recorded file member
    exact ⟨table, (same file member).trans recorded.1, recorded.2⟩
  paths := searchable.paths
  ungenerated := searchable.ungenerated
  levels := searchable.levels
  apart := searchable.apart
  named := searchable.named
  stamps := searchable.stamps

namespace StorageEngine

variable {pf : Platform} {config : StorageConfig} {sstDir : Path} {world world' crashed : World} {disk : Disk}
  {life after : Lifetime} {restored : List SSTableMeta} {flushed unflushed : List Mutation}

def catalogued (sstDir : Path) (disk : Disk) (files : List SSTableMeta) (number : Nat) : Store :=
  ⟨disk.tables, ⟨sstDir, leveled.kNumLevels, files, number⟩⟩

structure Safe (pf : Platform) (sstDir : Path) (flushed unflushed : List Mutation) (disk : Disk) : Prop where
  log : disk.log = some (logBytes (flushed ++ unflushed))
  room : (logBytes (flushed ++ unflushed)).length ≤ maxFileSize
  checkpoint : ∃ files number, CheckpointManager.loadCheckpoint disk.checkpoints = .ok ⟨flushed.length, files⟩ ∧
    Searchable (catalogued sstDir disk files number) ∧ ModestFiles (catalogued sstDir disk files number) ∧
    ∀ key, (newestEntry pf (catalogued sstDir disk files number) key).bind BlockEntry.visible =
      (newest BlockEntry.key (effects flushed) key).bind BlockEntry.visible

structure Enduring (pf : Platform) (sstDir : Path) (flushed unflushed : List Mutation) (life : Lifetime) : Prop where
  identified : Identified sstDir life
  -- `next_file_number_` starts at 1 in each lifetime, below the numbers of the restored files
  searchable : ∃ number, Searchable (life.world.store.renumbered number)
  active : life.world.engine.activeMemtable.entries = replay BlockEntry.key (effects unflushed) []
  immutable : life.world.engine.immutableMemtable = none
  modest : ModestFiles life.world.store
  shown : Shown pf flushed life.world
  logged : Logged flushed unflushed life.world

theorem Safe.opens (safe : Safe pf sstDir flushed unflushed disk) (identified : Identified sstDir after)
    (short : ∀ m ∈ flushed ++ unflushed, m.payloadSize ≤ kMaxPayload)
    (opens : «open» pf config disk = .ok after.world.engine after.world.disk) :
    Enduring pf sstDir flushed unflushed after := by
  obtain ⟨files, number, loaded, searchable, modest, shown⟩ := safe.checkpoint
  have log : LogFile (flushed ++ unflushed) := ⟨short, safe.room⟩
  have isLog : disk.log = some (logBytes (flushed ++ unflushed) ++ []) := by rw [safe.log, List.append_nil]
  have opened : «open» pf config disk = .ok _ disk := open_ok log torn_nil isLog loaded searchable.levels
  rw [opened] at opens
  injection opens with engine kept
  obtain ⟨⟨disk', engine'⟩, restored⟩ := after
  obtain rfl : disk = disk' := kept
  obtain rfl : _ = engine' := engine
  refine ⟨identified, ⟨number, ?_⟩, ?_, rfl, modest, shown, ?_, by simp [safe.log], loaded⟩
  · obtain rfl : config.sstDir = sstDir := identified.configured
    exact searchable
  · rw [MemTable.entries_applyAll_new, List.drop_left]
    rfl
  · dsimp only
    rw [safe.log]
    exact WAL.holds_open log

def FlushesNew (world : World) : Prop :=
  flushPath world.engine.config.sstDir world.engine.nextSstSequence ∉
      world.engine.compactionManager.files.map SSTableMeta.filepath ∧
    ∀ file ∈ world.engine.compactionManager.files, file.level = 0 →
      file.sequenceNumber < world.engine.nextSstSequence

theorem Wrote.dataSize_le {device : Device} {ms : List Mutation} (wrote : Wrote pf device world ms world')
    (short : ∀ m ∈ ms, m.payloadSize ≤ kMaxPayload) (light : dataSize world.engine.activeMemtable.entries ≤ 2 ^ 29) :
    dataSize world'.engine.activeMemtable.entries ≤ 2 ^ 30 := by
  cases wrote with
  | nothing => omega
  | @entry m =>
    have small := m.encodedSize_effect_le.trans (short m (List.mem_singleton_self m))
    have grows : dataSize (upsert BlockEntry.key m.effect world.engine.activeMemtable.entries) ≤
        dataSize world.engine.activeMemtable.entries + m.effect.encodedSize := load_upsert_le _ _ _ _
    rw [afterWrite, MemTable.entries_apply]
    simp only [kMaxPayload] at small
    omega

theorem WritesNew.flushesNew {ms : List Mutation} {table : SSTable}
    (new : WritesNew life.world (afterFlush pf world table)) (wrote : Wrote pf .faultless life.world ms world) :
    FlushesNew world := by
  cases wrote with
  | nothing => exact new.flushed (Nat.succ_ne_self _)
  | entry => exact new.flushed (Nat.succ_ne_self _)

namespace Enduring

theorem fresh (pf : Platform) (config : StorageConfig) :
    Enduring pf config.sstDir [] [] ⟨StorageEngine.fresh pf config, []⟩ where
  identified := .fresh pf config
  searchable := ⟨1, (serving_fresh pf config).searchable⟩
  active := (serving_fresh pf config).active
  immutable := rfl
  modest := (sized_fresh pf config).files
  shown key := by rw [stored_fresh pf config key]
  logged := logged_fresh pf config

theorem active_eq_nil (enduring : Enduring pf sstDir flushed unflushed life) :
    life.world.engine.activeMemtable.entries = [] ↔ unflushed = [] := by
  rw [enduring.active, replay_eq_nil, effects, List.map_eq_nil_iff]

theorem levels (enduring : Enduring pf sstDir flushed unflushed life) :
    0 < life.world.engine.compactionManager.maxLevel := by
  rw [enduring.identified.maxLevel]
  decide

theorem leaves (enduring : Enduring pf sstDir flushed unflushed life) (log : disk.log = life.world.disk.log)
    (installed : disk.checkpoints.installed = life.world.disk.checkpoints.installed)
    (tables : ∀ file ∈ life.world.engine.compactionManager.files,
      disk.tables file.filepath = life.world.disk.tables file.filepath) :
    Safe pf sstDir flushed unflushed disk := by
  obtain ⟨number, searchable⟩ := enduring.searchable
  have store : { life.world.store.renumbered number with tables := disk.tables } =
      catalogued sstDir disk life.world.engine.compactionManager.files number := by
    rw [catalogued, ← enduring.identified.dataDir, ← enduring.identified.maxLevel]
    rfl
  refine ⟨log.trans enduring.logged.log, enduring.logged.holds.room, _, number, ?_, store ▸ searchable.congr tables,
    enduring.modest.congr (by rfl) tables, fun key => ?_⟩
  · rw [← enduring.logged.checkpoint, CheckpointManager.loadCheckpoint, CheckpointManager.loadCheckpoint, installed]
  · rw [← store, ← enduring.shown key]
    exact congrArg (Option.bind · BlockEntry.visible) (newestEntry_congr pf (by rfl) (by exact tables) key)

theorem layered (enduring : Enduring pf sstDir flushed unflushed life) : Layered pf flushed unflushed life.world :=
  have ⟨_, searchable⟩ := enduring.searchable
  ⟨enduring.active, enduring.immutable, searchable.recorded, enduring.shown⟩

theorem write {ms : List Mutation} (enduring : Enduring pf sstDir flushed unflushed ⟨world, restored⟩)
    (wrote : Wrote pf .faultless world ms world') : Enduring pf sstDir flushed (unflushed ++ ms) ⟨world', restored⟩ := by
  refine ⟨enduring.identified.write wrote, ?_, ?_, ?_, ?_, wrote.shown enduring.shown, wrote.logged enduring.logged⟩
  all_goals cases wrote
  · exact enduring.searchable
  · exact enduring.searchable
  · simpa using enduring.active
  · rw [effects_append, replay_append, ← enduring.active]
    exact MemTable.entries_apply pf _ _
  · exact enduring.immutable
  · exact enduring.immutable
  · exact enduring.modest
  · exact enduring.modest

theorem active_modest (enduring : Enduring pf sstDir flushed unflushed ⟨world, restored⟩)
    (nonempty : world.engine.activeMemtable.entries ≠ []) (short : ∀ m ∈ unflushed, m.payloadSize ≤ kMaxPayload)
    (light : dataSize world.engine.activeMemtable.entries ≤ 2 ^ 30) :
    (SSTable.ofMemTable world.engine.activeMemtable nonempty).Modest := by
  refine ⟨fun e member => ?_, light⟩
  have logged : e ∈ replay BlockEntry.key (effects unflushed) [] := enduring.active ▸ member
  obtain ⟨m, inside, rfl⟩ := List.mem_map.mp ((mem_replay _ logged).resolve_right (by simp))
  have within := (m.encodedSize_effect_le).trans (short m inside)
  simp only [kMaxPayload] at within
  omega

theorem flush (enduring : Enduring pf sstDir flushed unflushed ⟨world, restored⟩)
    (nonempty : world.engine.activeMemtable.entries ≠ []) (new : FlushesNew world)
    (short : ∀ m ∈ unflushed, m.payloadSize ≤ kMaxPayload)
    (light : dataSize world.engine.activeMemtable.entries ≤ 2 ^ 30) :
    Enduring pf sstDir (flushed ++ unflushed) []
      ⟨afterFlush pf world (.ofMemTable world.engine.activeMemtable nonempty), restored⟩ := by
  obtain ⟨unlisted, order⟩ := new
  obtain ⟨number, searchable⟩ := enduring.searchable
  have identified := enduring.identified
  have directory : world.engine.config.sstDir = world.engine.compactionManager.dataDir :=
    identified.configured.trans identified.dataDir.symm
  have isFlushed : Flushed (world.store.renumbered number) (flushMeta world.engine.config.sstDir
      (.ofMemTable world.engine.activeMemtable nonempty) world.engine.nextSstSequence)
      (.ofMemTable world.engine.activeMemtable nonempty) := by
    refine ⟨rfl, rfl, rfl, unlisted, fun level deep drawn _ => ?_⟩
    change flushPath world.engine.config.sstDir _ ≠ outputPath world.engine.compactionManager.dataDir _ _
    rw [← directory]
    exact flushPath_ne_outputPath _ _ deep drawn
  have after := searchable.register isFlushed order enduring.levels
  have modest := enduring.modest.register (flushMeta world.engine.config.sstDir
    (.ofMemTable world.engine.activeMemtable nonempty) world.engine.nextSstSequence)
    (enduring.active_modest nonempty short light)
  refine ⟨identified.flush _ unlisted, ⟨number, after⟩, MemTable.entries_new pf, rfl, modest, fun key => ?_,
    enduring.logged.afterFlush _⟩
  have lookup : newestEntry pf (afterFlush pf world (.ofMemTable world.engine.activeMemtable nonempty)).store key =
      (find BlockEntry.key world.engine.activeMemtable.entries key).or (newestEntry pf world.store key) :=
    newestEntry_register searchable isFlushed order after key
  rw [lookup, enduring.layered.find_active, effects_append, newest_append]
  exact or_visible _ (enduring.shown key)

theorem compact {stats : CompactionStats} {store : Store} (enduring : Enduring pf sstDir flushed [] ⟨world, restored⟩)
    (ran : runCompaction pf .none world.store = .ok stats store)
    (new : ∀ number ≥ world.engine.compactionManager.nextFileNumber, number + 1 < store.manager.nextFileNumber →
      outputPath world.engine.compactionManager.dataDir (world.engine.compactionManager.pickCompactionLevel + 1)
        number ∉ world.engine.compactionManager.files.map SSTableMeta.filepath)
    (takes : world.engine.compactionManager.pickCompactionLevel = 0 → ∀ key, MergeTakesNewest pf world.store key) :
    Enduring pf sstDir flushed [] ⟨afterCompaction world store, restored⟩ := by
  obtain ⟨number, searchable⟩ := enduring.searchable
  obtain ⟨level, sources, targets, fileData, outs, run⟩ := runCompaction_ok ran
  have unlisted : CompactionRun.Unlisted world.store level outs := by
    intro j bound
    have next : store.manager.nextFileNumber = world.engine.compactionManager.nextFileNumber + outs.length + 1 := by
      rw [run.manager]
      rfl
    rw [← run.picked]
    exact new _ (Nat.le_add_right _ _) (by simp only [World.store]; omega)
  refine ⟨enduring.identified.compact ran new, ⟨_, run.searchable_after Faults.lossless_none searchable unlisted⟩, enduring.active,
    enduring.immutable, runCompaction_modest enduring.modest ran, fun key => ?_, enduring.logged.holds,
    enduring.logged.created, ?_⟩
  · rw [← enduring.shown key]
    exact run.visible_renumbered Faults.lossless_none searchable unlisted fun zero => takes (run.picked.trans zero) key
  · have count := enduring.logged.holds.currentSequenceNumber_eq
    rw [List.append_nil] at count
    rw [← count]
    rfl

theorem event {event : Event} (enduring : Enduring pf sstDir flushed unflushed life)
    (harmless : Harmless pf life.world event) (unused : DrawsUnused life.restored life.world world)
    (short : ∀ m ∈ unflushed ++ event.mutations, m.payloadSize ≤ kMaxPayload)
    (light : dataSize life.world.engine.activeMemtable.entries ≤ 2 ^ 29) (step : event.Step pf life.world world) :
    ∃ flushed' unflushed', flushed' ++ unflushed' = flushed ++ unflushed ++ event.mutations ∧
      Enduring pf sstDir flushed' unflushed' ⟨world, life.restored⟩ := by
  cases event with
  | call command =>
    obtain ⟨between, wrote, rfl | ⟨nonempty, rfl⟩⟩ := command.run_cases enduring.levels step
    · exact ⟨flushed, unflushed ++ command.mutations, (List.append_assoc _ _ _).symm, enduring.write wrote⟩
    · have new := (enduring.identified.writesNew_iff (.flushed nonempty wrote)).mpr unused
      exact ⟨flushed ++ (unflushed ++ command.mutations), [], by simp [Event.mutations],
        (enduring.write wrote).flush nonempty (new.flushesNew wrote) short
          (wrote.dataSize_le (fun m member => short m (List.mem_append_right _ member)) light)⟩
  | compaction =>
    refine ⟨flushed, unflushed, (List.append_nil _).symm, ?_⟩
    cases needed : life.world.engine.compactionManager.needsCompaction with
    | false =>
      cases (compactionPass_unneeded needed).symm.trans step
      exact enduring
    | true =>
      obtain ⟨stats, store, ran⟩ := enduring.identified.compacts needed
      cases (compactionPass_run needed ran).symm.trans step
      obtain ⟨empty, takes⟩ := harmless needed
      obtain rfl := enduring.active_eq_nil.mp empty
      exact enduring.compact ran ((enduring.identified.writesNew_iff (.compacted ran)).mpr unused).merged takes

theorem crash_flush {program : Program Status World Unit} {ms : List Mutation}
    (enduring : Enduring pf sstDir flushed unflushed life)
    (unused : ∀ worked, program.run life.world = .ok () worked → DrawsUnused life.restored life.world worked)
    (short : ∀ m ∈ unflushed ++ ms, m.payloadSize ≤ kMaxPayload)
    (light : dataSize life.world.engine.activeMemtable.entries ≤ 2 ^ 29) (wrote : Wrote pf .faultless life.world ms world)
    (runs : program.run life.world = (flushMemTable pf .none).run world)
    (crash : (flushMemTable pf .none).Crash world crashed) :
    ∃ flushed' unflushed', flushed' ++ unflushed' = flushed ++ unflushed ++ ms ∧
      Safe pf sstDir flushed' unflushed' crashed.disk := by
  have written := enduring.write wrote
  by_cases empty : world.engine.activeMemtable.entries = []
  · obtain rfl := flushMemTable_crash_empty empty crash
    exact ⟨flushed, unflushed ++ ms, (List.append_assoc _ _ _).symm, written.leaves rfl rfl fun _ _ => rfl⟩
  have draws := unused _ (runs.trans (flushMemTable_run pf empty written.levels))
  have new := ((enduring.identified.writesNew_iff (.flushed empty wrote)).mpr draws).flushesNew wrote
  obtain ⟨log, ⟨installed, tables⟩ | ⟨installed, tables⟩⟩ := flushMemTable_crash empty written.levels crash
  · refine ⟨flushed, unflushed ++ ms, (List.append_assoc _ _ _).symm,
      written.leaves log installed fun file member => tables _ fun same => ?_⟩
    exact new.1 (same ▸ List.mem_map_of_mem member)
  · have light := wrote.dataSize_le (fun m member => short m (List.mem_append_right _ member)) light
    exact ⟨flushed ++ (unflushed ++ ms), [], by simp, (written.flush empty new short light).leaves log installed
      fun file _ => congrFun tables file.filepath⟩

theorem crash_write {m : Mutation} (enduring : Enduring pf sstDir flushed unflushed life)
    (unused : ∀ worked, (writeEntry pf .none .faultless m).run life.world = .ok () worked →
      DrawsUnused life.restored life.world worked)
    (short : ∀ other ∈ unflushed ++ [m], other.payloadSize ≤ kMaxPayload)
    (light : dataSize life.world.engine.activeMemtable.entries ≤ 2 ^ 29)
    (uncut : crashed.disk.log.getD [] = life.world.disk.log.getD [] ∨ crashed.disk.log.getD [] =
      life.world.disk.log.getD [] ++ serializeEntry (m.entry life.world.engine.wal.nextSequenceNumber))
    (crash : (writeEntry pf .none .faultless m).Crash life.world crashed) :
    ∃ ms flushed' unflushed', (ms = [] ∨ ms = [m]) ∧ flushed' ++ unflushed' = flushed ++ unflushed ++ ms ∧
      Safe pf sstDir flushed' unflushed' crashed.disk := by
  rcases Program.crash_bind crash with inside | ⟨⟨⟩, logged, ran, crash⟩
  · rcases Program.crash_tearing inside with rfl | ⟨-, kept, proper, rfl⟩ | ⟨status, failed⟩ | ⟨⟨⟩, appended⟩
    · exact ⟨[], flushed, unflushed, .inl rfl, (List.append_nil _).symm, enduring.leaves rfl rfl fun _ _ => rfl⟩
    · -- Part of a record is nothing of it, since it is not the whole.
      have same : life.world.disk.log.getD [] ++ _ = _ := uncut.resolve_right fun whole => by
        have length := congrArg List.length (List.append_cancel_left whole)
        rw [List.length_take] at length
        omega
      refine ⟨[], flushed, unflushed, .inl rfl, (List.append_nil _).symm, enduring.leaves ?_ rfl fun _ _ => rfl⟩
      exact (congrArg some same).trans (by rw [enduring.logged.log]; rfl)
    · refine ⟨[], flushed, unflushed, .inl rfl, (List.append_nil _).symm, enduring.leaves ?_ ?_ fun _ _ => ?_⟩
      all_goals rw [appendLog_error enduring.logged.holds.clean failed]
      rw [enduring.logged.log]
      rfl
    · obtain ⟨lsn, wal, file, appends, rfl⟩ := appendLog_ok.mp appended
      have wrote : Wrote pf .faultless life.world [m] _ := .entry appends
      exact ⟨[m], flushed, unflushed ++ [m], .inr rfl, (List.append_assoc _ _ _).symm,
        (enduring.write wrote).leaves rfl rfl fun _ _ => rfl⟩
  rw [Program.run_tearing] at ran
  obtain ⟨lsn, wal, file, appends, rfl⟩ := appendLog_ok.mp ran
  have wrote : Wrote pf .faultless life.world [m] _ := .entry appends
  have written : Enduring pf sstDir flushed (unflushed ++ [m]) ⟨_, life.restored⟩ := enduring.write wrote
  rcases Program.crash_atomic_bind (applyMutation_run m _) crash with rfl | crash
  · exact ⟨[m], flushed, unflushed ++ [m], .inr rfl, (List.append_assoc _ _ _).symm,
      written.leaves rfl rfl fun _ _ => rfl⟩
  split at crash
  next full =>
    have runs : (writeEntry pf .none .faultless m).run life.world =
        (flushMemTable pf .none).run (afterWrite pf life.world m wal file) := by
      rw [writeEntry_run appends, if_pos (of_decide_eq_true full)]
    obtain ⟨flushed', unflushed', all, safe⟩ := enduring.crash_flush unused short light wrote runs crash
    exact ⟨[m], flushed', unflushed', .inr rfl, all, safe⟩
  next =>
    obtain rfl := Program.crash_pure crash
    exact ⟨[m], flushed, unflushed ++ [m], .inr rfl, (List.append_assoc _ _ _).symm,
      written.leaves rfl rfl fun _ _ => rfl⟩

theorem crash_compaction (enduring : Enduring pf sstDir flushed unflushed life)
    (harmless : Harmless pf life.world .compaction) (unused : Act.Unused pf life (.work .compaction))
    (outside : NoneDeleted life.world crashed ∨ Renamed crashed)
    (crash : (compactionPass pf .none).Crash life.world crashed) :
    Safe pf sstDir flushed unflushed crashed.disk := by
  have identified := enduring.identified
  cases needed : life.world.engine.compactionManager.needsCompaction with
  | false =>
    have same : crashed = life.world := by
      rcases Program.crash_atomic_bind (Action.get_eq _) crash with same | crash
      · exact same
      · rw [needed] at crash
        exact Program.crash_pure crash
    subst same
    exact enduring.leaves rfl rfl fun _ _ => rfl
  | true =>
    obtain ⟨stats, store, ran⟩ := identified.compacts needed
    have draws := unused _ (compactionPass_run needed ran)
    have new := ((identified.writesNew_iff (.compacted ran)).mpr draws).merged
    rcases compactionPass_crash needed ran crash with ⟨between, inside, rfl⟩ | ⟨files, rfl, old | renamed⟩
    · rcases runCompaction_crash ran new inside with untouched | ⟨path, listed, dropped⟩
      · exact enduring.leaves rfl rfl fun file member => untouched _ (List.mem_map_of_mem member)
      · have lost : ¬ Survives pf (life.world.withStore between).disk ∧ _ := dropped_lost identified rfl listed dropped
        exact absurd outside lost.2
    · obtain ⟨path, listed, dropped⟩ := runCompaction_drops ran
      have lost : ¬ Survives pf ((life.world.withStore store).withCheckpoints files).disk ∧ _ :=
        dropped_lost identified old listed dropped
      exact absurd outside lost.2
    · obtain ⟨empty, takes⟩ := harmless needed
      obtain rfl := enduring.active_eq_nil.mp empty
      exact (enduring.compact ran new takes).leaves rfl renamed fun _ _ => rfl

end Enduring

namespace Happening

def event : Happening → Event
  | does (.work event) => event
  | does (.reopen _) => .call .flush
  | crash event _ => event

/-- The mutations that a happening leaves behind. A crash may take those of its call with it. -/
def Leaves : Happening → List Mutation → Prop
  | does act, ms => ms = (does act).event.mutations
  | crash event _, ms => ms = [] ∨ ms = event.mutations

/-- A crash cuts no record: the log has what it had, or the record of the call as well. -/
def Uncut (before : Lifetime) : Happening → Lifetime → Prop
  | does _, _ => True
  | crash event _, after => after.world.disk.log.getD [] = before.world.disk.log.getD [] ∨
    ∃ m ∈ event.mutations, after.world.disk.log.getD [] = before.world.disk.log.getD [] ++
      serializeEntry (m.entry before.world.engine.wal.nextSequenceNumber)

/-- The steps after which nothing acknowledged is missing. A MemTable of at most half a GiB makes a table that reads
back. -/
def Lossless (pf : Platform) (before : Lifetime) (happening : Happening) (after : Lifetime) : Prop :=
  happening.Step pf before after ∧ Harmless pf before.world happening.event ∧ happening.Uncut before after ∧
    dataSize before.world.engine.activeMemtable.entries ≤ 2 ^ 29

end Happening

theorem Enduring.crash_event {event : Event} (enduring : Enduring pf sstDir flushed unflushed life)
    (harmless : Harmless pf life.world event) (unused : Act.Unused pf life (.work event))
    (short : ∀ m ∈ unflushed ++ event.mutations, m.payloadSize ≤ kMaxPayload)
    (light : dataSize life.world.engine.activeMemtable.entries ≤ 2 ^ 29)
    (outside : event = .compaction → NoneDeleted life.world crashed ∨ Renamed crashed)
    (uncut : crashed.disk.log.getD [] = life.world.disk.log.getD [] ∨ ∃ m ∈ event.mutations, crashed.disk.log.getD [] =
      life.world.disk.log.getD [] ++ serializeEntry (m.entry life.world.engine.wal.nextSequenceNumber))
    (crash : (event.program pf .none .faultless).Crash life.world crashed) :
    ∃ ms flushed' unflushed', (ms = [] ∨ ms = event.mutations) ∧ flushed' ++ unflushed' = flushed ++ unflushed ++ ms ∧
      Safe pf sstDir flushed' unflushed' crashed.disk := by
  have sole : ∀ m, event.mutations = [m] → crashed.disk.log.getD [] = life.world.disk.log.getD [] ∨
      crashed.disk.log.getD [] = life.world.disk.log.getD [] ++
        serializeEntry (m.entry life.world.engine.wal.nextSequenceNumber) := by
    intro m only
    simpa [only] using uncut
  match event with
  | .call (.put key value) => exact enduring.crash_write unused short light (sole _ rfl) crash
  | .call (.delete key) => exact enduring.crash_write unused short light (sole _ rfl) crash
  | .call .flush =>
    obtain ⟨flushed', unflushed', all, safe⟩ := enduring.crash_flush unused short light .nothing rfl crash
    exact ⟨[], flushed', unflushed', .inl rfl, all, safe⟩
  | .compaction =>
    exact ⟨[], flushed, unflushed, .inl rfl, (List.append_nil _).symm,
      enduring.crash_compaction harmless unused (outside rfl) crash⟩

theorem Enduring.happens {happening : Happening} (enduring : Enduring pf sstDir flushed unflushed life)
    (short : ∀ m ∈ flushed ++ unflushed ++ happening.event.mutations, m.payloadSize ≤ kMaxPayload)
    (step : happening.Lossless pf life after) :
    ∃ ms flushed' unflushed', happening.Leaves ms ∧ flushed' ++ unflushed' = flushed ++ unflushed ++ ms ∧
      Enduring pf sstDir flushed' unflushed' after := by
  obtain ⟨step, harmless, uncut, light⟩ := step
  have recent : ∀ m ∈ unflushed ++ happening.event.mutations, m.payloadSize ≤ kMaxPayload :=
    fun m member => short m (by rw [List.append_assoc]; exact List.mem_append_right _ member)
  have identified := enduring.identified.happens step
  match happening with
  | .does (.work event) =>
    obtain ⟨unused, worked, ran, rfl⟩ := step
    exact ⟨_, (enduring.event harmless (unused worked ran) recent light ran).imp fun _ ⟨_, all, next⟩ => ⟨_, rfl, all, next⟩⟩
  | .does (.reopen memtableSizeBytes) =>
    obtain ⟨unused, worked, ran, opens, -⟩ := step
    -- The close is a flush, and `Open` reads what that has left.
    have flushes : Event.Step pf life.world (.call .flush) worked := (close_eq enduring.levels).symm.trans ran
    obtain ⟨flushed', unflushed', all, closed⟩ := enduring.event harmless (unused worked ran) recent light flushes
    have safe : Safe pf sstDir flushed' unflushed' worked.disk := closed.leaves rfl rfl fun _ _ => rfl
    exact ⟨_, flushed', unflushed', rfl, all, safe.opens identified (all ▸ short) opens⟩
  | .crash event memtableSizeBytes =>
    obtain ⟨unused, crashed, crash, outside, opens, -⟩ := step
    obtain ⟨checkpoint, opened⟩ := opened_of_ok opens
    have log : after.world.disk.log.getD [] = crashed.disk.log.getD [] := by rw [opened.disk, Option.getD_some]
    rw [Happening.Uncut, log] at uncut
    obtain ⟨ms, flushed', unflushed', leaves, all, safe⟩ := enduring.crash_event harmless unused recent light outside uncut crash
    have within : ∀ m ∈ flushed' ++ unflushed', m.payloadSize ≤ kMaxPayload := by
      intro m member
      rw [all, List.mem_append] at member
      refine short m (List.mem_append.mpr (member.imp id fun new => ?_))
      rcases leaves with rfl | rfl
      · cases new
      · exact new
    exact ⟨ms, flushed', unflushed', leaves, all, safe.opens identified within opens⟩

theorem mem_of_leaves {happenings : List Happening} {left : List (List Mutation)} {m : Mutation}
    (leaves : List.Forall₂ Happening.Leaves happenings left) (member : m ∈ left.flatten) :
    m ∈ happenings.flatMap fun happening => happening.event.mutations := by
  induction leaves with
  | nil => cases member
  | @cons happening ms happenings left leaves rest ih =>
    rw [List.flatten_cons, List.mem_append] at member
    rw [List.flatMap_cons, List.mem_append]
    refine member.imp (fun here => ?_) ih
    cases happening with
    | does act => exact leaves ▸ here
    | crash event memtableSizeBytes =>
      rcases leaves with rfl | rfl
      · cases here
      · exact here

theorem run_enduring {happenings : List Happening}
    (run : Trace (Happening.Lossless pf) ⟨fresh pf config, []⟩ happenings life)
    (short : ∀ m ∈ happenings.flatMap fun happening => happening.event.mutations, m.payloadSize ≤ kMaxPayload) :
    ∃ left flushed unflushed, List.Forall₂ Happening.Leaves happenings left ∧ flushed ++ unflushed = left.flatten ∧
      Enduring pf config.sstDir flushed unflushed life := by
  induction run with
  | nil => exact ⟨[], [], [], .nil, rfl, .fresh pf config⟩
  | snoc before step ih =>
    rw [List.flatMap_append, List.flatMap_singleton] at short
    obtain ⟨left, flushed, unflushed, leaves, all, enduring⟩ := ih fun m member =>
      short m (List.mem_append_left _ member)
    obtain ⟨ms, flushed', unflushed', last, all', enduring'⟩ := enduring.happens (by
      rw [all]
      exact fun m member => short m (List.mem_append.mpr ((List.mem_append.mp member).imp (mem_of_leaves leaves) id)))
      step
    refine ⟨left ++ [ms], flushed', unflushed', List.rel_append leaves (.cons last .nil), ?_, enduring'⟩
    rw [all', all, List.flatten_append, List.flatten_singleton]

/-- Over any number of lifetimes, ended by clean closes or by crashes, with flushes and merges of every level
in each, `Get` gives the newest of what the calls have left behind, unless the MemTable hides a value of the
tables. A call that returned has left its mutation behind. -/
theorem lifetimes_durable {start : World} {happenings : List Happening}
    (opened : «open» pf config Disk.empty = .ok start.engine start.disk)
    (run : Trace (Happening.Lossless pf) ⟨start, []⟩ happenings life)
    (short : ∀ m ∈ happenings.flatMap fun happening => happening.event.mutations, m.payloadSize ≤ kMaxPayload) :
    ∃ left, List.Forall₂ Happening.Leaves happenings left ∧ ∀ key,
      getBytes pf life.world key =
          some (.ok ((newest BlockEntry.key (effects left.flatten) key).bind BlockEntry.visible)) ↔
        ¬ DeletedOverTables pf life.world key := by
  obtain rfl := opened_eq_fresh opened
  obtain ⟨left, flushed, unflushed, leaves, all, enduring⟩ := run_enduring run short
  refine ⟨left, leaves, fun key => ?_⟩
  rw [getBytes_eq (enduring.modest.readable enduring.layered.recorded), Option.some.injEq, ← all]
  exact enduring.layered.get_iff key

theorem lifetimes_durable_torn : ∃ before life,
    Trace (Happening.Lossless .reference) ⟨fresh .reference {}, []⟩
      [.does (.work (.call (.put [1] [2])))] ⟨before, []⟩ ∧
    Trace (Happening.Lossless .reference) ⟨fresh .reference {}, []⟩
      [.does (.work (.call (.put [1] [2]))), .crash (.call .flush) 0] life ∧
    life.world.disk.tables (flushFile before) = some (.torn [7]) ∧
    getBytes .reference life.world [1] = some (.ok (some [2])) := by
  obtain ⟨world, ran, serving, -, -, store⟩ := (resting_fresh .reference {}).write (.put [1] [2])
    (by rw [logBytes_length]; decide) (by decide)
  have first : Trace (Happening.Lossless .reference) ⟨fresh .reference {}, []⟩
      [.does (.work (.call (.put [1] [2])))] ⟨world, []⟩ :=
    .snoc .nil ⟨⟨fun _ _ => ⟨by simp, by simp⟩, world, ran, rfl⟩, trivial, trivial, by simp [fresh]⟩
  have short : ∀ m ∈ [Mutation.put [1] [2]], m.payloadSize ≤ kMaxPayload := by decide
  obtain ⟨left, flushed, unflushed, leaves, all, enduring⟩ := run_enduring first short
  have log : LogFile (flushed ++ unflushed) :=
    enduring.logged.holds.log fun m member => short m (mem_of_leaves leaves (all ▸ member))
  have filled : ¬ world.engine.activeMemtable.isEmpty = true := fun empty =>
    serving.active_eq_nil.not.mpr (by simp) ((MemTable.isEmpty_iff _).mp empty)
  obtain ⟨crashed, crash, isLog, checkpoints, torn⟩ : ∃ crashed,
      (flushMemTable .reference .none).Crash world crashed ∧ crashed.disk.log = world.disk.log ∧
      crashed.disk.checkpoints = world.disk.checkpoints ∧
      crashed.disk.tables (flushFile world) = some (.torn [7]) := by
    refine ⟨_, .after (swapMemTables_filled .reference filled) <| .after (captureLsn_run _) <|
      .after (drawSstSequence_run _) <| .after (Action.get_eq _) <| .during ⟨[7], rfl⟩, rfl, rfl, ?_⟩
    exact Function.update_self _ _ _
  have none : world.engine.compactionManager.files = [] := congrArg (fun store : Store => store.manager.files) store
  obtain ⟨engine, opens, opened⟩ := opens_log .reference { world.engine.config with memtableSizeBytes := 0 } log
    (isLog.trans enduring.logged.log) (checkpoints ▸ enduring.logged.checkpoint) (by simp [none])
  have light : dataSize world.engine.activeMemtable.entries ≤ 2 ^ 29 := by
    rw [serving.active]
    decide
  have run : Trace (Happening.Lossless .reference) ⟨fresh .reference {}, []⟩
      [.does (.work (.call (.put [1] [2]))), .crash (.call .flush) 0]
      ⟨⟨crashed.disk, engine⟩, engine.compactionManager.files⟩ :=
    .snoc first ⟨⟨fun _ _ => ⟨by simp, by simp⟩, crashed, crash, by simp, opens, rfl⟩, trivial,
      .inl (congrArg (Option.getD · []) isLog), light⟩
  obtain ⟨kept, leaves, got⟩ := lifetimes_durable rfl run (by decide)
  have shown : ¬ DeletedOverTables .reference ⟨crashed.disk, engine⟩ [1] := by
    rintro ⟨-, found⟩
    apply found
    rw [getFromSSTables, World.store, opened.manager, none]
    rfl
  refine ⟨world, _, first, run, torn, ?_⟩
  rw [(got [1]).mpr shown]
  obtain _ | ⟨one, _ | ⟨two, _ | _⟩⟩ := leaves
  obtain rfl := one
  rcases two with rfl | rfl <;> rfl

end StorageEngine

end VectorDb.Storage
