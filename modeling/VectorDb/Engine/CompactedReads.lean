import VectorDb.Engine.CheckpointInvariant
import VectorDb.Engine.Lifetimes
import VectorDb.Engine.Reads
import VectorDb.Wal.Scanners

namespace VectorDb.Storage
open Lib Common CompactionManager

namespace StorageEngine

variable {pf : Platform} {config : StorageConfig} {world world' : World} {flushed unflushed : List Mutation}

def KeepsNewest (pf : Platform) (world : World) : Event → Prop
  | .call _ => True
  | .compaction => world.engine.compactionManager.needsCompaction = true →
    world.engine.compactionManager.pickCompactionLevel = 0 → ∀ key, MergeTakesNewest pf world.store key

def Event.command : Event → Option Command
  | call command => some command
  | compaction => none

def calls (events : List Event) : List Command := events.filterMap Event.command

theorem written_calls (events : List Event) : written (calls events) = logged events := by
  induction events with
  | nil => rfl
  | cons event events ih =>
    cases event with
    | call command => simpa [calls, Event.command, written, logged, Event.mutations] using ih
    | compaction => exact ih

theorem plainMap_calls {events : List Event} (all : flushed ++ unflushed = logged events) (key : Bytes) :
    plainMap (calls events) key =
      (newest BlockEntry.key (effects (flushed ++ unflushed)) key).bind BlockEntry.visible := by
  rw [plainMap_eq, written_calls, ← all]

structure Listed (flushed unflushed : List Mutation) (world : World) : Prop where
  holds : world.engine.wal.Holds (world.disk.log.getD []) (flushed ++ unflushed)
  created : world.disk.log.isSome
  checkpoint : ∃ lsn, CheckpointManager.loadCheckpoint world.disk.checkpoints =
    .ok ⟨lsn, world.engine.compactionManager.files⟩ ∧ (unflushed = [] → lsn = flushed.length)

namespace Listed

theorem log (listed : Listed flushed unflushed world) : world.disk.log = some (logBytes (flushed ++ unflushed)) := by
  obtain ⟨file, isFile⟩ := Option.isSome_iff_exists.mp listed.created
  rw [isFile, ← listed.holds.contents, isFile, Option.getD_some]

theorem wrote {ms : List Mutation} (listed : Listed flushed unflushed world)
    (wrote : Wrote pf .faultless world ms world') : Listed flushed (unflushed ++ ms) world' := by
  refine ⟨?_, wrote.created listed.created, ?_⟩
  · rw [← List.append_assoc]
    exact wrote.holds listed.holds
  · obtain ⟨lsn, loaded, exact⟩ := listed.checkpoint
    cases wrote with
    | nothing => exact ⟨lsn, loaded, fun empty => exact (List.append_eq_nil_iff.mp empty).1⟩
    | entry => exact ⟨lsn, loaded, fun empty => by simp at empty⟩

theorem afterFlush (listed : Listed flushed unflushed world) (table : SSTable) :
    Listed (flushed ++ unflushed) [] (StorageEngine.afterFlush pf world table) := by
  refine ⟨?_, listed.created, ⟨_, rfl, fun _ => listed.holds.currentSequenceNumber_eq⟩⟩
  rw [List.append_nil]
  exact listed.holds

theorem afterCompaction (listed : Listed flushed unflushed world) (store : Store) :
    Listed flushed unflushed (StorageEngine.afterCompaction world store) := by
  refine ⟨listed.holds, listed.created, ⟨_, rfl, ?_⟩⟩
  rintro rfl
  have count := listed.holds.currentSequenceNumber_eq
  rwa [List.append_nil] at count

end Listed

structure Displays (pf : Platform) (config : StorageConfig) (flushed unflushed : List Mutation) (world : World) :
    Prop where
  serving : Serving pf config unflushed world
  shown : Shown pf flushed world
  listed : Listed flushed unflushed world

theorem displays_fresh (pf : Platform) (config : StorageConfig) : Displays pf config [] [] (fresh pf config) := by
  refine ⟨serving_fresh pf config, fun key => ?_, holds_fresh pf config, rfl, 0, rfl, fun _ => rfl⟩
  rw [stored_fresh pf config key]

namespace Displays

theorem afterFlush (displays : Displays pf config flushed unflushed world)
    (nonempty : world.engine.activeMemtable.entries ≠ []) : Displays pf config (flushed ++ unflushed) []
      (StorageEngine.afterFlush pf world (.ofMemTable world.engine.activeMemtable nonempty)) :=
  ⟨displays.serving.afterFlush _, displays.shown.afterFlush displays.serving nonempty, displays.listed.afterFlush _⟩

theorem wrote {ms : List Mutation} (displays : Displays pf config flushed unflushed world)
    (wrote : Wrote pf .faultless world ms world') : Displays pf config flushed (unflushed ++ ms) world' :=
  ⟨wrote.serving displays.serving, wrote.shown displays.shown, displays.listed.wrote wrote⟩

theorem afterCompaction {store : Store} {stats : CompactionStats} (displays : Displays pf config flushed unflushed world)
    (ran : runCompaction pf .none world.store = .ok stats store)
    (takes : world.engine.compactionManager.pickCompactionLevel = 0 → ∀ key, MergeTakesNewest pf world.store key) :
    Displays pf config flushed unflushed (StorageEngine.afterCompaction world store) :=
  ⟨displays.serving.afterCompaction ran, displays.shown.afterCompaction displays.serving ran takes,
    displays.listed.afterCompaction store⟩

theorem event {event : Event} (displays : Displays pf config flushed unflushed world)
    (keeps : KeepsNewest pf world event) (step : event.Step pf world world') :
    ∃ flushed' unflushed', flushed' ++ unflushed' = flushed ++ unflushed ++ event.mutations ∧
      Displays pf config flushed' unflushed' world' := by
  cases event with
  | call command =>
    obtain ⟨between, wrote, rfl | ⟨nonempty, rfl⟩⟩ := displays.serving.command_ok step
    · exact ⟨flushed, unflushed ++ command.mutations, (List.append_assoc _ _ _).symm, displays.wrote wrote⟩
    · exact ⟨flushed ++ (unflushed ++ command.mutations), [], by simp [Event.mutations],
        (displays.wrote wrote).afterFlush nonempty⟩
  | compaction =>
    refine ⟨flushed, unflushed, (List.append_nil _).symm, ?_⟩
    obtain ⟨-, rfl⟩ | ⟨needed, stats, store, ran, rfl⟩ := displays.serving.compaction_ok step
    · exact displays
    · exact displays.afterCompaction ran (keeps needed)

theorem flush (displays : Displays pf config flushed unflushed world) :
    ∃ world', (flushMemTable pf .none).run world = .ok () world' ∧
      Displays pf config (flushed ++ unflushed) [] world' := by
  by_cases empty : world.engine.activeMemtable.entries = []
  · obtain rfl := displays.serving.active_eq_nil.mp empty
    rw [List.append_nil]
    exact ⟨world, flushMemTable_empty pf empty, displays⟩
  · exact ⟨_, flushMemTable_run pf empty displays.serving.levels, displays.afterFlush empty⟩

end Displays

theorem trace_displays {events : List Event}
    (run : Trace (guarded (KeepsNewest pf) (Event.Step pf)) (fresh pf config) events world) :
    ∃ flushed unflushed, flushed ++ unflushed = logged events ∧ Displays pf config flushed unflushed world := by
  refine run.induct (P := fun events world => ∃ flushed unflushed, flushed ++ unflushed = logged events ∧
    Displays pf config flushed unflushed world) ⟨[], [], rfl, displays_fresh pf config⟩ ?_
  rintro events before event after - ⟨flushed, unflushed, all, displays⟩ ⟨keeps, step⟩
  rw [logged_concat, ← all]
  exact displays.event keeps step

theorem trace_succeeds (pf : Platform) (config : StorageConfig) (events : List Event)
    (room : (logBytes (logged events)).length ≤ maxFileSize) :
    ∃ world, Trace (Event.Step pf) (fresh pf config) events world := by
  induction events using List.reverseRecOn with
  | nil => exact ⟨_, .nil⟩
  | append_singleton events event ih =>
    rw [logged_concat] at room
    obtain ⟨before, run⟩ := ih ((logBytes_length_le _ _).trans room)
    obtain ⟨flushed, unflushed, -, serving, holds, -⟩ := trace_serving run
    cases event with
    | call command =>
      obtain ⟨⟨⟩, after, ran⟩ := command.succeeds serving.levels holds room
      exact ⟨after, .snoc run ran⟩
    | compaction =>
      cases needed : before.engine.compactionManager.needsCompaction with
      | false => exact ⟨before, .snoc run (compactionPass_unneeded needed)⟩
      | true =>
        obtain ⟨stats, store, ran⟩ := serving.compacts needed
        exact ⟨_, .snoc run (compactionPass_run needed ran)⟩

def DeletedOverTables (pf : Platform) (world : World) (key : Bytes) : Prop :=
  (∃ entry, find BlockEntry.key world.engine.activeMemtable.entries key = some entry ∧ entry.visible = none) ∧
    getFromSSTables pf .none world.store key ≠ .ok none

structure Layered (pf : Platform) (flushed unflushed : List Mutation) (world : World) : Prop where
  active : world.engine.activeMemtable.entries = replay BlockEntry.key (effects unflushed) []
  immutable : world.engine.immutableMemtable = none
  recorded : ∀ file ∈ world.engine.compactionManager.files, ∃ table, Recorded world.disk.tables file table
  shown : Shown pf flushed world

namespace Layered

theorem find_active (layered : Layered pf flushed unflushed world) (key : Bytes) :
    find BlockEntry.key world.engine.activeMemtable.entries key = newest BlockEntry.key (effects unflushed) key := by
  rw [layered.active, find_replay, find_nil, Option.or_none]

theorem getFromSSTables_eq (layered : Layered pf flushed unflushed world) (key : Bytes) :
    getFromSSTables pf .none world.store key =
      .ok ((newest BlockEntry.key (effects flushed) key).bind BlockEntry.visible) := by
  rw [getFromSSTables_recorded pf (by exact layered.recorded), layered.shown key]

theorem get_eq (layered : Layered pf flushed unflushed world) (key : Bytes) :
    get pf .none world key = .ok (((newest BlockEntry.key (effects unflushed) key).bind BlockEntry.visible).or
      ((newest BlockEntry.key (effects flushed) key).bind BlockEntry.visible)) := by
  rw [get, MemTable.get_eq, layered.find_active, layered.immutable, layered.getFromSSTables_eq]
  cases (newest BlockEntry.key (effects unflushed) key).bind BlockEntry.visible <;> rfl

theorem deletedOverTables (layered : Layered pf flushed unflushed world) (key : Bytes) :
    DeletedOverTables pf world key ↔
      (newest BlockEntry.key (effects flushed) key).bind BlockEntry.visible ≠ none ∧
        ((newest BlockEntry.key (effects unflushed) key).or (newest BlockEntry.key (effects flushed) key)).bind
          BlockEntry.visible = none := by
  rw [DeletedOverTables, layered.find_active, layered.getFromSSTables_eq, ne_eq, Except.ok.injEq, and_comm]
  refine and_congr_right fun live => ?_
  cases newest BlockEntry.key (effects unflushed) key with
  | none => simpa using live
  | some entry => simp

theorem get_iff (layered : Layered pf flushed unflushed world) (key : Bytes) :
    get pf .none world key =
        .ok ((newest BlockEntry.key (effects (flushed ++ unflushed)) key).bind BlockEntry.visible) ↔
      ¬ DeletedOverTables pf world key := by
  rw [layered.get_eq, layered.deletedOverTables, effects_append, newest_append, Except.ok.injEq]
  exact visible_or_iff _ _

theorem get_flushed (layered : Layered pf flushed [] world) (key : Bytes) :
    get pf .none world key = .ok ((newest BlockEntry.key (effects flushed) key).bind BlockEntry.visible) :=
  layered.get_eq key

end Layered

theorem Displays.layered (displays : Displays pf config flushed unflushed world) : Layered pf flushed unflushed world :=
  ⟨displays.serving.active, displays.serving.immutable, displays.serving.searchable.recorded, displays.shown⟩

theorem foldlM_recoverEntry_below {lastFlushedLsn : Nat} {entries : List WALEntry}
    (below : ∀ entry ∈ entries, entry.sequenceNumber ≤ lastFlushedLsn) (state : MemTable × Nat) :
    entries.foldlM (RecoveryManager.recoverEntry pf lastFlushedLsn) state = .ok state := by
  induction entries with
  | nil => rfl
  | cons entry entries ih =>
    rw [List.foldlM_cons, RecoveryManager.recoverEntry, if_pos (below entry List.mem_cons_self)]
    exact ih fun other member => below other (List.mem_cons_of_mem _ member)

/-- A log below the checkpoint is skipped, also from a record on that `ReadAll` takes for corrupted. -/
theorem recoverMemTable_counted {ms : List Mutation} {lastFlushedLsn : Nat}
    (room : (logBytes ms).length ≤ maxFileSize) (fits : ∀ m ∈ ms, m.payloadSize < 2 ^ 32)
    (counted : ms.length ≤ lastFlushedLsn) (memtable : MemTable) :
    RecoveryManager.recoverMemTable pf (some (logBytes ms)) memtable lastFlushedLsn = .ok (memtable, 0) := by
  have readable : ∀ record ∈ stamped ms, record.Readable none := by
    intro record member
    obtain ⟨inLog, -, last⟩ := mem_stamped member
    have few := length_lt_of_room room
    exact ⟨by omega, fits _ inLog, by simp⟩
  have scanned : scan none (logBytes ms) = (stamped ms).map LogRecord.entry := by
    have all := scan_records none (stamped ms) [] readable (torn_nil.stops none)
    rwa [List.append_nil] at all
  -- What `ReadAll` returns is the front of what `WAL::Open` scans.
  have below : ∀ entry ∈ WAL.readAll (logBytes ms), entry.sequenceNumber ≤ lastFlushedLsn := by
    intro entry member
    rw [readAll_eq_takeWhile] at member
    obtain ⟨record, read, rfl⟩ := List.mem_map.mp member
    have inside : record.1 ∈ scan none (logBytes ms) := by
      rw [scan_eq]
      exact List.mem_map_of_mem ((List.takeWhile_sublist _).mem read)
    rw [scanned] at inside
    obtain ⟨logged, isLogged, same⟩ := List.mem_map.mp inside
    have last := (mem_stamped isLogged).2.2
    rw [← same, LogRecord.entry, Mutation.sequenceNumber_entry]
    omega
  exact foldlM_recoverEntry_below below _

theorem Displays.reopens (displays : Displays pf config flushed [] world) (readable : Readable world.store)
    (fits : ∀ m ∈ flushed, m.payloadSize < 2 ^ 32) :
    ∃ recovered, «open» pf config world.disk = .ok recovered.engine recovered.disk ∧ ∀ key,
      getBytes pf recovered key =
        some (.ok ((newest BlockEntry.key (effects flushed) key).bind BlockEntry.visible)) := by
  obtain ⟨serving, shown, listed⟩ := displays
  obtain ⟨lsn, loaded, exact⟩ := listed.checkpoint
  have isLog := listed.log
  have room := listed.holds.room
  rw [List.append_nil] at isLog room
  have recovered : RecoveryManager.recoverMemTable pf world.disk.log (MemTable.new pf) lsn = .ok (MemTable.new pf, 0) := by
    rw [isLog]
    exact recoverMemTable_counted room fits (exact rfl).ge _
  refine ⟨⟨world.disk, _⟩, open_of_recovered listed.created loaded serving.file_levels recovered, fun key => ?_⟩
  rw [getBytes_eq]
  · rw [← shown key, ← getFromSSTables_eq pf serving.searchable.toLevelled, get, MemTable.get_eq, MemTable.entries_new]
    rfl
  · exact readable.congr (by rfl) fun _ _ => rfl

theorem trace_flush_readable {events : List Event} (moderate : Moderate pf config (logged events))
    (run : Trace (Event.Step pf) (fresh pf config) events world)
    (flush : (flushMemTable pf .none).run world = .ok () world') : Readable world'.store := by
  have flushed : Trace (Event.Step pf) (fresh pf config) (events ++ [.call .flush]) world' := .snoc run flush
  refine trace_readable ?_ flushed
  rw [logged_concat]
  exact moderate.part (by simp [Event.mutations, Command.mutations])

theorem Displays.restarts {events : List Event} (displays : Displays pf config flushed unflushed world)
    (all : flushed ++ unflushed = logged events) (moderate : Moderate pf config (logged events))
    (run : Trace (Event.Step pf) (fresh pf config) events world) :
    ∃ closed recovered, (close pf .none).run world = .ok () closed ∧
      «open» pf config closed.disk = .ok recovered.engine recovered.disk ∧
      ∀ key, getBytes pf recovered key = some (.ok (plainMap (calls events) key)) := by
  obtain ⟨closed, ran, displays'⟩ := displays.flush
  obtain ⟨recovered, reopened, got⟩ := displays'.reopens (trace_flush_readable moderate run ran) (all ▸ moderate.fits)
  refine ⟨closed, recovered, (close_eq displays.serving.levels).trans ran, reopened, fun key => ?_⟩
  rw [got, plainMap_calls all]

structure WriteOnce (ms : List Mutation) : Prop where
  distinct : (ms.map Mutation.key).Nodup
  named : ∀ m ∈ ms, m.key ≠ []

namespace WriteOnce

theorem older (once : WriteOnce (flushed ++ unflushed)) : WriteOnce flushed where
  distinct := (List.map_append ▸ once.distinct).of_append_left
  named := fun m member => once.named m (List.mem_append_left _ member)

theorem newest_unflushed {entry : BlockEntry} {key : Bytes} (once : WriteOnce (flushed ++ unflushed))
    (found : newest BlockEntry.key (effects unflushed) key = some entry) :
    key ∈ unflushed.map Mutation.key ∧ key ∉ flushed.map Mutation.key := by
  obtain ⟨member, rfl⟩ := newest_some _ found
  obtain ⟨m, inside, rfl⟩ := List.mem_map.mp member
  rw [Mutation.effect_key]
  have recent : m.key ∈ unflushed.map Mutation.key := List.mem_map_of_mem inside
  exact ⟨recent, fun old => List.disjoint_of_nodup_append (List.map_append ▸ once.distinct) old recent⟩

end WriteOnce

structure Apart (flushed : List Mutation) (world : World) : Prop where
  written : ∀ file ∈ world.engine.compactionManager.filesAt 0, ∀ key,
    (versionAt world.disk.tables key file.filepath).isSome → key ∈ flushed.map Mutation.key
  alone : ∀ file ∈ world.engine.compactionManager.filesAt 0, ∀ other ∈ world.engine.compactionManager.filesAt 0,
    ∀ key, (versionAt world.disk.tables key file.filepath).isSome →
      (versionAt world.disk.tables key other.filepath).isSome → file = other

namespace Apart

theorem takesNewest (apart : Apart flushed world) (once : WriteOnce (flushed ++ unflushed)) (key : Bytes) :
    MergeTakesNewest pf world.store key := by
  refine mergeTakesNewest_of_agree (fun file member other inside entry entry' found found' => ?_)
    fun file member held => ?_
  · obtain rfl := apart.alone file member other inside key (by exact found ▸ rfl) (by exact found' ▸ rfl)
    exact Option.some.inj (found.symm.trans found')
  · obtain ⟨m, inside, rfl⟩ := List.mem_map.mp (apart.written file member key held)
    exact once.named m (by simp [inside])

theorem afterFlush (apart : Apart flushed world) (serving : Serving pf config unflushed world)
    (once : WriteOnce (flushed ++ unflushed)) (nonempty : world.engine.activeMemtable.entries ≠ []) :
    Apart (flushed ++ unflushed)
      (StorageEngine.afterFlush pf world (.ofMemTable world.engine.activeMemtable nonempty)) := by
  have recent : ∀ key, (newest BlockEntry.key (effects unflushed) key).isSome →
      key ∈ unflushed.map Mutation.key ∧ key ∉ flushed.map Mutation.key := by
    intro key held
    obtain ⟨entry, found⟩ := Option.isSome_iff_exists.mp held
    exact once.newest_unflushed found
  refine ⟨fun file member key held => ?_, fun file member other inside key held held' => ?_⟩
  · rw [List.map_append, List.mem_append]
    obtain ⟨inside, zero⟩ := mem_filesAt.mp member
    rcases List.mem_append.mp inside with old | new
    · rw [serving.versionAt_afterFlush_old _ old] at held
      exact .inl (apart.written file (mem_filesAt.mpr ⟨old, zero⟩) key held)
    · obtain rfl := List.mem_singleton.mp new
      exact .inr (recent key (serving.versionAt_afterFlush_new nonempty key ▸ held)).1
  · obtain ⟨inFiles, zero⟩ := mem_filesAt.mp member
    obtain ⟨inFiles', zero'⟩ := mem_filesAt.mp inside
    rcases List.mem_append.mp inFiles with old | new <;> rcases List.mem_append.mp inFiles' with old' | new'
    · rw [serving.versionAt_afterFlush_old _ old] at held
      rw [serving.versionAt_afterFlush_old _ old'] at held'
      exact apart.alone file (mem_filesAt.mpr ⟨old, zero⟩) other (mem_filesAt.mpr ⟨old', zero'⟩) key held held'
    · obtain rfl := List.mem_singleton.mp new'
      rw [serving.versionAt_afterFlush_old _ old] at held
      exact absurd (apart.written file (mem_filesAt.mpr ⟨old, zero⟩) key held)
        (recent key (serving.versionAt_afterFlush_new nonempty key ▸ held')).2
    · obtain rfl := List.mem_singleton.mp new
      rw [serving.versionAt_afterFlush_old _ old'] at held'
      exact absurd (apart.written other (mem_filesAt.mpr ⟨old', zero'⟩) key held')
        (recent key (serving.versionAt_afterFlush_new nonempty key ▸ held)).2
    · rw [List.mem_singleton.mp new, List.mem_singleton.mp new']

theorem afterCompaction {store : Store} {stats : CompactionStats} (apart : Apart flushed world)
    (serving : Serving pf config unflushed world) (ran : runCompaction pf .none world.store = .ok stats store) :
    Apart flushed (StorageEngine.afterCompaction world store) := by
  obtain ⟨level, sources, targets, fileData, outs, run⟩ := runCompaction_ok ran
  have registered := serving.reachable.levelled.filed
  have kept : ∀ file ∈ store.manager.filesAt 0, file ∈ world.engine.compactionManager.filesAt 0 ∧
      ∀ key, versionAt store.tables key file.filepath = versionAt world.disk.tables key file.filepath := by
    intro file member
    obtain ⟨inside, zero⟩ := mem_filesAt.mp member
    rcases (run.mem_files registered file).mp inside with ⟨old, left⟩ | ⟨j, bound, rfl⟩
    · refine ⟨mem_filesAt.mpr ⟨old, zero⟩, fun key => ?_⟩
      rw [versionAt, versionAt, run.kept_table registered old left]
      rfl
    · have := run.valid
      simp only [outputMetaOf] at zero
      omega
  refine ⟨fun file member key held => ?_, fun file member other inside key held held' => ?_⟩
  · obtain ⟨old, same⟩ := kept file member
    exact apart.written file old key (same key ▸ held)
  · obtain ⟨old, same⟩ := kept file member
    obtain ⟨old', same'⟩ := kept other inside
    exact apart.alone file old other old' key (same key ▸ held) (same' key ▸ held')

end Apart

theorem apart_fresh (pf : Platform) (config : StorageConfig) : Apart [] (fresh pf config) :=
  ⟨fun _ member => by simp [fresh, CompactionManager.new, filesAt] at member,
    fun _ member => by simp [fresh, CompactionManager.new, filesAt] at member⟩

theorem Wrote.apart {device : Device} {ms : List Mutation} (wrote : Wrote pf device world ms world')
    (apart : Apart flushed world) : Apart flushed world' := by
  cases wrote with
  | nothing => exact apart
  | entry => exact ⟨apart.written, apart.alone⟩

theorem Apart.keepsNewest {event : Event} (apart : Apart flushed world) (once : WriteOnce (flushed ++ unflushed)) :
    KeepsNewest pf world event := by
  cases event with
  | call command => trivial
  | compaction => exact fun _ _ => apart.takesNewest once

theorem Apart.event {event : Event} (apart : Apart flushed world) (displays : Displays pf config flushed unflushed world)
    (once : WriteOnce (flushed ++ unflushed ++ event.mutations)) (step : event.Step pf world world') :
    ∃ flushed' unflushed', flushed' ++ unflushed' = flushed ++ unflushed ++ event.mutations ∧
      Displays pf config flushed' unflushed' world' ∧ Apart flushed' world' := by
  cases event with
  | call command =>
    obtain ⟨between, wrote, rfl | ⟨nonempty, rfl⟩⟩ := displays.serving.command_ok step
    · exact ⟨flushed, unflushed ++ command.mutations, (List.append_assoc _ _ _).symm, displays.wrote wrote,
        wrote.apart apart⟩
    · rw [List.append_assoc] at once
      exact ⟨flushed ++ (unflushed ++ command.mutations), [], by simp [Event.mutations],
        (displays.wrote wrote).afterFlush nonempty,
        (wrote.apart apart).afterFlush (wrote.serving displays.serving) once nonempty⟩
  | compaction =>
    refine ⟨flushed, unflushed, (List.append_nil _).symm, ?_⟩
    obtain ⟨-, rfl⟩ | ⟨needed, stats, store, ran, rfl⟩ := displays.serving.compaction_ok step
    · exact ⟨displays, apart⟩
    · exact ⟨displays.afterCompaction ran fun _ => apart.takesNewest once.older,
        apart.afterCompaction displays.serving ran⟩

theorem trace_writeOnce {events : List Event} (run : Trace (Event.Step pf) (fresh pf config) events world)
    (once : WriteOnce (logged events)) :
    Trace (guarded (KeepsNewest pf) (Event.Step pf)) (fresh pf config) events world ∧
    ∃ flushed unflushed, flushed ++ unflushed = logged events ∧ Displays pf config flushed unflushed world ∧
      Apart flushed world := by
  induction run with
  | nil => exact ⟨.nil, [], [], rfl, displays_fresh pf config, apart_fresh pf config⟩
  | snoc before step ih =>
    rw [logged_concat] at once ⊢
    obtain ⟨kept, flushed, unflushed, all, displays, apart⟩ := ih once.older
    rw [← all] at once ⊢
    exact ⟨.snoc kept ⟨apart.keepsNewest once.older, step⟩, apart.event displays once step⟩

def spread : List Event :=
  [.call (.put [1] [2]), .call .flush, .call (.put [3] [4]), .call .flush, .call (.put [5] [6]), .call .flush,
    .call (.put [7] [8]), .call .flush, .call (.put [9] [10]), .call (.delete [11]), .compaction]

theorem spread_run : ∃ world, Trace (Event.Step .reference) (fresh .reference {}) spread world :=
  trace_succeeds .reference {} spread (by rw [logBytes_length]; decide)

theorem spread_once : WriteOnce (logged spread) := ⟨by decide, by decide⟩

theorem spread_moderate : Moderate .reference {} (logged spread) := ⟨⟨by decide, by decide⟩, by decide, by decide⟩

/-- With merges of every level going on, `Get` agrees with the plain map of the calls unless the active
MemTable hides a value of the tables; after a flush it agrees on every key. -/
theorem compacted_get_iff {start : World} {events : List Event}
    (opened : «open» pf config Disk.empty = .ok start.engine start.disk)
    (run : Trace (guarded (KeepsNewest pf) (Event.Step pf)) start events world)
    (moderate : Moderate pf config (logged events)) :
    (∀ key, getBytes pf world key = some (.ok (plainMap (calls events) key)) ↔ ¬ DeletedOverTables pf world key) ∧
    ∃ settled, (flushMemTable pf .none).run world = .ok () settled ∧
      ∀ key, getBytes pf settled key = some (.ok (plainMap (calls events) key)) := by
  obtain rfl := opened_eq_fresh opened
  obtain ⟨flushed, unflushed, all, displays⟩ := trace_displays run
  constructor
  · intro key
    rw [getBytes_eq (trace_readable moderate run.unguarded), Option.some.injEq, plainMap_calls all]
    exact displays.layered.get_iff key
  · obtain ⟨settled, ran, displays'⟩ := displays.flush
    refine ⟨settled, ran, fun key => ?_⟩
    rw [getBytes_eq (trace_flush_readable moderate run.unguarded ran), displays'.layered.get_flushed,
      plainMap_calls all]

theorem compacted_get_spread : ∃ world, Trace (guarded (KeepsNewest .reference) (Event.Step .reference))
      (fresh .reference {}) spread world ∧
    (getBytes .reference world [1] = some (.ok (some [2])) ↔ ¬ DeletedOverTables .reference world [1]) ∧
    ∃ settled, (flushMemTable .reference .none).run world = .ok () settled ∧
      getBytes .reference settled [9] = some (.ok (some [10])) := by
  obtain ⟨world, run⟩ := spread_run
  have kept := (trace_writeOnce run spread_once).1
  obtain ⟨now, settled, ran, later⟩ := compacted_get_iff rfl kept spread_moderate
  exact ⟨world, kept, now [1], settled, ran, later [9]⟩

/-- The destructor and `Open` on its disk lose nothing, however many merges there were and whenever they
ran, and also if the log has records that `ReadAll` takes for corrupted. -/
theorem clean_restart {start : World} {events : List Event}
    (opened : «open» pf config Disk.empty = .ok start.engine start.disk)
    (run : Trace (guarded (KeepsNewest pf) (Event.Step pf)) start events world)
    (moderate : Moderate pf config (logged events)) :
    ∃ closed recovered, (close pf .none).run world = .ok () closed ∧
      «open» pf config closed.disk = .ok recovered.engine recovered.disk ∧
      ∀ key, getBytes pf recovered key = some (.ok (plainMap (calls events) key)) := by
  obtain rfl := opened_eq_fresh opened
  obtain ⟨flushed, unflushed, all, displays⟩ := trace_displays run
  exact displays.restarts all moderate run.unguarded

theorem clean_restart_spread : ∃ world closed recovered, Trace (guarded (KeepsNewest .reference) (Event.Step .reference))
      (fresh .reference {}) spread world ∧ (close .reference .none).run world = .ok () closed ∧
    «open» .reference {} closed.disk = .ok recovered.engine recovered.disk ∧
    getBytes .reference recovered [1] = some (.ok (some [2])) ∧
    getBytes .reference recovered [9] = some (.ok (some [10])) := by
  obtain ⟨world, run⟩ := spread_run
  have kept := (trace_writeOnce run spread_once).1
  obtain ⟨closed, recovered, ran, reopened, got⟩ := clean_restart rfl kept spread_moderate
  exact ⟨world, closed, recovered, kept, ran, reopened, got [1], got [9]⟩

end StorageEngine

end VectorDb.Storage
