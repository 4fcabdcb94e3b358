import VectorDb.Engine.Flush

namespace VectorDb.Storage
open Lib Common CompactionManager

namespace StorageEngine

variable (pf : Platform) (device : Device)

def effects (ms : List Mutation) : List BlockEntry := ms.map Mutation.effect

theorem effects_append (older newer : List Mutation) : effects (older ++ newer) = effects older ++ effects newer :=
  List.map_append

theorem newest_effects_same (ms : List Mutation) {m : Mutation} {key : Bytes} (same : m.key = key) :
    newest BlockEntry.key (effects (ms ++ [m])) key = some m.effect := by
  simp [effects, newest_concat, same]

theorem newest_effects_other (ms : List Mutation) {m : Mutation} {key : Bytes} (other : m.key ≠ key) :
    newest BlockEntry.key (effects (ms ++ [m])) key = newest BlockEntry.key (effects ms) key := by
  simp [effects, newest_concat, other]

structure Serving (config : StorageConfig) (unflushed : List Mutation) (world : World) : Prop where
  configured : world.engine.config = config
  reachable : Reachable pf InFlushOrder config.sstDir leveled.kNumLevels world.store
  unused : ∀ file ∈ world.engine.compactionManager.files, ∀ seq ≥ world.engine.nextSstSequence,
    file.filepath ≠ flushPath config.sstDir seq
  stamps : ∀ file ∈ world.engine.compactionManager.files, file.level = 0 →
    file.sequenceNumber < world.engine.nextSstSequence
  active : world.engine.activeMemtable.entries = replay BlockEntry.key (effects unflushed) []
  immutable : world.engine.immutableMemtable = none

variable {pf device} {config : StorageConfig} {unflushed : List Mutation} {world world' : World}

namespace Serving

theorem searchable (serving : Serving pf config unflushed world) : Searchable world.store := serving.reachable.searchable

theorem levels (serving : Serving pf config unflushed world) : 0 < world.engine.compactionManager.maxLevel := by
  have := serving.reachable.manager.2
  simp only [World.store, leveled.kNumLevels] at this
  omega

theorem active_eq_nil (serving : Serving pf config unflushed world) :
    world.engine.activeMemtable.entries = [] ↔ unflushed = [] := by
  rw [serving.active, replay_eq_nil, effects, List.map_eq_nil_iff]

theorem find_active (serving : Serving pf config unflushed world) (key : Bytes) :
    find BlockEntry.key world.engine.activeMemtable.entries key = newest BlockEntry.key (effects unflushed) key := by
  rw [serving.active, find_replay, find_nil, Option.or_none]

theorem flushed (serving : Serving pf config unflushed world) (table : SSTable) :
    Flushed world.store (flushMeta config.sstDir table world.engine.nextSstSequence) table := by
  refine ⟨rfl, rfl, rfl, fun old => ?_, fun level deep number _ => ?_⟩
  · obtain ⟨file, member, same⟩ := List.mem_map.mp old
    exact serving.unused file member _ le_rfl same
  · rw [serving.reachable.manager.1]
    exact flushPath_ne_outputPath _ _ deep number

theorem order (serving : Serving pf config unflushed world) (table : SSTable) :
    InFlushOrder world.store.manager (flushMeta config.sstDir table world.engine.nextSstSequence) :=
  serving.stamps

theorem afterFlush_store (serving : Serving pf config unflushed world) (table : SSTable) :
    (afterFlush pf world table).store = withFiles { world.store with
      tables := Function.update world.store.tables
        (flushMeta config.sstDir table world.engine.nextSstSequence).filepath (some (.complete table)) }
      [flushMeta config.sstDir table world.engine.nextSstSequence] := by
  rw [afterFlush, World.store, serving.configured]
  rfl

theorem afterFlush (serving : Serving pf config unflushed world) (table : SSTable) :
    Serving pf config [] (afterFlush pf world table) := by
  have reachable : Reachable pf InFlushOrder config.sstDir leveled.kNumLevels
      (StorageEngine.afterFlush pf world table).store := by
    refine serving.reachable.register (serving.flushed table) (serving.order table) ?_
    rw [serving.afterFlush_store, registerFile_ok]
    exact ⟨⟨le_rfl, serving.levels⟩, rfl⟩
  have files : ∀ file ∈ (StorageEngine.afterFlush pf world table).engine.compactionManager.files,
      file ∈ world.engine.compactionManager.files ∨
        file = flushMeta config.sstDir table world.engine.nextSstSequence := by
    simp [StorageEngine.afterFlush, serving.configured]
  refine ⟨serving.configured, reachable, fun file member seq later => ?_, fun file member zero => ?_, ?_, rfl⟩
  · have later : seq ≥ world.engine.nextSstSequence + 1 := later
    rcases files file member with old | rfl
    · exact serving.unused file old seq (by omega)
    · intro same
      have := flushPath_inj same
      omega
  · change file.sequenceNumber < world.engine.nextSstSequence + 1
    rcases files file member with old | rfl
    · have := serving.stamps file old zero
      omega
    · exact Nat.lt_succ_self _
  · exact MemTable.entries_new pf

theorem newestEntry_afterFlush (serving : Serving pf config unflushed world)
    (nonempty : world.engine.activeMemtable.entries ≠ []) (key : Bytes) :
    newestEntry pf (StorageEngine.afterFlush pf world (.ofMemTable world.engine.activeMemtable nonempty)).store key =
      (newest BlockEntry.key (effects unflushed) key).or (newestEntry pf world.store key) := by
  have after := (serving.afterFlush (.ofMemTable world.engine.activeMemtable nonempty)).searchable
  rw [serving.afterFlush_store] at after ⊢
  rw [newestEntry_register serving.searchable (serving.flushed _) (serving.order _) after, ← serving.find_active]
  rfl

end Serving

def flushFile (world : World) : Path := flushPath world.engine.config.sstDir world.engine.nextSstSequence

/-- The flush's file is new to the catalogue, and in front of all its files. -/
structure NewFile (started : World) : Prop where
  unused : ∀ file ∈ started.engine.compactionManager.files, file.filepath ≠ flushFile started
  front : ∀ file ∈ started.engine.compactionManager.files,
    0 < file.level ∨ file.level = 0 ∧ file.sequenceNumber < started.engine.nextSstSequence
  comparable : ∀ key, ∀ a ∈ started.engine.compactionManager.files, ∀ b ∈ started.engine.compactionManager.files,
    (entryIn started.disk.tables key a).isSome → (entryIn started.disk.tables key b).isSome → a ≠ b →
      Newer a b ∨ Newer b a

theorem Serving.newFile (serving : Serving pf config unflushed world) : NewFile world := by
  refine ⟨fun file member => ?_, fun file member => ?_, fun key a inA b inB => ?_⟩
  · rw [flushFile, serving.configured]
    exact serving.unused file member _ le_rfl
  · have := (serving.searchable.levels file member).1
    have := serving.stamps file member
    omega
  · exact serving.searchable.entries_comparable a inA b inB

theorem NewFile.newer (new : NewFile world) {file other : SSTableMeta} (level : file.level = 0)
    (number : file.sequenceNumber = world.engine.nextSstSequence)
    (member : other ∈ world.engine.compactionManager.files) : Newer file other := by
  have := new.front other member
  unfold Newer
  omega

variable (pf) in
theorem NewFile.recorded_afterFlush (new : NewFile world) (table : SSTable)
    (recorded : ∀ file ∈ world.store.manager.files, ∃ table, Recorded world.store.tables file table) :
    ∀ file ∈ (afterFlush pf world table).store.manager.files,
      ∃ other, Recorded (afterFlush pf world table).store.tables file other := by
  intro file member
  rcases List.mem_append.mp member with old | last
  · obtain ⟨other, complete, ranges⟩ := recorded file old
    exact ⟨other, (Function.update_of_ne (new.unused file old) _ _).trans complete, ranges⟩
  · obtain rfl := List.mem_singleton.mp last
    exact ⟨table, Function.update_self _ _ _, rfl, rfl⟩

theorem NewFile.newestEntry_afterFlush (new : NewFile world) (table : SSTable)
    (recorded : ∀ file ∈ world.store.manager.files, ∃ table, Recorded world.store.tables file table)
    (key : Bytes) : newestEntry pf (afterFlush pf world table).store key =
      (find BlockEntry.key table.entries key).or (newestEntry pf world.store key) := by
  have newer : ∀ other ∈ world.store.manager.files,
      Newer (flushMeta world.engine.config.sstDir table world.engine.nextSstSequence) other :=
    fun other => new.newer rfl rfl
  have here : Recorded (afterFlush pf world table).store.tables
      (flushMeta world.engine.config.sstDir table world.engine.nextSstSequence) table :=
    ⟨Function.update_self _ _ _, rfl, rfl⟩
  rw [← catalogueEntry_recorded pf (new.recorded_afterFlush pf table recorded), ← catalogueEntry_recorded pf recorded]
  refine (catalogueEntry_register new.unused newer (new.comparable key) (some (.complete table))).trans ?_
  congr 1
  exact (entryIn_recorded here key).trans (versionAt_recorded here key)

def afterWrite (pf : Platform) (world : World) (m : Mutation) (wal : WAL) (file : Bytes) : World where
  disk := { world.disk with log := some file }
  engine := { world.engine with
    wal
    walWrites := world.engine.walWrites + 1
    activeMemtable := world.engine.activeMemtable.apply pf m }

theorem appendLog_ok {m : Mutation} : appendLog device m world = .ok () world' ↔
    ∃ lsn wal file, world.engine.wal.append device (world.disk.log.getD []) (m.entry 0) = (.ok lsn, wal, file) ∧
      world' = ⟨{ world.disk with log := some file },
        { world.engine with wal, walWrites := world.engine.walWrites + 1 }⟩ := by
  rw [appendLog, Action.bind_of_ok (Action.get_eq world)]
  obtain ⟨result, wal, file⟩ := world.engine.wal.append device (world.disk.log.getD []) (m.entry 0)
  dsimp only
  rw [Action.bind_of_ok (Action.set_eq _ _)]
  cases result with
  | error status => simp
  | ok lsn => simp [eq_comm]

theorem appendLog_failed {m : Mutation} {status : Status} : appendLog device m world = .error status world' ↔
    ∃ wal file, world.engine.wal.append device (world.disk.log.getD []) (m.entry 0) = (.error status, wal, file) ∧
      world' = ⟨{ world.disk with log := some file }, { world.engine with wal }⟩ := by
  rw [appendLog, Action.bind_of_ok (Action.get_eq world)]
  obtain ⟨result, wal, file⟩ := world.engine.wal.append device (world.disk.log.getD []) (m.entry 0)
  dsimp only
  rw [Action.bind_of_ok (Action.set_eq _ _)]
  cases result with
  | ok lsn => simp
  | error status => simp [eq_comm]

theorem applyMutation_run (m : Mutation) (world : World) : applyMutation pf m world =
    .ok (decide ((world.engine.activeMemtable.apply pf m).approximateMemoryUsage ≥
        world.engine.config.memtableSizeBytes))
      { world with engine := { world.engine with activeMemtable := world.engine.activeMemtable.apply pf m } } := rfl

theorem writeEntry_run {io : Faults} {m : Mutation} {lsn : Nat} {wal : WAL} {file : Bytes}
    (appended : world.engine.wal.append device (world.disk.log.getD []) (m.entry 0) = (.ok lsn, wal, file)) :
    (writeEntry pf io device m).run world =
      if (world.engine.activeMemtable.apply pf m).approximateMemoryUsage ≥ world.engine.config.memtableSizeBytes then
        (flushMemTable pf io).run (afterWrite pf world m wal file)
      else .ok () (afterWrite pf world m wal file) := by
  rw [writeEntry, Program.run_bind, Program.run_tearing,
    Action.bind_of_ok (appendLog_ok.mpr ⟨lsn, wal, file, appended, rfl⟩), Program.run_bind, Program.run_atomic,
    Action.bind_of_ok (applyMutation_run m _)]
  by_cases full :
    (world.engine.activeMemtable.apply pf m).approximateMemoryUsage ≥ world.engine.config.memtableSizeBytes
  · rw [if_pos full, if_pos (decide_eq_true (by exact full))]
    rfl
  · rw [if_neg full, if_neg (by simpa using full)]
    rfl

theorem writeEntry_ok {m : Mutation} (ran : (writeEntry pf .none device m).run world = .ok () world') :
    ∃ lsn wal file, world.engine.wal.append device (world.disk.log.getD []) (m.entry 0) = (.ok lsn, wal, file) ∧
      (world' = afterWrite pf world m wal file ∨
        (flushMemTable pf .none).run (afterWrite pf world m wal file) = .ok () world') := by
  obtain ⟨⟨⟩, between, logged, -⟩ := Action.bind_ok.mp (Program.run_bind _ _ ▸ ran)
  obtain ⟨lsn, wal, file, appended, -⟩ := appendLog_ok.mp (Program.run_tearing _ _ ▸ logged)
  refine ⟨lsn, wal, file, appended, ?_⟩
  rw [writeEntry_run appended] at ran
  split at ran
  next => exact .inr ran
  next =>
    cases ran
    exact .inl rfl

theorem Serving.write (serving : Serving pf config unflushed world) (m : Mutation) (wal : WAL) (file : Bytes) :
    Serving pf config (unflushed ++ [m]) (afterWrite pf world m wal file) where
  configured := serving.configured
  reachable := serving.reachable
  unused := serving.unused
  stamps := serving.stamps
  active := by
    rw [effects_append, replay_append, ← serving.active]
    exact MemTable.entries_apply pf _ m
  immutable := serving.immutable

theorem flushMemTable_cases (levels : 0 < world.engine.compactionManager.maxLevel)
    (ran : (flushMemTable pf .none).run world = .ok () world') :
    (world.engine.activeMemtable.entries = [] ∧ world' = world) ∨
      ∃ nonempty, world' = afterFlush pf world (.ofMemTable world.engine.activeMemtable nonempty) := by
  by_cases empty : world.engine.activeMemtable.entries = []
  · rw [flushMemTable_empty pf empty] at ran
    cases ran
    exact .inl ⟨empty, rfl⟩
  · rw [flushMemTable_run pf empty levels] at ran
    cases ran
    exact .inr ⟨empty, rfl⟩

theorem flushMemTable_succeeds (pf : Platform) (levels : 0 < world.engine.compactionManager.maxLevel) :
    Action.Succeeds (flushMemTable pf .none).run world := by
  by_cases empty : world.engine.activeMemtable.entries = []
  · exact ⟨(), _, flushMemTable_empty pf empty⟩
  · exact ⟨(), _, flushMemTable_run pf empty levels⟩

inductive Command where
  | put (key value : Bytes)
  | delete (key : Bytes)
  | flush
deriving DecidableEq, Repr

namespace Command

def program (pf : Platform) (io : Faults) (device : Device) : Command → Program Status World Unit
  | put key value => StorageEngine.put pf io device key value
  | delete key => StorageEngine.delete pf io device key
  | flush => flushMemTable pf io

def mutations : Command → List Mutation
  | put key value => [.put key value]
  | delete key => [.delete key]
  | flush => []

end Command

def runAll (pf : Platform) (device : Device) (commands : List Command) : Action Status World Unit :=
  forM commands fun command => (command.program pf .none device).run

def written (commands : List Command) : List Mutation := commands.flatMap Command.mutations

theorem runAll_concat {commands : List Command} {command : Command} :
    runAll pf device (commands ++ [command]) world = .ok () world' ↔
      ∃ between, runAll pf device commands world = .ok () between ∧
        (command.program pf .none device).run between = .ok () world' :=
  Action.forM_concat_ok

theorem runAll_induction {P : List Command → World → Prop} {commands : List Command} (start : P [] world)
    (step : ∀ commands command between after, P commands between →
      (Command.program pf .none device command).run between = .ok () after → P (commands ++ [command]) after)
    (ran : runAll pf device commands world = .ok () world') : P commands world' := by
  induction commands using List.reverseRecOn generalizing world' with
  | nil =>
    cases ran
    exact start
  | append_singleton commands command ih =>
    obtain ⟨between, before, last⟩ := runAll_concat.mp ran
    exact step commands command between world' (ih before) last

theorem written_concat (commands : List Command) (command : Command) :
    written (commands ++ [command]) = written commands ++ command.mutations := by
  simp [written]

inductive Wrote (pf : Platform) (device : Device) (world : World) : List Mutation → World → Prop
  | nothing : Wrote pf device world [] world
  | entry {m : Mutation} {lsn : Nat} {wal : WAL} {file : Bytes} :
      world.engine.wal.append device (world.disk.log.getD []) (m.entry 0) = (.ok lsn, wal, file) →
      Wrote pf device world [m] (afterWrite pf world m wal file)

theorem Wrote.serving {ms : List Mutation} (wrote : Wrote pf device world ms world')
    (serving : Serving pf config unflushed world) : Serving pf config (unflushed ++ ms) world' := by
  cases wrote with
  | nothing => simpa using serving
  | entry => exact serving.write _ _ _

theorem Command.run_cases {command : Command} (levels : 0 < world.engine.compactionManager.maxLevel)
    (ran : (command.program pf .none device).run world = .ok () world') :
    ∃ between, Wrote pf device world command.mutations between ∧ (world' = between ∨ ∃ nonempty,
      world' = afterFlush pf between (.ofMemTable between.engine.activeMemtable nonempty)) := by
  have write : ∀ m, (writeEntry pf .none device m).run world = .ok () world' →
      ∃ between, Wrote pf device world [m] between ∧ (world' = between ∨ ∃ nonempty,
        world' = afterFlush pf between (.ofMemTable between.engine.activeMemtable nonempty)) := by
    intro m ran
    obtain ⟨lsn, wal, file, appended, kept | flushed⟩ := writeEntry_ok ran
    · exact ⟨_, .entry appended, .inl kept⟩
    · exact ⟨_, .entry appended, (flushMemTable_cases (by exact levels) flushed).imp And.right id⟩
  cases command with
  | put key value => exact write _ ran
  | delete key => exact write _ ran
  | flush => exact ⟨world, .nothing, (flushMemTable_cases levels ran).imp And.right id⟩

theorem Serving.command_ok {command : Command} (serving : Serving pf config unflushed world)
    (ran : (command.program pf .none device).run world = .ok () world') :
    ∃ between, Wrote pf device world command.mutations between ∧ (world' = between ∨ ∃ nonempty,
      world' = StorageEngine.afterFlush pf between (.ofMemTable between.engine.activeMemtable nonempty)) :=
  command.run_cases serving.levels ran

theorem Serving.command {command : Command} (serving : Serving pf config unflushed world)
    (ran : (command.program pf .none device).run world = .ok () world') :
    ∃ unflushed', Serving pf config unflushed' world' := by
  obtain ⟨between, wrote, rfl | ⟨nonempty, rfl⟩⟩ := serving.command_ok ran
  · exact ⟨_, wrote.serving serving⟩
  · exact ⟨[], (wrote.serving serving).afterFlush _⟩

theorem Wrote.holds {all ms : List Mutation} (wrote : Wrote pf .faultless world ms world')
    (holds : world.engine.wal.Holds (world.disk.log.getD []) all) :
    world'.engine.wal.Holds (world'.disk.log.getD []) (all ++ ms) := by
  cases wrote with
  | nothing => simpa using holds
  | entry appended => exact (holds.append_ok appended).2

theorem Serving.command_holds {command : Command} {all : List Mutation} (serving : Serving pf config unflushed world)
    (holds : world.engine.wal.Holds (world.disk.log.getD []) all)
    (ran : (command.program pf .none .faultless).run world = .ok () world') :
    world'.engine.wal.Holds (world'.disk.log.getD []) (all ++ command.mutations) := by
  obtain ⟨between, wrote, rfl | ⟨nonempty, rfl⟩⟩ := serving.command_ok ran
  · exact wrote.holds holds
  · exact wrote.holds holds

theorem Command.succeeds {command : Command} {all : List Mutation}
    (levels : 0 < world.engine.compactionManager.maxLevel)
    (holds : world.engine.wal.Holds (world.disk.log.getD []) all)
    (room : (logBytes (all ++ command.mutations)).length ≤ maxFileSize) :
    Action.Succeeds (command.program pf .none .faultless).run world := by
  have write : ∀ m, (logBytes (all ++ [m])).length ≤ maxFileSize →
      Action.Succeeds (writeEntry pf .none .faultless m).run world := by
    intro m room
    obtain ⟨lsn, wal, file, appended⟩ := holds.append_room room
    rw [Action.Succeeds, writeEntry_run appended]
    split_ifs
    · exact flushMemTable_succeeds pf (by exact levels)
    · exact ⟨_, _, rfl⟩
  cases command with
  | put key value => exact write _ room
  | delete key => exact write _ room
  | flush => exact flushMemTable_succeeds pf levels

def Stored (pf : Platform) (flushed : List Mutation) (world : World) : Prop :=
  ∀ key, newestEntry pf world.store key = newest BlockEntry.key (effects flushed) key

theorem Stored.afterFlush {flushed : List Mutation} (stored : Stored pf flushed world)
    (serving : Serving pf config unflushed world) (nonempty : world.engine.activeMemtable.entries ≠ []) :
    Stored pf (flushed ++ unflushed)
      (StorageEngine.afterFlush pf world (.ofMemTable world.engine.activeMemtable nonempty)) := by
  intro key
  rw [serving.newestEntry_afterFlush nonempty, stored key, effects_append, newest_append]

theorem Wrote.stored {ms flushed : List Mutation} (wrote : Wrote pf device world ms world')
    (stored : Stored pf flushed world) : Stored pf flushed world' := by
  cases wrote with
  | nothing => exact stored
  | entry => exact stored

theorem Serving.command_stored {command : Command} {flushed : List Mutation}
    (serving : Serving pf config unflushed world) (stored : Stored pf flushed world)
    (ran : (command.program pf .none device).run world = .ok () world') :
    ∃ flushed' unflushed', flushed' ++ unflushed' = flushed ++ unflushed ++ command.mutations ∧
      (flushed' = flushed ∨ unflushed' = []) ∧ Serving pf config unflushed' world' ∧ Stored pf flushed' world' := by
  obtain ⟨between, wrote, rfl | ⟨nonempty, rfl⟩⟩ := serving.command_ok ran
  · exact ⟨flushed, unflushed ++ command.mutations, by simp, .inl rfl, wrote.serving serving, wrote.stored stored⟩
  · exact ⟨flushed ++ (unflushed ++ command.mutations), [], by simp, .inr rfl, (wrote.serving serving).afterFlush _,
      (wrote.stored stored).afterFlush (wrote.serving serving) nonempty⟩

/-- The world after `Open` on empty directories. -/
def fresh (pf : Platform) (config : StorageConfig) : World where
  disk := { Disk.empty with log := some [] }
  engine := ⟨config, .new config.sstDir leveled.kNumLevels, MemTable.new pf, none, WAL.open none, 1, 0, 0⟩

theorem open_empty (pf : Platform) (config : StorageConfig) :
    «open» pf config Disk.empty = .ok (fresh pf config).engine (fresh pf config).disk := rfl

theorem opened_eq_fresh {start : World} (opened : «open» pf config Disk.empty = .ok start.engine start.disk) :
    start = fresh pf config := by
  cases start
  cases opened
  rfl

theorem serving_fresh (pf : Platform) (config : StorageConfig) : Serving pf config [] (fresh pf config) :=
  ⟨rfl, .empty _, by simp [fresh, CompactionManager.new], by simp [fresh, CompactionManager.new],
    MemTable.entries_new pf, rfl⟩

theorem stored_fresh (pf : Platform) (config : StorageConfig) : Stored pf [] (fresh pf config) :=
  fun key => (newestEntry_eq_none pf).mpr (by simp [World.store, fresh, CompactionManager.new])

theorem holds_fresh (pf : Platform) (config : StorageConfig) :
    (fresh pf config).engine.wal.Holds ((fresh pf config).disk.log.getD []) [] := WAL.holds_new

structure Resting (pf : Platform) (config : StorageConfig) (all : List Mutation) (world : World) : Prop where
  serving : Serving pf config [] world
  stored : Stored pf all world
  holds : world.engine.wal.Holds (world.disk.log.getD []) all
  renewed : world.engine.activeMemtable = MemTable.new pf

theorem resting_fresh (pf : Platform) (config : StorageConfig) : Resting pf config [] (fresh pf config) :=
  ⟨serving_fresh pf config, stored_fresh pf config, holds_fresh pf config, rfl⟩

namespace Resting

variable {all : List Mutation}

theorem write (resting : Resting pf config all world) (m : Mutation)
    (room : (logBytes (all ++ [m])).length ≤ maxFileSize)
    (small : ((MemTable.new pf).apply pf m).approximateMemoryUsage < config.memtableSizeBytes) :
    ∃ world', (writeEntry pf .none .faultless m).run world = .ok () world' ∧ Serving pf config [m] world' ∧
      Stored pf all world' ∧ world'.engine.wal.Holds (world'.disk.log.getD []) (all ++ [m]) ∧
      world'.store = world.store := by
  obtain ⟨lsn, wal, file, appended⟩ := resting.holds.append_room room
  refine ⟨afterWrite pf world m wal file, ?_, resting.serving.write m wal file, resting.stored,
    (resting.holds.append_ok appended).2, rfl⟩
  rw [writeEntry_run appended, if_neg]
  rw [resting.renewed, resting.serving.configured]
  omega

theorem flush {between : World} {m : Mutation} (serving : Serving pf config [m] between)
    (stored : Stored pf all between) (holds : between.engine.wal.Holds (between.disk.log.getD []) (all ++ [m])) :
    ∃ nonempty, (flushMemTable pf .none).run between =
        .ok () (afterFlush pf between (.ofMemTable between.engine.activeMemtable nonempty)) ∧
      Resting pf config (all ++ [m]) (afterFlush pf between (.ofMemTable between.engine.activeMemtable nonempty)) := by
  have nonempty := serving.active_eq_nil.not.mpr (by simp)
  exact ⟨nonempty, flushMemTable_run pf nonempty serving.levels, serving.afterFlush _,
    stored.afterFlush serving nonempty, holds, rfl⟩

end Resting

theorem runAll_holds {commands : List Command} (ran : runAll pf .faultless commands (fresh pf config) = .ok () world) :
    ∃ unflushed, Serving pf config unflushed world ∧
      world.engine.wal.Holds (world.disk.log.getD []) (written commands) := by
  refine runAll_induction (P := fun commands world => ∃ unflushed, Serving pf config unflushed world ∧
    world.engine.wal.Holds (world.disk.log.getD []) (written commands))
    ⟨[], serving_fresh pf config, holds_fresh pf config⟩ ?_ ran
  rintro commands command between after ⟨unflushed, serving, holds⟩ last
  obtain ⟨unflushed', serving'⟩ := serving.command last
  exact ⟨unflushed', serving', written_concat commands command ▸ serving.command_holds holds last⟩

theorem runAll_succeeds (pf : Platform) (config : StorageConfig) (commands : List Command)
    (room : (logBytes (written commands)).length ≤ maxFileSize) :
    ∃ world, runAll pf .faultless commands (fresh pf config) = .ok () world := by
  induction commands using List.reverseRecOn with
  | nil => exact ⟨_, rfl⟩
  | append_singleton commands command ih =>
    rw [written_concat] at room
    obtain ⟨between, before⟩ := ih ((logBytes_length_le _ _).trans room)
    obtain ⟨unflushed, serving, holds⟩ := runAll_holds before
    obtain ⟨⟨⟩, after, last⟩ := command.succeeds serving.levels holds room
    exact ⟨after, runAll_concat.mpr ⟨between, before, last⟩⟩

end StorageEngine

end VectorDb.Storage
