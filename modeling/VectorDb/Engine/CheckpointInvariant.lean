import VectorDb.Engine.Background

namespace VectorDb.Storage
open Lib Common CompactionManager

namespace StorageEngine

variable {pf : Platform} {config : StorageConfig} {world world' : World} {flushed unflushed : List Mutation}

/-- A pass of the compaction thread with nothing unflushed, whose merge keeps the newest versions. -/
def Harmless (pf : Platform) (world : World) : Event → Prop
  | .call _ => True
  | .compaction => world.engine.compactionManager.needsCompaction = true →
    world.engine.activeMemtable.entries = [] ∧
      (world.engine.compactionManager.pickCompactionLevel = 0 → ∀ key, MergeTakesNewest pf world.store key)

def Shown (pf : Platform) (flushed : List Mutation) (world : World) : Prop :=
  ∀ key, (newestEntry pf world.store key).bind BlockEntry.visible =
    (newest BlockEntry.key (effects flushed) key).bind BlockEntry.visible

theorem Wrote.shown {device : Device} {ms : List Mutation} (wrote : Wrote pf device world ms world')
    (shown : Shown pf flushed world) : Shown pf flushed world' := by
  cases wrote with
  | nothing => exact shown
  | entry => exact shown

theorem or_visible (recent : Option BlockEntry) {older older' : Option BlockEntry}
    (same : older.bind BlockEntry.visible = older'.bind BlockEntry.visible) :
    (recent.or older).bind BlockEntry.visible = (recent.or older').bind BlockEntry.visible := by
  cases recent with
  | none => simpa using same
  | some entry => rfl

theorem Shown.afterFlush (shown : Shown pf flushed world) (serving : Serving pf config unflushed world)
    (nonempty : world.engine.activeMemtable.entries ≠ []) : Shown pf (flushed ++ unflushed)
      (StorageEngine.afterFlush pf world (.ofMemTable world.engine.activeMemtable nonempty)) := by
  intro key
  rw [serving.newestEntry_afterFlush nonempty, effects_append, newest_append]
  exact or_visible _ (shown key)

theorem Shown.afterCompaction {store : Store} {stats : CompactionStats} (shown : Shown pf flushed world)
    (serving : Serving pf config unflushed world) (ran : runCompaction pf .none world.store = .ok stats store)
    (takes : world.engine.compactionManager.pickCompactionLevel = 0 → ∀ key, MergeTakesNewest pf world.store key) :
    Shown pf flushed (StorageEngine.afterCompaction world store) := by
  have after := (serving.reachable.compact Faults.lossless_none ran).searchable
  obtain ⟨level, sources, targets, fileData, outs, run⟩ := runCompaction_ok ran
  intro key
  rw [← shown key]
  by_cases deep : 1 ≤ level
  · exact run.visible_deep Faults.lossless_none serving.searchable after deep key
  · obtain rfl : level = 0 := by
      have := run.valid
      omega
    exact (run.visible_level0 Faults.lossless_none serving.searchable after key).mpr (takes run.picked key)

structure Checkpointed (pf : Platform) (config : StorageConfig) (flushed unflushed : List Mutation) (world : World) :
    Prop where
  serving : Serving pf config unflushed world
  shown : Shown pf flushed world
  logged : Logged flushed unflushed world

theorem checkpointed_fresh (pf : Platform) (config : StorageConfig) : Checkpointed pf config [] [] (fresh pf config) := by
  refine ⟨serving_fresh pf config, fun key => ?_, logged_fresh pf config⟩
  rw [stored_fresh pf config key]

theorem Checkpointed.event {event : Event} (before : Checkpointed pf config flushed unflushed world)
    (harmless : Harmless pf world event) (step : event.Step pf world world') :
    ∃ flushed' unflushed', flushed' ++ unflushed' = flushed ++ unflushed ++ event.mutations ∧
      Checkpointed pf config flushed' unflushed' world' := by
  obtain ⟨serving, shown, logged⟩ := before
  cases event with
  | call command =>
    obtain ⟨between, wrote, rfl | ⟨nonempty, rfl⟩⟩ := serving.command_ok step
    · exact ⟨flushed, unflushed ++ command.mutations, (List.append_assoc _ _ _).symm, wrote.serving serving,
        wrote.shown shown, wrote.logged logged⟩
    · refine ⟨flushed ++ (unflushed ++ command.mutations), [], by simp [Event.mutations],
        (wrote.serving serving).afterFlush _, (wrote.shown shown).afterFlush (wrote.serving serving) nonempty,
        (wrote.logged logged).afterFlush _⟩
  | compaction =>
    refine ⟨flushed, unflushed, (List.append_nil _).symm, ?_⟩
    obtain ⟨-, rfl⟩ | ⟨needed, stats, store, ran, rfl⟩ := serving.compaction_ok step
    · exact ⟨serving, shown, logged⟩
    · obtain ⟨empty, takes⟩ := harmless needed
      obtain rfl := serving.active_eq_nil.mp empty
      refine ⟨serving.afterCompaction ran, shown.afterCompaction serving ran takes, logged.holds, logged.created, ?_⟩
      have count := logged.holds.currentSequenceNumber_eq
      rw [List.append_nil] at count
      rw [← count]
      rfl

theorem trace_checkpointed {events : List Event}
    (run : Trace (guarded (Harmless pf) (Event.Step pf)) (fresh pf config) events world) :
    ∃ flushed unflushed, flushed ++ unflushed = logged events ∧ Checkpointed pf config flushed unflushed world := by
  refine run.induct (P := fun events world => ∃ flushed unflushed, flushed ++ unflushed = logged events ∧
    Checkpointed pf config flushed unflushed world) ⟨[], [], rfl, checkpointed_fresh pf config⟩ ?_
  rintro events before event after - ⟨flushed, unflushed, all, checkpointed⟩ ⟨harmless, step⟩
  rw [logged_concat, ← all]
  exact checkpointed.event harmless step

/-- For every record up to the checkpoint's sequence number, the listed tables show the effect of that
record or of a later one of its key. -/
def Shows (pf : Platform) (world : World) (checkpoint : Checkpoint) (ms : List Mutation) : Prop :=
  ∀ record ∈ stamped ms, record.lsn ≤ checkpoint.lastFlushedLsn →
    ∃ later ∈ stamped ms, later.mutation.key = record.mutation.key ∧ record.lsn ≤ later.lsn ∧
      (newestEntry pf (listed world checkpoint) record.mutation.key).bind BlockEntry.visible =
        later.mutation.effect.visible

theorem Checkpointed.shows (checkpointed : Checkpointed pf config flushed unflushed world) :
    Shows pf world ⟨flushed.length, world.engine.compactionManager.files⟩ (flushed ++ unflushed) := by
  intro record member below
  obtain ⟨last, inside, key, lsn, covers⟩ := newest_covered member below
  refine ⟨last, inside, key, lsn, (checkpointed.shown _).trans ?_⟩
  rw [covers]
  rfl

theorem Checkpointed.reopens (checkpointed : Checkpointed pf config flushed unflushed world)
    (readable : Readable world.store) (short : ∀ m ∈ flushed ++ unflushed, m.payloadSize ≤ kMaxPayload) :
    ∃ recovered, «open» pf config world.disk = .ok recovered.engine recovered.disk ∧ Readable recovered.store ∧
      ∀ key, (newestOf pf recovered key).bind BlockEntry.visible =
        (newest BlockEntry.key (effects (flushed ++ unflushed)) key).bind BlockEntry.visible := by
  obtain ⟨serving, shown, logged⟩ := checkpointed
  obtain ⟨recovered, opened, reads, newestOf⟩ := serving.reopens readable (logged.holds.log short) torn_nil
    (by simpa using logged.log) logged.checkpoint fun _ _ => rfl
  refine ⟨recovered, opened, reads, fun key => ?_⟩
  rw [newestOf, effects_append, newest_append]
  exact or_visible _ (shown key)

/-- The checkpoint on disk covers the records it counts, the tables it lists read back, and reopening shows
every write, after any calls and compactions within the limits of the file format in which no compaction finds
unflushed writes and every merge of level 0 keeps the newest versions. -/
theorem checkpoint_covers {start : World} {events : List Event}
    (opened : «open» pf config Disk.empty = .ok start.engine start.disk)
    (run : Trace (guarded (Harmless pf) (Event.Step pf)) start events world)
    (moderate : Moderate pf config (logged events)) :
    ∃ checkpoint, CheckpointManager.loadCheckpoint world.disk.checkpoints = .ok checkpoint ∧
      Shows pf world checkpoint (logged events) ∧ Readable (listed world checkpoint) ∧
      ((∀ m ∈ logged events, m.payloadSize ≤ kMaxPayload) →
        ∃ recovered, «open» pf config world.disk = .ok recovered.engine recovered.disk ∧ Readable recovered.store ∧
          ∀ key, (newestOf pf recovered key).bind BlockEntry.visible =
            (newest BlockEntry.key (effects (logged events)) key).bind BlockEntry.visible) := by
  obtain rfl := opened_eq_fresh opened
  have readable := trace_readable moderate run.unguarded
  obtain ⟨flushed, unflushed, all, checkpointed⟩ := trace_checkpointed run
  rw [← all]
  exact ⟨_, checkpointed.logged.checkpoint, checkpointed.shows, readable, checkpointed.reopens readable⟩

def AllHold (entry : BlockEntry) (world : World) : Prop :=
  ∀ file ∈ world.engine.compactionManager.files, file.level = 0 ∧
    ∀ key, versionAt world.disk.tables key file.filepath = find BlockEntry.key [entry] key

theorem Serving.versionAt_afterFlush_old (serving : Serving pf config unflushed world) (table : SSTable)
    {file : SSTableMeta} (old : file ∈ world.engine.compactionManager.files) (key : Bytes) :
    versionAt (StorageEngine.afterFlush pf world table).disk.tables key file.filepath =
      versionAt world.disk.tables key file.filepath := by
  rw [versionAt, versionAt]
  congr 1
  refine Function.update_of_ne (fun same => ?_) _ _
  rw [serving.configured] at same
  exact serving.unused file old _ le_rfl same

theorem Serving.versionAt_afterFlush_new (serving : Serving pf config unflushed world)
    (nonempty : world.engine.activeMemtable.entries ≠ []) (key : Bytes) :
    versionAt (StorageEngine.afterFlush pf world (.ofMemTable world.engine.activeMemtable nonempty)).disk.tables key
        (flushPath world.engine.config.sstDir world.engine.nextSstSequence) =
      newest BlockEntry.key (effects unflushed) key := by
  have here : (StorageEngine.afterFlush pf world (.ofMemTable world.engine.activeMemtable nonempty)).disk.tables
      (flushPath world.engine.config.sstDir world.engine.nextSstSequence) =
        some (.complete (.ofMemTable world.engine.activeMemtable nonempty)) := Function.update_self _ _ _
  rw [versionAt, here, ← serving.find_active]
  rfl

theorem AllHold.afterFlush {m : Mutation} (hold : AllHold m.effect world) (serving : Serving pf config [m] world)
    (nonempty : world.engine.activeMemtable.entries ≠ []) :
    AllHold m.effect (StorageEngine.afterFlush pf world (.ofMemTable world.engine.activeMemtable nonempty)) := by
  intro file member
  rcases List.mem_append.mp member with old | new
  · refine ⟨(hold file old).1, fun key => ?_⟩
    rw [serving.versionAt_afterFlush_old _ old, (hold file old).2 key]
  · obtain rfl := List.mem_singleton.mp new
    exact ⟨rfl, serving.versionAt_afterFlush_new nonempty⟩

theorem mergeTakesNewest_of_agree {store : Store} {key : Bytes}
    (agree : ∀ file ∈ store.manager.filesAt 0, ∀ other ∈ store.manager.filesAt 0, ∀ entry entry',
      versionAt store.tables key file.filepath = some entry →
      versionAt store.tables key other.filepath = some entry' → entry = entry')
    (named : ∀ file ∈ store.manager.filesAt 0, (versionAt store.tables key file.filepath).isSome → key ≠ []) :
    MergeTakesNewest pf store key := by
  cases isNewest : newestFlushed pf store key with
  | none => simp [MergeTakesNewest, firstFlushed_eq_none.mpr isNewest, isNewest]
  | some newest =>
    obtain ⟨first, isFirst⟩ := Option.ne_none_iff_exists'.mp
      (firstFlushed_eq_none.not.mpr (by simp [isNewest]) : firstFlushed pf store key ≠ none)
    obtain ⟨file, member, found⟩ := List.exists_of_findSome?_eq_some isFirst
    obtain ⟨other, inside, found'⟩ := List.exists_of_findSome?_eq_some isNewest
    have member := mem_filesAt.mpr (mem_getFilesAtLevel.mp member)
    have inside := (pf.mem_sort _ _ _).mp inside
    have nonempty : key ≠ [] := named file member (by rw [found]; rfl)
    rw [MergeTakesNewest, isFirst, isNewest, if_neg nonempty, agree file member other inside first newest found found']

theorem AllHold.takesNewest {entry : BlockEntry} (hold : AllHold entry world) (named : entry.key ≠ []) (key : Bytes) :
    MergeTakesNewest pf world.store key := by
  have versions : ∀ file ∈ world.store.manager.filesAt 0,
      versionAt world.store.tables key file.filepath = find BlockEntry.key [entry] key :=
    fun file member => (hold file (mem_filesAt.mp member).1).2 key
  refine mergeTakesNewest_of_agree (fun file member other inside first second found found' => ?_)
    fun file member held empty => ?_
  · rw [versions file member] at found
    rw [versions other inside] at found'
    exact Option.some.inj (found.symm.trans found')
  · rw [versions file member, empty] at held
    simp [find_cons, named] at held

theorem newestEntry_afterCompaction_none {store : Store} {stats : CompactionStats} {key : Bytes}
    (serving : Serving pf config unflushed world) (ran : runCompaction pf .none world.store = .ok stats store)
    (absent : newestEntry pf world.store key = none) : newestEntry pf store key = none := by
  have after := (serving.reachable.compact Faults.lossless_none ran).searchable
  obtain ⟨level, sources, targets, fileData, outs, run⟩ := runCompaction_ok ran
  obtain ⟨lo, hi, selection⟩ := run.selection
  rw [run.newest_of_unread Faults.lossless_none serving.searchable after, absent]
  refine CompactionRun.latestInput_eq_none.mpr fun file input => ?_
  exact (newestEntry_eq_none pf).mp absent file (selection.input_mem input)

theorem AllHold.picks {entry : BlockEntry} (hold : AllHold entry world)
    (many : leveled.kLevel0CompactionTrigger ≤ world.engine.compactionManager.files.length) :
    world.engine.compactionManager.pickCompactionLevel = 0 := by
  rw [pickCompactionLevel, if_pos]
  rwa [level0FileCount, List.filter_eq_self.mpr fun file member => by simp [(hold file member).1]]

theorem AllHold.needs {entry : BlockEntry} (hold : AllHold entry world)
    (many : leveled.kLevel0CompactionTrigger ≤ world.engine.compactionManager.files.length) :
    world.engine.compactionManager.needsCompaction = true := by
  rw [needsCompaction, hold.picks many]
  decide

def rewrites (key value : Bytes) (n : Nat) : List Event :=
  (List.replicate n [.call (.put key value), .call .flush]).flatten

theorem rewrites_run (pf : Platform) (config : StorageConfig) (key value : Bytes) (n : Nat)
    (room : (logBytes (List.replicate n (.put key value))).length ≤ maxFileSize)
    (small : ((MemTable.new pf).apply pf (.put key value)).approximateMemoryUsage < config.memtableSizeBytes) :
    ∃ world, Trace (guarded (Harmless pf) (Event.Step pf)) (fresh pf config) (rewrites key value n) world ∧
      Resting pf config (List.replicate n (.put key value)) world ∧
      AllHold (Mutation.put key value).effect world ∧ world.engine.compactionManager.files.length = n := by
  induction n with
  | zero => exact ⟨_, .nil, resting_fresh pf config, by simp [AllHold, fresh, CompactionManager.new], rfl⟩
  | succ n ih =>
    rw [List.replicate_succ'] at room ⊢
    obtain ⟨world, run, resting, hold, count⟩ := ih ((logBytes_length_le _ _).trans room)
    obtain ⟨between, put, serving, stored, holds, store⟩ := resting.write (.put key value) room small
    obtain ⟨nonempty, flush, resting'⟩ := Resting.flush serving stored holds
    have tables : between.disk.tables = world.disk.tables := congrArg Store.tables store
    have files : between.engine.compactionManager.files = world.engine.compactionManager.files :=
      congrArg (fun store : Store => store.manager.files) store
    have hold' : AllHold (Mutation.put key value).effect between := by rwa [AllHold, tables, files]
    refine ⟨_, ?_, resting', hold'.afterFlush serving nonempty, ?_⟩
    · have events : rewrites key value (n + 1) =
          rewrites key value n ++ [.call (.put key value)] ++ [.call .flush] := by
        simp [rewrites, List.replicate_succ']
      rw [events]
      exact .snoc (.snoc run ⟨trivial, put⟩) ⟨trivial, flush⟩
    · simp [StorageEngine.afterFlush, files, count]

theorem checkpoint_covers_compacted : ∃ world checkpoint,
    Trace (guarded (Harmless .reference) (Event.Step .reference)) (fresh .reference {})
      (rewrites [1] [2] 4 ++ [.compaction]) world ∧
    CheckpointManager.loadCheckpoint world.disk.checkpoints = .ok checkpoint ∧
    Shows .reference world checkpoint (logged (rewrites [1] [2] 4 ++ [.compaction])) ∧
    Readable (listed world checkpoint) := by
  obtain ⟨before, run, resting, hold, count⟩ := rewrites_run .reference {} [1] [2] 4
    (by rw [logBytes_length]; decide) (by decide)
  have needed := hold.needs (by rw [count]; decide)
  obtain ⟨stats, store, ran⟩ := resting.serving.compacts needed
  have harmless : Harmless .reference before .compaction := fun _ =>
    ⟨resting.serving.active_eq_nil.mpr rfl, fun _ => hold.takesNewest (by decide)⟩
  have run := run.snoc ⟨harmless, compactionPass_run needed ran⟩
  obtain ⟨checkpoint, loaded, shows, readable, -⟩ := checkpoint_covers rfl run
    ⟨⟨by decide, by decide⟩, by decide, by decide⟩
  exact ⟨_, checkpoint, run, loaded, shows, readable⟩

/-- A compaction with an unflushed write: its checkpoint counts the record, no table has it, and `Open`
skips it. -/
theorem compaction_loses_unflushed : ∃ world checkpoint recovered,
    Trace (Event.Step .reference) (fresh .reference {})
      (rewrites [1] [2] 4 ++ [.call (.put [3] [4])] ++ [.compaction]) world ∧
    world.disk.checkpoints.installed = some (.complete checkpoint) ∧ checkpoint.lastFlushedLsn = 5 ∧
    ⟨.put [3] [4], 5⟩ ∈ stamped (logged (rewrites [1] [2] 4 ++ [.call (.put [3] [4])] ++ [.compaction])) ∧
    newestEntry .reference (listed world checkpoint) [3] = none ∧
    «open» .reference {} world.disk = .ok recovered.engine recovered.disk ∧
    get .reference .none recovered [3] = .ok none := by
  obtain ⟨before, run, resting, hold, count⟩ := rewrites_run .reference {} [1] [2] 4
    (by rw [logBytes_length]; decide) (by decide)
  obtain ⟨between, put, serving, stored, holds, store⟩ := resting.write (.put [3] [4])
    (by rw [logBytes_length]; decide) (by decide)
  have needed : between.engine.compactionManager.needsCompaction = true := by
    have manager : between.engine.compactionManager = before.engine.compactionManager := congrArg Store.manager store
    rw [manager]
    exact hold.needs (by rw [count]; decide)
  obtain ⟨stats, store', ran⟩ := serving.compacts needed
  have lsn : between.engine.wal.currentSequenceNumber = 5 := holds.currentSequenceNumber_eq
  have run : Trace (Event.Step .reference) (fresh .reference {})
      (rewrites [1] [2] 4 ++ [.call (.put [3] [4])] ++ [.compaction]) (afterCompaction between store') :=
    .snoc (.snoc run.unguarded put) (compactionPass_run needed ran)
  have file : LogFile (List.replicate 4 (.put [1] [2]) ++ [.put [3] [4]]) :=
    ⟨by decide, by rw [logBytes_length]; decide⟩
  have absent : newestEntry .reference store' [3] = none :=
    newestEntry_afterCompaction_none serving ran (stored [3])
  obtain ⟨recovered, opened, got⟩ := (serving.afterCompaction ran).reopens_counted file (trace_log run)
    (congrArg (fun lsn => Except.ok (Checkpoint.mk lsn store'.manager.files)) lsn) rfl [3]
  refine ⟨_, _, recovered, run, rfl, lsn, by decide, absent, opened, got.trans ?_⟩
  exact congrArg (fun entry => Except.ok (Option.bind entry BlockEntry.visible)) absent

end StorageEngine

end VectorDb.Storage
