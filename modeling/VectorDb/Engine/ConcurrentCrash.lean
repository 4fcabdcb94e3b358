import VectorDb.Engine.CrashSafety
import VectorDb.Engine.FlushOrder

namespace VectorDb.Storage
open Lib Common CompactionManager

namespace StorageEngine

section Crash
variable {ι : Type}

/-- What a crash leaves while every call may be inside its step: of the record being appended a proper part, at
the paths of the tables being written anything, and beside the installed checkpoint any temporary file. -/
structure CrashDuring (calls : Calls ι) (crashed : Disk) : Prop where
  log : crashed.log = calls.state.disk.log ∨ ∃ i m torn, calls.phase i = .append m ∧
    tornAppend m calls.state torn ∧ crashed.log = torn.disk.log
  tables : ∀ path, crashed.tables path = calls.state.disk.tables path ∨ ∃ i toFlush lsn seq,
    calls.phase i = .write toFlush lsn seq ∧ path = flushPath calls.state.engine.config.sstDir seq
  installed : crashed.checkpoints.installed = calls.state.disk.checkpoints.installed

structure ListsInitial (world : World) (phase : ι → Phase) : Prop where
  installed : ∃ checkpoint, CheckpointManager.loadCheckpoint world.disk.checkpoints = .ok checkpoint ∧
    checkpoint.sstables <+: world.engine.compactionManager.files
  pending : ∀ i checkpoint, phase i = .save checkpoint →
    checkpoint.sstables <+: world.engine.compactionManager.files

end Crash

theorem Phase.lookupTarget_cases (world : World) (key : Bytes) :
    Phase.lookupTarget world key = .search key ∨ ∃ result, Phase.lookupTarget world key = .answered result := by
  rw [Phase.lookupTarget]
  cases world.engine.activeMemtable.get key with
  | some value => exact .inr ⟨_, rfl⟩
  | none =>
    cases world.engine.immutableMemtable.bind fun immutable => immutable.get key with
    | some value => exact .inr ⟨_, rfl⟩
    | none => exact .inl rfl

theorem Moves.not_append {pf : Platform} {device : Device} {world world' : World} {source target : Phase}
    (next : Moves pf device world source target world') (m : Mutation) : target ≠ .append m := by
  cases next with
  | apply => split_ifs <;> nofun
  | lookup key => rcases Phase.lookupTarget_cases world key with is | ⟨result, is⟩ <;> simp [is]
  | _ => nofun

section Invariant
variable {ι : Type} [DecidableEq ι] {pf : Platform} {device : Device} {world world' : World} {phase : ι → Phase}
  {target : Phase} {i : ι}

namespace ListsInitial

theorem update (before : ListsInitial world phase) (installed : ∃ checkpoint,
      CheckpointManager.loadCheckpoint world'.disk.checkpoints = .ok checkpoint ∧
        checkpoint.sstables <+: world'.engine.compactionManager.files)
    (files : world.engine.compactionManager.files <+: world'.engine.compactionManager.files)
    (own : ∀ checkpoint, target = .save checkpoint → checkpoint.sstables <+: world'.engine.compactionManager.files) :
    ListsInitial world' (Function.update phase i target) := by
  refine ⟨installed, fun j checkpoint stands => ?_⟩
  by_cases mover : j = i
  · rw [mover, Function.update_self] at stands
    exact own checkpoint stands
  · rw [Function.update_of_ne mover] at stands
    exact (before.pending j checkpoint stands).trans files

theorem other (before : ListsInitial world phase) (checkpoints : world'.disk.checkpoints = world.disk.checkpoints)
    (files : world'.engine.compactionManager.files = world.engine.compactionManager.files)
    (unsaved : ∀ checkpoint, target ≠ .save checkpoint) : ListsInitial world' (Function.update phase i target) := by
  refine before.update ?_ (files ▸ List.prefix_refl _) fun checkpoint stands => absurd stands (unsaved checkpoint)
  rw [checkpoints, files]
  exact before.installed

theorem move (before : ListsInitial world phase) (next : Moves pf device world (phase i) target world') :
    ListsInitial world' (Function.update phase i target) := by
  have pending := before.pending i
  generalize phase i = source at next pending
  cases next with
  | register lsn seq path levels =>
    obtain ⟨checkpoint, loaded, initial⟩ := before.installed
    exact before.update ⟨checkpoint, loaded, initial.trans (List.prefix_append _ _)⟩ (List.prefix_append _ _) nofun
  | catalogue lsn =>
    refine before.update before.installed (List.prefix_refl _) fun checkpoint stands => ?_
    cases stands
    exact List.prefix_refl _
  | save checkpoint =>
    -- The list was taken from the catalogue, which has only grown since.
    exact before.update ⟨checkpoint, rfl, pending checkpoint rfl⟩ (List.prefix_refl _) nofun
  | apply m => exact before.other rfl rfl (by split_ifs <;> nofun)
  | lookup key =>
    refine before.other rfl rfl fun checkpoint => ?_
    rcases Phase.lookupTarget_cases world key with is | ⟨result, is⟩ <;> simp [is]
  | _ => exact before.other rfl rfl nofun

end ListsInitial

end Invariant

section Theorem
variable {ι : Type} [DecidableEq ι] {pf : Platform} {device : Device} {config : StorageConfig} {phase : ι → Phase}
  {moves : List (Move Phase ι)} {calls : Calls ι} {crashed : Disk}

theorem run_listsInitial (unsaved : ∀ i checkpoint, phase i ≠ .save checkpoint)
    (run : Interleaved pf device ⟨fresh pf config, phase⟩ moves calls) : ListsInitial calls.state calls.phase := by
  refine run.induct (P := fun _ calls => ListsInitial calls.state calls.phase) ?_ ?_
  · exact ⟨⟨_, rfl, List.prefix_refl _⟩, fun i checkpoint stands => absurd stands (unsaved i checkpoint)⟩
  · exact fun moves calls i target world' _ before next => before.move next

theorem run_appends {start : World} (run : Interleaved pf device ⟨start, phase⟩ moves calls) :
    (∀ i m, calls.phase i = .append m → phase i = .append m) ∧ ∀ m ∈ appended moves, ∃ i, phase i = .append m := by
  refine run.induct (P := fun moves calls => (∀ i m, calls.phase i = .append m → phase i = .append m) ∧
    ∀ m ∈ appended moves, ∃ i, phase i = .append m) ⟨fun _ _ stands => stands, by simp [appended]⟩ ?_
  rintro moves calls i target world' - ⟨standing, earlier⟩ next
  constructor
  · intro j m stands
    by_cases mover : j = i
    · rw [mover, Pool.after_phase_self] at stands
      exact absurd stands (next.not_append m)
    · exact standing j m (by simpa [Pool.after, mover] using stands)
  · intro m member
    rw [appended_concat] at member
    rcases List.mem_append.mp member with old | new
    · exact earlier m old
    · refine ⟨i, standing i m ?_⟩
      dsimp only at new
      generalize calls.phase i = source at new
      cases source <;> simp_all [Phase.appends]

omit [DecidableEq ι] in
theorem FlushJobs.unwritten {swapped : List (ι × MemTable)} {drawn : List (Draw ι)} {world : World} {phase : ι → Phase}
    (flushes : FlushJobs config swapped drawn world phase) {file : SSTableMeta}
    (member : file ∈ world.engine.compactionManager.files) {i : ι} {toFlush : MemTable} {lsn seq : Nat}
    (writes : phase i = .write toFlush lsn seq) : file.filepath ≠ flushPath config.sstDir seq := by
  intro same
  have job := flushes.jobs i
  rw [writes] at job
  cases job with
  | write _ drew =>
    obtain ⟨draw, inside, built, table, -, rfl, -⟩ := flushes.files file member
    obtain rfl := flushes.number_inj inside drew (flushPath_inj same)
    rw [writes] at built
    cases built

omit [DecidableEq ι] in
theorem CrashDuring.log_eq {ms : List Mutation} (crash : CrashDuring calls crashed)
    (isLog : calls.state.disk.log = some (logBytes ms))
    (short : ∀ i m, calls.phase i = .append m → m.payloadSize ≤ kMaxPayload) :
    ∃ tail, Torn tail ∧ crashed.log = some (logBytes ms ++ tail) := by
  rcases crash.log with same | ⟨i, m, torn, stands, ⟨-, kept, proper, rfl⟩, same⟩
  · exact ⟨[], torn_nil, by rw [same, isLog, List.append_nil]⟩
  · refine ⟨_, ⟨m, _, kept, short i m stands, proper, rfl⟩, ?_⟩
    rw [same, isLog]
    rfl

/-- Whatever calls run at the same time and wherever in their steps the process dies, the engine opens again. The
catalogue it opens with is an initial part of the one in memory, all of whose tables are complete and read back, and
the MemTable has what the log has after the checkpoint. -/
theorem concurrent_crash_opens {start : World} (opened : «open» pf config Disk.empty = .ok start.engine start.disk)
    (callers : ∀ i, phase i = .swap ∨ ∃ m, phase i = .append m)
    (run : Interleaved pf .faultless ⟨start, phase⟩ moves calls)
    (short : ∀ i m, phase i = .append m → m.payloadSize ≤ kMaxPayload)
    (small : ∀ swap ∈ swaps moves, dataSize swap.2.entries ≤ 2 ^ 30) (crash : CrashDuring calls crashed) :
    ∃ checkpoint recovered, CheckpointManager.loadCheckpoint crashed.checkpoints = .ok checkpoint ∧
      checkpoint.sstables <+: calls.state.engine.compactionManager.files ∧
      (∀ file ∈ checkpoint.sstables, ∃ table, Recorded crashed.tables file table ∧
        RoundTrips table.entries table.entries.length) ∧
      «open» pf config crashed = .ok recovered crashed ∧ recovered.compactionManager.files = checkpoint.sstables ∧
      recovered.activeMemtable.entries =
        replay BlockEntry.key (effects ((appended moves).drop checkpoint.lastFlushedLsn)) [] := by
  obtain rfl := opened_eq_fresh opened
  have flushes := FlushJobs.of_run callers run
  have unsaved : ∀ i checkpoint, phase i ≠ .save checkpoint := by
    intro i checkpoint stands
    rcases callers i with swap | ⟨m, append⟩
    · cases swap.symm.trans stands
    · cases append.symm.trans stands
  obtain ⟨checkpoint, loaded, initial⟩ := (run_listsInitial unsaved run).installed
  obtain ⟨standing, made⟩ := run_appends run
  have shortLog : ∀ m ∈ appended moves, m.payloadSize ≤ kMaxPayload := by
    intro m member
    obtain ⟨i, made⟩ := made m member
    exact short i m made
  have holds := run.holds (holds_fresh pf config)
  have isLog := run.log_eq (holds_fresh pf config) rfl
  rw [List.nil_append] at holds isLog
  rw [isLog, Option.getD_some] at holds
  obtain ⟨tail, torn, crashedLog⟩ := crash.log_eq isLog fun i m stands => short i m (standing i m stands)
  have loaded' : CheckpointManager.loadCheckpoint crashed.checkpoints = .ok checkpoint := by
    rw [← loaded, CheckpointManager.loadCheckpoint, CheckpointManager.loadCheckpoint, crash.installed]
  have levels : ∀ file ∈ checkpoint.sstables, 0 ≤ file.level ∧ file.level < leveled.kNumLevels := by
    intro file member
    rw [← flushes.manager.2]
    exact flushes.searchable.levels file (initial.subset member)
  refine ⟨checkpoint, _, loaded', initial, fun file member => ?_,
    open_ok (holds.log shortLog) torn crashedLog loaded' levels, rfl, MemTable.entries_applyAll_new _ _⟩
  obtain ⟨table, ⟨complete, ranges⟩, roundTrips⟩ := flushes.readable small file (initial.subset member)
  refine ⟨table, ⟨?_, ranges⟩, roundTrips⟩
  -- Only a table that is still being written can be torn, and no checkpoint lists it.
  rcases crash.tables file.filepath with same | ⟨i, toFlush, lsn, seq, writes, same⟩
  · exact same.trans complete
  · rw [flushes.configured] at same
    exact absurd same (flushes.unwritten (initial.subset member) writes)

end Theorem

def secondPath : Path := flushPath (text "/tmp/vectordb_data/sst") 2

def tornSecond (disk : Disk) : Disk :=
  { disk with tables := Function.update disk.tables secondPath (some (.torn [7])) }

theorem second_flush_writes : ∃ moves calls,
    Interleaved .reference .faultless ⟨fresh .reference {}, twoFlushes⟩ moves calls ∧
    calls.phase (true, true) = .write (written1 [3]) 2 2 ∧
    swaps moves = [((true, false), written1 [2]), ((true, true), written1 [3])] ∧
    appended moves = [.put [1] [2], .put [1] [3]] ∧
    ∃ checkpoint, CheckpointManager.loadCheckpoint calls.state.disk.checkpoints = .ok checkpoint ∧
      checkpoint.lastFlushedLsn = 1 ∧ checkpoint.sstables.length = 1 := by
  have holds := holds_fresh .reference {}
  obtain ⟨lsn, wal, file, first⟩ := holds.append_room (m := .put [1] [2]) (by rw [logBytes_length]; decide)
  have holds' := (holds.append_ok first).2
  obtain ⟨lsn', wal', file', second⟩ := holds'.append_room (m := .put [1] [3]) (by rw [logBytes_length]; decide)
  have counted : wal.currentSequenceNumber = 1 := holds'.currentSequenceNumber_eq
  have counted' : wal'.currentSequenceNumber = 2 := (holds'.append_ok second).2.currentSequenceNumber_eq
  have filled : ∀ value, (written1 value).entries ≠ [] := fun value => by simp [written1_entries]
  have levels : (0 : Int) < leveled.kNumLevels := by decide
  have run : Interleaved .reference .faultless ⟨fresh .reference {}, twoFlushes⟩ [] _ := .refl
  have run := run.snoc (false, false) rfl (.append first)
  have run := run.snoc (false, false) rfl (.apply_small (MemTable.new .reference) (64 * 1024 * 1024) rfl rfl (by decide))
  have run := run.snoc (true, false) rfl (.swap (filled [2]))
  have run := run.flushSwapped (true, false) rfl (filled [2]) levels
  have run := run.snoc (false, true) rfl (.append second)
  have run := run.snoc (false, true) rfl (.apply_small (MemTable.new .reference) (64 * 1024 * 1024) rfl rfl (by decide))
  have run := run.snoc (true, true) rfl (.swap (filled [3]))
  have run := run.snoc (true, true) rfl (.capture _)
  have run := run.snoc (true, true) rfl (.draw _ _)
  refine ⟨_, _, run, ?_, rfl, rfl, _, rfl, counted, rfl⟩
  exact congrArg (fun lsn => Phase.write (written1 [3]) lsn 2) counted'

theorem concurrent_crash_torn_table : ∃ moves calls recovered,
    Interleaved .reference .faultless ⟨fresh .reference {}, twoFlushes⟩ moves calls ∧
    CrashDuring calls (tornSecond calls.state.disk) ∧
    «open» .reference {} (tornSecond calls.state.disk) = .ok recovered (tornSecond calls.state.disk) ∧
    recovered.compactionManager.files.length = 1 ∧ recovered.activeMemtable.entries = [⟨[1], [3], false⟩] := by
  obtain ⟨moves, calls, run, writes, swapped, logged, checkpoint, loaded, lsn, one⟩ := second_flush_writes
  have configured := (FlushJobs.of_run twoFlushes_callers run).configured
  have short : ∀ i m, twoFlushes i = .append m → m.payloadSize ≤ kMaxPayload := by
    rintro ⟨_ | _, _ | _⟩ m stands <;> cases stands <;> decide
  have crash : CrashDuring calls (tornSecond calls.state.disk) := by
    refine ⟨.inl rfl, fun path => ?_, rfl⟩
    by_cases same : path = secondPath
    · exact .inr ⟨_, _, _, _, writes, by rw [same, configured, secondPath]⟩
    · exact .inl (Function.update_of_ne same _ _)
  obtain ⟨checkpoint', recovered, loaded', -, -, opens, files, entries⟩ :=
    concurrent_crash_opens rfl twoFlushes_callers run short (twoFlushes_small swapped) crash
  obtain rfl : checkpoint' = checkpoint := Except.ok.inj (loaded'.symm.trans loaded)
  refine ⟨moves, calls, recovered, run, crash, opens, by rw [files, one], ?_⟩
  rw [entries, logged, lsn]
  rfl

end StorageEngine

end VectorDb.Storage
