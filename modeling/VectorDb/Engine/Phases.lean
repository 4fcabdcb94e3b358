import VectorDb.Engine.Serving
import VectorDb.Lib.Interleaving

namespace VectorDb.Storage
open Lib Common CompactionManager

namespace StorageEngine

/-- Where a call of `WriteEntry`, `FlushMemTable` or `Get` stands between its atomic steps. -/
inductive Phase where
  | append (m : Mutation)
  | apply (m : Mutation)
  | swap
  | capture (toFlush : MemTable)
  | draw (toFlush : MemTable) (flushLsn : Nat)
  | write (toFlush : MemTable) (flushLsn seq : Nat)
  | register (flushLsn seq : Nat) (path : Path)
  | catalogue (flushLsn : Nat)
  | save (checkpoint : Checkpoint)
  | finish
  | returned
  | lookup (key : Bytes)
  | search (key : Bytes)
  | answered (result : ErrorOr (Option Bytes))

namespace Phase

variable (pf : Platform) (io : Faults) (device : Device)

def lookupTarget (world : World) (key : Bytes) : Phase :=
  match world.engine.activeMemtable.get key with
  | some value => answered (.ok (some value))
  | none =>
    match world.engine.immutableMemtable.bind fun immutable => immutable.get key with
    | some value => answered (.ok (some value))
    | none => search key

def step : Phase → Option (Action Status World Phase)
  | append m => some do
    appendLog device m
    return apply m
  | apply m => some do
    let needsFlush ← applyMutation pf m
    return if needsFlush then swap else returned
  | swap => some do
    match ← swapMemTables pf with
    | none => return returned
    | some toFlush => return capture toFlush
  | capture toFlush => some do
    return draw toFlush (← captureLsn)
  | draw toFlush flushLsn => some do
    return write toFlush flushLsn (← drawSstSequence)
  | write toFlush flushLsn seq => some do
    let world ← MonadState.get
    writeSst io (flushPath world.engine.config.sstDir seq) toFlush
    return register flushLsn seq (flushPath world.engine.config.sstDir seq)
  | register flushLsn seq path => some do
    onStore do registerFile (flushedMeta io path seq (← MonadState.get).tables)
    return catalogue flushLsn
  | catalogue flushLsn => some do
    return save ⟨flushLsn, (← MonadState.get).engine.compactionManager.files⟩
  -- `SaveCheckpoint` holds the manager's mutex throughout.
  | save checkpoint => some do
    (saveCheckpoint io checkpoint).run
    return finish
  | finish => some do
    finishFlush
    return returned
  | returned => none
  | lookup key => some do
    return lookupTarget (← MonadState.get) key
  | search key => some do
    let world ← MonadState.get
    return answered (getFromSSTables pf io world.store key)
  | answered _ => none

def complete : Nat → Phase → Action Status World Phase
  | 0, phase => return phase
  | fuel + 1, phase =>
    match step pf io device phase with
    | none => return phase
    | some x => x >>= complete fuel

theorem complete_swap : complete pf io device 8 swap = (flushMemTable pf io).run >>= fun _ => pure returned := by
  simp only [complete, step, flushMemTable, Program.run_bind, Program.run_atomic, bind_assoc]
  congr 1
  funext found
  cases found with
  | none => simp
  | some toFlush => simp [Program.run_bind]

theorem complete_append (m : Mutation) :
    complete pf io device 10 (append m) = (writeEntry pf io device m).run >>= fun _ => pure returned := by
  rw [complete]
  simp only [step, writeEntry, Program.run_bind, Program.run_atomic, Program.run_tearing, bind_assoc, pure_bind]
  congr 1
  funext _
  rw [complete]
  simp only [step, bind_assoc, pure_bind]
  congr 1
  funext needsFlush
  cases needsFlush with
  | true => exact complete_swap pf io device
  | false => rfl

theorem complete_lookup (key : Bytes) (world : World) :
    complete pf io device 2 (lookup key) world = .ok (answered (get pf io world key)) world := by
  change complete pf io device 1 (lookupTarget world key) world = _
  rw [get, lookupTarget]
  cases world.engine.activeMemtable.get key with
  | some value => rfl
  | none =>
    cases world.engine.immutableMemtable.bind fun immutable => immutable.get key with
    | some value => rfl
    | none => rfl

end Phase

inductive Moves (pf : Platform) (device : Device) (world : World) : Phase → Phase → World → Prop
  | append {m : Mutation} {lsn : Nat} {wal : WAL} {file : Bytes} :
      world.engine.wal.append device (world.disk.log.getD []) (m.entry 0) = (.ok lsn, wal, file) →
      Moves pf device world (.append m) (.apply m)
        ⟨{ world.disk with log := some file }, { world.engine with wal, walWrites := world.engine.walWrites + 1 }⟩
  | apply (m : Mutation) :
      Moves pf device world (.apply m)
        (if (world.engine.activeMemtable.apply pf m).approximateMemoryUsage ≥ world.engine.config.memtableSizeBytes
          then .swap else .returned)
        { world with engine := { world.engine with activeMemtable := world.engine.activeMemtable.apply pf m } }
  | swapEmpty : world.engine.activeMemtable.entries = [] → Moves pf device world .swap .returned world
  | swap : world.engine.activeMemtable.entries ≠ [] →
      Moves pf device world .swap (.capture world.engine.activeMemtable)
        { world with engine := { world.engine with activeMemtable := MemTable.new pf, immutableMemtable := none } }
  | capture (toFlush : MemTable) :
      Moves pf device world (.capture toFlush) (.draw toFlush world.engine.wal.currentSequenceNumber) world
  | draw (toFlush : MemTable) (flushLsn : Nat) :
      Moves pf device world (.draw toFlush flushLsn) (.write toFlush flushLsn world.engine.nextSstSequence)
        { world with engine := { world.engine with nextSstSequence := world.engine.nextSstSequence + 1 } }
  | write {toFlush : MemTable} (flushLsn seq : Nat) (nonempty : toFlush.entries ≠ []) :
      Moves pf device world (.write toFlush flushLsn seq)
        (.register flushLsn seq (flushPath world.engine.config.sstDir seq))
        { world with disk := { world.disk with
          tables := Function.update world.disk.tables (flushPath world.engine.config.sstDir seq)
            (some (.complete (.ofMemTable toFlush nonempty))) } }
  | register (flushLsn seq : Nat) (path : Path) : 0 < world.engine.compactionManager.maxLevel →
      Moves pf device world (.register flushLsn seq path) (.catalogue flushLsn)
        (world.withStore (withFiles world.store [flushedMeta .none path seq world.disk.tables]))
  | catalogue (flushLsn : Nat) :
      Moves pf device world (.catalogue flushLsn) (.save ⟨flushLsn, world.engine.compactionManager.files⟩) world
  | save (checkpoint : Checkpoint) :
      Moves pf device world (.save checkpoint) .finish (world.withCheckpoints ⟨some (.complete checkpoint), none⟩)
  | finish : Moves pf device world .finish .returned
      { world with engine := { world.engine with
        immutableMemtable := none, memtableFlushes := world.engine.memtableFlushes + 1 } }
  | lookup (key : Bytes) : Moves pf device world (.lookup key) (Phase.lookupTarget world key) world
  | search (key : Bytes) :
      Moves pf device world (.search key) (.answered (getFromSSTables pf .none world.store key)) world

variable {pf : Platform} {device : Device} {world world' : World}

theorem Moves.apply_small {m : Mutation} (table : MemTable) (limit : Nat)
    (live : world.engine.activeMemtable = table) (limited : world.engine.config.memtableSizeBytes = limit)
    (small : (table.apply pf m).approximateMemoryUsage < limit) :
    Moves pf device world (.apply m) .returned
      { world with engine := { world.engine with activeMemtable := table.apply pf m } } := by
  have moves : Moves pf device world (.apply m) _ _ := .apply m
  rwa [live, limited, if_neg (not_le.mpr small)] at moves

theorem Moves.step {phase target : Phase} (moves : Moves pf device world phase target world') :
    ∃ x, phase.step pf .none device = some x ∧ x world = .ok target world' := by
  cases moves with
  | append appended => exact ⟨_, rfl, Action.bind_ok.mpr ⟨(), _, appendLog_ok.mpr ⟨_, _, _, appended, rfl⟩, rfl⟩⟩
  | apply m =>
    refine ⟨_, rfl, ?_⟩
    rw [Action.bind_of_ok (applyMutation_run m world)]
    simp
  | swapEmpty empty =>
    refine ⟨_, rfl, ?_⟩
    rw [Action.bind_of_ok (swapMemTables_empty pf ((MemTable.isEmpty_iff _).mpr empty))]
    rfl
  | swap filled =>
    refine ⟨_, rfl, ?_⟩
    rw [Action.bind_of_ok (swapMemTables_filled pf fun isEmpty => filled ((MemTable.isEmpty_iff _).mp isEmpty))]
    rfl
  | capture toFlush => exact ⟨_, rfl, rfl⟩
  | draw toFlush flushLsn => exact ⟨_, rfl, rfl⟩
  | write flushLsn seq nonempty =>
    refine ⟨_, rfl, ?_⟩
    rw [Action.bind_of_ok (Action.get_eq world), Action.bind_of_ok (writeSst_run _ nonempty)]
    rfl
  | register flushLsn seq path levels =>
    exact ⟨_, rfl, Action.bind_ok.mpr ⟨(), _, Action.zoom_ok.mpr
      ⟨_, Action.bind_ok.mpr ⟨_, _, rfl, registerFile_ok.mpr ⟨⟨le_rfl, levels⟩, rfl⟩⟩, rfl⟩, rfl⟩⟩
  | catalogue flushLsn => exact ⟨_, rfl, rfl⟩
  | save checkpoint =>
    refine ⟨_, rfl, ?_⟩
    rw [Action.bind_of_ok (saveCheckpoint_run checkpoint world)]
    rfl
  | finish => exact ⟨_, rfl, rfl⟩
  | lookup key => exact ⟨_, rfl, rfl⟩
  | search key => exact ⟨_, rfl, rfl⟩

theorem writeSst_ok {path : Path} {toFlush : MemTable} (ran : writeSst .none path toFlush world = .ok () world') :
    ∃ nonempty, world' = { world with disk := { world.disk with
      tables := Function.update world.disk.tables path (some (.complete (.ofMemTable toFlush nonempty))) } } := by
  by_cases empty : toFlush.entries = []
  · obtain ⟨store, inStore, -⟩ := Action.zoom_ok.mp ran
    obtain ⟨tables, inTables, -⟩ := Action.zoom_ok.mp inStore
    simp [writeTable, Faults.none, empty, Action.bind_ok] at inTables
  · rw [writeSst_run path empty] at ran
    cases ran
    exact ⟨empty, rfl⟩

theorem step_moves {phase target : Phase} {x : Action Status World Phase}
    (steps : phase.step pf .none device = some x) (ran : x world = .ok target world') :
    Moves pf device world phase target world' := by
  cases phase with
  | append m =>
    cases steps
    obtain ⟨⟨⟩, between, logged, done⟩ := Action.bind_ok.mp ran
    cases done
    obtain ⟨lsn, wal, file, appended, rfl⟩ := appendLog_ok.mp logged
    exact .append appended
  | apply m =>
    cases steps
    rw [Action.bind_of_ok (applyMutation_run m world)] at ran
    cases ran
    simpa using Moves.apply m
  | swap =>
    cases steps
    by_cases empty : world.engine.activeMemtable.entries = []
    · rw [Action.bind_of_ok (swapMemTables_empty pf ((MemTable.isEmpty_iff _).mpr empty))] at ran
      cases ran
      exact .swapEmpty empty
    · rw [Action.bind_of_ok (swapMemTables_filled pf fun isEmpty => empty ((MemTable.isEmpty_iff _).mp isEmpty))] at ran
      cases ran
      exact .swap empty
  | capture toFlush =>
    cases steps
    cases ran
    exact .capture toFlush
  | draw toFlush flushLsn =>
    cases steps
    cases ran
    exact .draw toFlush flushLsn
  | write toFlush flushLsn seq =>
    cases steps
    rw [Action.bind_of_ok (Action.get_eq world)] at ran
    obtain ⟨⟨⟩, between, written, done⟩ := Action.bind_ok.mp ran
    cases done
    obtain ⟨nonempty, rfl⟩ := writeSst_ok written
    exact .write flushLsn seq nonempty
  | register flushLsn seq path =>
    cases steps
    obtain ⟨⟨⟩, between, registered, done⟩ := Action.bind_ok.mp ran
    cases done
    obtain ⟨store, added, rfl⟩ := Action.zoom_ok.mp registered
    rw [Action.bind_of_ok (Action.get_eq _)] at added
    obtain ⟨levels, rfl⟩ := registerFile_ok.mp added
    exact .register flushLsn seq path levels.2
  | catalogue flushLsn =>
    cases steps
    cases ran
    exact .catalogue flushLsn
  | save checkpoint =>
    cases steps
    rw [Action.bind_of_ok (saveCheckpoint_run checkpoint world)] at ran
    cases ran
    exact .save checkpoint
  | finish =>
    cases steps
    cases ran
    exact .finish
  | returned => cases steps
  | lookup key =>
    cases steps
    cases ran
    exact .lookup key
  | search key =>
    cases steps
    cases ran
    exact .search key
  | answered result => cases steps

abbrev Calls (ι : Type) := Pool World Phase ι

abbrev Interleaved {ι : Type} [DecidableEq ι] (pf : Platform) (device : Device) (start : Calls ι)
    (moves : List (Move Phase ι)) (calls : Calls ι) : Prop :=
  Pool.Run (Phase.step pf .none device) start moves calls

section Moves
variable {ι : Type}

def Phase.appends : Phase → Option Mutation
  | append m => some m
  | _ => none

def Phase.applies : Phase → Option Mutation
  | apply m => some m
  | _ => none

def appended (moves : List (Move Phase ι)) : List Mutation := moves.filterMap fun move => move.source.appends

def applied (moves : List (Move Phase ι)) : List Mutation := moves.filterMap fun move => move.source.applies

theorem appended_concat (moves : List (Move Phase ι)) (move : Move Phase ι) :
    appended (moves ++ [move]) = appended moves ++ move.source.appends.toList := by
  rw [appended, List.filterMap_append]
  cases isAppend : move.source.appends <;> simp [appended, isAppend]

theorem applied_concat (moves : List (Move Phase ι)) (move : Move Phase ι) :
    applied (moves ++ [move]) = applied moves ++ move.source.applies.toList := by
  rw [applied, List.filterMap_append]
  cases isApply : move.source.applies <;> simp [applied, isApply]

def activeAfter (ms : List Mutation) (move : Move Phase ι) : List Mutation :=
  match move.source, move.target with
  | .apply m, _ => ms ++ [m]
  | .swap, .capture _ => []
  | _, _ => ms

def active (ms : List Mutation) (moves : List (Move Phase ι)) : List Mutation := moves.foldl activeAfter ms

theorem active_concat (ms : List Mutation) (moves : List (Move Phase ι)) (move : Move Phase ι) :
    active ms (moves ++ [move]) = activeAfter (active ms moves) move := by
  simp [active]

theorem active_unswapped (ms : List Mutation) {moves : List (Move Phase ι)}
    (unswapped : ∀ move ∈ moves, move.source ≠ .swap) : active ms moves = ms ++ applied moves := by
  induction moves using List.reverseRecOn with
  | nil => simp [active, applied]
  | append_singleton moves move ih =>
    have last := unswapped move (by simp)
    rw [active_concat, ih fun other member => unswapped other (by simp [member]), applied_concat]
    obtain ⟨i, source, target⟩ := move
    cases source <;> simp_all [activeAfter, Phase.applies]

end Moves

section Interleaved
variable {ι : Type} [DecidableEq ι] {start calls : Calls ι} {moves : List (Move Phase ι)}

theorem Interleaved.snoc {source target : Phase} {world' : World} (run : Interleaved pf device start moves calls)
    (i : ι) (stands : calls.phase i = source) (next : Moves pf device calls.state source target world') :
    Interleaved pf device start (moves ++ [⟨i, source, target⟩]) (calls.after i target world') := by
  subst stands
  obtain ⟨x, steps, ran⟩ := next.step
  exact .move i run steps ran

theorem Interleaved.induct {P : List (Move Phase ι) → Calls ι → Prop} (first : P [] start)
    (kept : ∀ moves calls i target world', Interleaved pf device start moves calls → P moves calls →
      Moves pf device calls.state (calls.phase i) target world' →
      P (moves ++ [⟨i, calls.phase i, target⟩]) (calls.after i target world'))
    (run : Interleaved pf device start moves calls) : P moves calls :=
  Pool.Run.induct first (fun _ _ i _ _ _ run before steps ran => kept _ _ i _ _ run before (step_moves steps ran)) run

def afterSwap (pf : Platform) (world : World) (table : SSTable) : World :=
  { afterFlush pf world table with engine := { (afterFlush pf world table).engine with
    activeMemtable := world.engine.activeMemtable } }

def swappedMoves (i : ι) (world : World) (toFlush : MemTable) (table : SSTable) : List (Move Phase ι) :=
  let lsn := world.engine.wal.currentSequenceNumber
  let seq := world.engine.nextSstSequence
  let path := flushPath world.engine.config.sstDir seq
  let checkpoint := ⟨lsn, world.engine.compactionManager.files ++ [flushMeta world.engine.config.sstDir table seq]⟩
  [⟨i, .capture toFlush, .draw toFlush lsn⟩, ⟨i, .draw toFlush lsn, .write toFlush lsn seq⟩,
    ⟨i, .write toFlush lsn seq, .register lsn seq path⟩, ⟨i, .register lsn seq path, .catalogue lsn⟩,
    ⟨i, .catalogue lsn, .save checkpoint⟩, ⟨i, .save checkpoint, .finish⟩, ⟨i, .finish, .returned⟩]

def flushMoves (i : ι) (world : World) (table : SSTable) : List (Move Phase ι) :=
  ⟨i, .swap, .capture world.engine.activeMemtable⟩ :: swappedMoves i world world.engine.activeMemtable table

omit [DecidableEq ι] in
theorem flushMoves_save (i : ι) (world : World) (table : SSTable) :
    ∃ checkpoint, ∃ move ∈ flushMoves i world table, move.thread = i ∧ move.source = .save checkpoint :=
  ⟨_, ⟨i, .save _, .finish⟩, List.mem_of_getElem? (i := 6) rfl, rfl, rfl⟩

theorem Interleaved.flushSwapped {toFlush : MemTable} (run : Interleaved pf device start moves calls) (i : ι)
    (stands : calls.phase i = .capture toFlush) (nonempty : toFlush.entries ≠ [])
    (levels : 0 < calls.state.engine.compactionManager.maxLevel) :
    Interleaved pf device start (moves ++ swappedMoves i calls.state toFlush (.ofMemTable toFlush nonempty))
      (calls.after i .returned (afterSwap pf calls.state (.ofMemTable toFlush nonempty))) := by
  have captured := run.snoc i stands (.capture _)
  have drawn := captured.snoc i (Pool.after_phase_self _ _ _ _) (.draw _ _)
  have wrote := drawn.snoc i (Pool.after_phase_self _ _ _ _) (.write _ _ nonempty)
  have registered := wrote.snoc i (Pool.after_phase_self _ _ _ _) (.register _ _ _ levels)
  simp only [Pool.after_state] at registered
  rw [flushedMeta_eq (Function.update_self _ _ _)] at registered
  have catalogued := registered.snoc i (Pool.after_phase_self _ _ _ _) (.catalogue _)
  have saved := catalogued.snoc i (Pool.after_phase_self _ _ _ _) (.save _)
  have finished := saved.snoc i (Pool.after_phase_self _ _ _ _) .finish
  simp only [Pool.after_after, List.append_assoc, List.cons_append, List.nil_append] at finished
  exact finished

theorem Interleaved.flush (run : Interleaved pf device start moves calls) (i : ι) (stands : calls.phase i = .swap)
    (nonempty : calls.state.engine.activeMemtable.entries ≠ [])
    (levels : 0 < calls.state.engine.compactionManager.maxLevel) :
    Interleaved pf device start
      (moves ++ flushMoves i calls.state (.ofMemTable calls.state.engine.activeMemtable nonempty))
      (calls.after i .returned (afterFlush pf calls.state (.ofMemTable calls.state.engine.activeMemtable nonempty))) := by
  have swapped := run.snoc i stands (.swap nonempty)
  have finished := swapped.flushSwapped i (Pool.after_phase_self _ _ _ _) nonempty levels
  simp only [Pool.after_after, List.append_assoc, List.cons_append, List.nil_append] at finished
  exact finished

theorem Interleaved.holds {all : List Mutation} (run : Interleaved pf .faultless start moves calls)
    (holds : start.state.engine.wal.Holds (start.state.disk.log.getD []) all) :
    calls.state.engine.wal.Holds (calls.state.disk.log.getD []) (all ++ appended moves) := by
  refine run.induct (P := fun moves calls =>
    calls.state.engine.wal.Holds (calls.state.disk.log.getD []) (all ++ appended moves)) (by simpa [appended]) ?_
  intro moves calls i target world' _ before next
  generalize calls.phase i = source at next
  rw [appended_concat]
  cases next with
  | append done =>
    rw [← List.append_assoc]
    exact (before.append_ok done).2
  | _ =>
    simp only [Phase.appends, Option.toList_none, List.append_nil]
    exact before

theorem Interleaved.log_eq {all : List Mutation} (run : Interleaved pf .faultless start moves calls)
    (holds : start.state.engine.wal.Holds (start.state.disk.log.getD []) all) (created : start.state.disk.log.isSome) :
    calls.state.disk.log = some (logBytes (all ++ appended moves)) := by
  have created : calls.state.disk.log.isSome := by
    refine run.induct (P := fun _ calls => calls.state.disk.log.isSome) created ?_
    intro moves calls i target world' _ before next
    generalize calls.phase i = source at next
    cases next with
    | append => rfl
    | _ => exact before
  obtain ⟨file, isFile⟩ := Option.isSome_iff_exists.mp created
  rw [isFile, ← (run.holds holds).contents, isFile, Option.getD_some]

theorem Interleaved.active_entries {ms : List Mutation} (run : Interleaved pf device start moves calls)
    (first : start.state.engine.activeMemtable.entries = replay BlockEntry.key (effects ms) []) :
    calls.state.engine.activeMemtable.entries = replay BlockEntry.key (effects (active ms moves)) [] := by
  refine run.induct (P := fun moves calls => calls.state.engine.activeMemtable.entries =
    replay BlockEntry.key (effects (active ms moves)) []) first ?_
  intro moves calls i target world' _ before next
  generalize calls.phase i = source at next
  rw [active_concat]
  cases next with
  | apply m =>
    rw [activeAfter, effects_append, replay_append, ← before]
    exact MemTable.entries_apply pf _ m
  | swap => exact MemTable.entries_new pf
  | _ => exact before

theorem Interleaved.immutable_none (run : Interleaved pf device start moves calls)
    (none : start.state.engine.immutableMemtable = none) :
    calls.state.engine.immutableMemtable = .none := by
  refine run.induct (P := fun _ calls => calls.state.engine.immutableMemtable = .none) none ?_
  intro moves calls i target world' _ before next
  generalize calls.phase i = source at next
  cases next with
  | swap => rfl
  | finish => rfl
  | _ => exact before

end Interleaved

end StorageEngine

end VectorDb.Storage
