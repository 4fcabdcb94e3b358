import VectorDb.Compaction.Meaning
import VectorDb.Engine.FlushRace
import VectorDb.Lib.Trace

namespace VectorDb.Storage
open Lib Common CompactionManager

namespace StorageEngine

inductive Event where
  | call (command : Command)
  | compaction
deriving DecidableEq, Repr

namespace Event

def program (pf : Platform) (io : Faults) (device : Device) : Event → Program Status World Unit
  | call command => command.program pf io device
  | compaction => compactionPass pf io

def mutations : Event → List Mutation
  | call command => command.mutations
  | compaction => []

def Step (pf : Platform) (before : World) (event : Event) (after : World) : Prop :=
  (event.program pf .none .faultless).run before = .ok () after

end Event

def logged (events : List Event) : List Mutation := events.flatMap Event.mutations

theorem logged_concat (events : List Event) (event : Event) :
    logged (events ++ [event]) = logged events ++ event.mutations := by
  simp [logged]

variable {pf : Platform} {config : StorageConfig} {world world' : World} {flushed unflushed : List Mutation}

def afterCompaction (world : World) (store : Store) : World :=
  (world.withStore store).withCheckpoints
    ⟨some (.complete ⟨world.engine.wal.currentSequenceNumber, store.manager.files⟩), none⟩

theorem compactionPass_unneeded (unneeded : world.engine.compactionManager.needsCompaction = false) :
    (compactionPass pf .none).run world = .ok () world := by
  rw [compactionPass, Program.run_bind, Program.run_atomic, Action.bind_of_ok (Action.get_eq world), unneeded]
  rfl

theorem compactionSteps_attempt {store : Store} {stats : CompactionStats}
    (ran : runCompaction pf .none world.store = .ok stats store) :
    (((compactionSteps pf .none).zoom World.store World.withStore).attempt).run world =
      .ok (.ok stats) (world.withStore store) := by
  rw [Program.run_attempt, Program.run_zoom World.store_withStore World.withStore_withStore World.withStore_store,
    compactionSteps_run]
  exact Action.attempt_of_ok (Action.zoom_ok.mpr ⟨store, ran, rfl⟩)

theorem compactionPass_run {store : Store} {stats : CompactionStats}
    (needed : world.engine.compactionManager.needsCompaction = true)
    (ran : runCompaction pf .none world.store = .ok stats store) :
    (compactionPass pf .none).run world = .ok () (afterCompaction world store) := by
  rw [compactionPass, Program.run_bind, Program.run_atomic, Action.bind_of_ok (Action.get_eq world), if_pos needed,
    Program.run_bind, Action.bind_of_ok (compactionSteps_attempt ran)]
  simp only [Program.run_bind, Program.run_atomic, Program.run_attempt]
  rw [Action.bind_of_ok (captureLsn_run _), Action.bind_of_ok (Action.get_eq _),
    Action.bind_of_ok (Action.attempt_of_ok (saveCheckpoint_run _ _))]
  rfl

namespace Serving

theorem afterCompaction {store : Store} {stats : CompactionStats} (serving : Serving pf config unflushed world)
    (ran : runCompaction pf .none world.store = .ok stats store) :
    Serving pf config unflushed (afterCompaction world store) := by
  obtain ⟨level, sources, targets, fileData, outs, run⟩ := runCompaction_ok ran
  have files := run.mem_files serving.reachable.levelled.filed
  have valid := run.valid
  refine ⟨serving.configured, serving.reachable.compact Faults.lossless_none ran, fun file member seq later => ?_,
    fun file member zero => ?_, serving.active, serving.immutable⟩
  · rcases (files file).mp member with ⟨old, -⟩ | ⟨j, bound, rfl⟩
    · exact serving.unused file old seq later
    · rw [outputMetaOf, serving.reachable.manager.1]
      exact (flushPath_ne_outputPath _ _ (by omega) _).symm
  · rcases (files file).mp member with ⟨old, -⟩ | ⟨j, bound, rfl⟩
    · exact serving.stamps file old zero
    · simp only [outputMetaOf] at zero
      omega

theorem compacts (serving : Serving pf config unflushed world)
    (needed : world.engine.compactionManager.needsCompaction = true) :
    ∃ stats store, runCompaction pf .none world.store = .ok stats store := by
  refine runCompaction_succeeds Faults.silent_none needed ?_ fun file member => ?_
  · rw [serving.reachable.manager.2]
    decide
  · obtain ⟨table, recorded⟩ := serving.searchable.recorded file member
    exact ⟨table, recorded.1⟩

theorem compaction_ok (serving : Serving pf config unflushed world)
    (ran : (compactionPass pf .none).run world = .ok () world') :
    (world.engine.compactionManager.needsCompaction = false ∧ world' = world) ∨
      world.engine.compactionManager.needsCompaction = true ∧ ∃ stats store,
        runCompaction pf .none world.store = .ok stats store ∧ world' = StorageEngine.afterCompaction world store := by
  cases needed : world.engine.compactionManager.needsCompaction with
  | false =>
    rw [compactionPass_unneeded needed] at ran
    cases ran
    exact .inl ⟨rfl, rfl⟩
  | true =>
    obtain ⟨stats, store, compacted⟩ := serving.compacts needed
    rw [compactionPass_run needed compacted] at ran
    cases ran
    exact .inr ⟨rfl, stats, store, compacted, rfl⟩

end Serving

theorem trace_serving {events : List Event} (run : Trace (Event.Step pf) (fresh pf config) events world) :
    ∃ flushed unflushed, flushed ++ unflushed = logged events ∧ Serving pf config unflushed world ∧
      world.engine.wal.Holds (world.disk.log.getD []) (logged events) ∧ world.disk.log.isSome := by
  refine run.induct (P := fun events world => ∃ flushed unflushed, flushed ++ unflushed = logged events ∧
    Serving pf config unflushed world ∧ world.engine.wal.Holds (world.disk.log.getD []) (logged events) ∧
    world.disk.log.isSome) ⟨[], [], rfl, serving_fresh pf config, holds_fresh pf config, rfl⟩ ?_
  rintro events before event after - ⟨flushed, unflushed, all, serving, holds, created⟩ next
  rw [logged_concat]
  cases event with
  | call command =>
    have holds := serving.command_holds holds next
    obtain ⟨between, wrote, rfl | ⟨nonempty, rfl⟩⟩ := serving.command_ok next
    · exact ⟨flushed, unflushed ++ command.mutations, by rw [← List.append_assoc, all]; rfl, wrote.serving serving,
        holds, wrote.created created⟩
    · exact ⟨_, [], List.append_nil _, (wrote.serving serving).afterFlush _, holds, wrote.created created⟩
  | compaction =>
    rw [Event.mutations, List.append_nil]
    obtain ⟨-, rfl⟩ | ⟨-, stats, store, ran, rfl⟩ := serving.compaction_ok next
    · exact ⟨flushed, unflushed, all, serving, holds, created⟩
    · exact ⟨flushed, unflushed, all, serving.afterCompaction ran, holds, created⟩

theorem trace_log {events : List Event} (run : Trace (Event.Step pf) (fresh pf config) events world) :
    world.disk.log = some (logBytes (logged events)) := by
  obtain ⟨-, -, -, -, holds, created⟩ := trace_serving run
  obtain ⟨file, isFile⟩ := Option.isSome_iff_exists.mp created
  rw [isFile, ← holds.contents, isFile, Option.getD_some]

theorem Sized.event {event : Event} (sized : Sized pf world) (serving : Serving pf config unflushed world)
    (moderate : Moderate pf config event.mutations) (next : event.Step pf world world') : Sized pf world' := by
  cases event with
  | call command =>
    exact sized.command moderate.platform (serving.configured ▸ moderate.threshold) serving.levels moderate.entry next
  | compaction =>
    obtain ⟨-, rfl⟩ | ⟨-, stats, store, ran, rfl⟩ := serving.compaction_ok next
    · exact sized
    · exact ⟨⟨sized.tracked, sized.entry, sized.all, runCompaction_modest sized.files ran⟩, sized.active⟩

theorem trace_sized {events : List Event} (moderate : Moderate pf config (logged events))
    (run : Trace (Event.Step pf) (fresh pf config) events world) : Sized pf world := by
  refine run.induct (P := fun events world => Moderate pf config (logged events) → Sized pf world)
    (fun _ => sized_fresh pf config) ?_ moderate
  intro events before event after run ih next moderate
  rw [logged_concat] at moderate
  obtain ⟨_, _, -, serving, -⟩ := trace_serving run
  exact (ih (moderate.part (List.subset_append_left _ _))).event serving
    (moderate.part (List.subset_append_right _ _)) next

theorem trace_readable {events : List Event} (moderate : Moderate pf config (logged events))
    (run : Trace (Event.Step pf) (fresh pf config) events world) : Readable world.store := by
  obtain ⟨_, _, -, serving, -⟩ := trace_serving run
  exact (trace_sized moderate run).readable serving.searchable

end StorageEngine

end VectorDb.Storage
