import VectorDb.Engine.CompactedReads

namespace VectorDb.Storage
open Lib Common CompactionManager

def Matches (store : Store) : Prop :=
  ∀ path, (store.tables path).isSome ↔ path ∈ store.manager.files.map SSTableMeta.filepath

namespace Matches

variable {pf : Platform} {io : Faults} {store store' : Store}

theorem compact {level : Int} {sources targets : List SSTableMeta} {fileData : List (SSTableMeta × SSTable)}
    {outs : List SSTable} (run : CompactionRun pf io store store' level sources targets fileData outs)
    (filed : Filed store) (same : Matches store) : Matches store' := by
  have files := run.mem_files filed
  intro path
  by_cases input : path ∈ (sources ++ targets).map SSTableMeta.filepath
  · rw [run.dropped path input, run.manager]
    simp only [Option.isSome_none, Bool.false_eq_true, false_iff]
    intro listed
    obtain ⟨file, member, rfl⟩ := List.mem_map.mp listed
    exact of_decide_eq_true (List.mem_filter.mp member).2 input
  by_cases output : ∃ j < outs.length,
      path = outputPath store.manager.dataDir (level + 1) (store.manager.nextFileNumber + j)
  · obtain ⟨j, bound, rfl⟩ := output
    rw [run.output_table filed bound]
    exact iff_of_true rfl (List.mem_map.mpr ⟨_, (files _).mpr (.inr ⟨j, bound, rfl⟩), rfl⟩)
  · rw [run.others path input fun j bound is => output ⟨j, bound, is⟩, same path]
    constructor
    · intro listed
      obtain ⟨file, member, rfl⟩ := List.mem_map.mp listed
      exact List.mem_map_of_mem ((files file).mpr (.inl ⟨member, fun taken => input (List.mem_map_of_mem taken)⟩))
    · intro listed
      obtain ⟨file, member, rfl⟩ := List.mem_map.mp listed
      rcases (files file).mp member with ⟨old, -⟩ | ⟨j, bound, rfl⟩
      · exact List.mem_map_of_mem old
      · exact absurd ⟨j, bound, rfl⟩ output

end Matches

namespace StorageEngine

variable {pf : Platform} {config : StorageConfig} {world world' : World} {flushed unflushed : List Mutation}

theorem Matches.afterFlush (same : Matches world.store) (table : SSTable) : Matches (afterFlush pf world table).store := by
  intro path
  by_cases new : path = flushPath world.engine.config.sstDir world.engine.nextSstSequence
  · simp [StorageEngine.afterFlush, World.store, flushMeta, new]
  · have old := same path
    simp only [World.store] at old
    simp [StorageEngine.afterFlush, World.store, flushMeta, new, old]

theorem trace_listed {events : List Event} (run : Trace (Event.Step pf) (fresh pf config) events world) :
    ∃ flushed unflushed, Serving pf config unflushed world ∧ Listed flushed unflushed world ∧ Matches world.store := by
  refine run.induct (P := fun _ world => ∃ flushed unflushed, Serving pf config unflushed world ∧
    Listed flushed unflushed world ∧ Matches world.store) ?_ ?_
  · refine ⟨[], [], serving_fresh pf config, ⟨holds_fresh pf config, rfl, 0, rfl, fun _ => rfl⟩, fun path => ?_⟩
    simp [World.store, fresh, Disk.empty, CompactionManager.new]
  rintro events before event after - ⟨flushed, unflushed, serving, listed, same⟩ next
  cases event with
  | call command =>
    obtain ⟨between, wrote, done⟩ := serving.command_ok next
    have serving := wrote.serving serving
    have listed := listed.wrote wrote
    have same : Matches between.store := by
      generalize command.mutations = ms at wrote
      cases wrote <;> exact same
    rcases done with rfl | ⟨nonempty, rfl⟩
    · exact ⟨_, _, serving, listed, same⟩
    · exact ⟨_, [], serving.afterFlush _, listed.afterFlush _, Matches.afterFlush same _⟩
  | compaction =>
    obtain ⟨-, rfl⟩ | ⟨-, stats, store, ran, rfl⟩ := serving.compaction_ok next
    · exact ⟨flushed, unflushed, serving, listed, same⟩
    · obtain ⟨level, sources, targets, fileData, outs, compaction⟩ := runCompaction_ok ran
      exact ⟨flushed, unflushed, serving.afterCompaction ran, listed.afterCompaction store,
        Matches.compact compaction serving.reachable.levelled.filed same⟩

/-- No flush and no merge leaves a file behind or lists one that is gone: at rest the table files on disk, the
catalogue and the checkpoint name the same files, and each of them reads back with the recorded range. -/
theorem disk_matches {start : World} {events : List Event}
    (opened : «open» pf config Disk.empty = .ok start.engine start.disk)
    (run : Trace (Event.Step pf) start events world) (moderate : Moderate pf config (logged events)) :
    (∀ path, (world.disk.tables path).isSome ↔
      path ∈ world.engine.compactionManager.files.map SSTableMeta.filepath) ∧
    (world.engine.compactionManager.files.map SSTableMeta.filepath).Nodup ∧ Readable world.store ∧
    ∃ lsn, CheckpointManager.loadCheckpoint world.disk.checkpoints = .ok ⟨lsn, world.engine.compactionManager.files⟩ := by
  obtain rfl := opened_eq_fresh opened
  obtain ⟨flushed, unflushed, serving, listed, same⟩ := trace_listed run
  obtain ⟨lsn, loaded, -⟩ := listed.checkpoint
  exact ⟨same, serving.searchable.paths, trace_readable moderate run, lsn, loaded⟩

theorem disk_matches_spread : ∃ world, Trace (Event.Step .reference) (fresh .reference {}) spread world ∧
    (∀ path, (world.disk.tables path).isSome ↔
      path ∈ world.engine.compactionManager.files.map SSTableMeta.filepath) ∧ Readable world.store := by
  obtain ⟨world, run⟩ := spread_run
  obtain ⟨same, -, readable, -⟩ := disk_matches rfl run spread_moderate
  exact ⟨world, run, same, readable⟩

end StorageEngine

end VectorDb.Storage
