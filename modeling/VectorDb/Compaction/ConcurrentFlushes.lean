import VectorDb.Compaction.LevelInvariant
import VectorDb.Lib.Interleaving

namespace VectorDb.Storage
open Lib Common

namespace CompactionManager

section Selection
variable (pf : Platform) (manager : CompactionManager)

/-- The first half of `SelectCompactionFiles`. -/
def selectSources (sourceLevel : Int) : List SSTableMeta :=
  match manager.getFilesAtLevel pf sourceLevel with
  | [] => []
  | first :: others => if sourceLevel = 0 then first :: others else [first]

/-- The second half, which takes the lock again. -/
def selectTargets (sourceLevel : Int) (inputs : List SSTableMeta) : List SSTableMeta :=
  match inputs with
  | [] => []
  | first :: _ =>
    let (lo, hi) := rangeOf first inputs
    (manager.getFilesAtLevel pf (sourceLevel + 1)).filter fun file => file.overlapsWith lo hi

theorem selectCompactionFiles_eq (level : Int) : manager.selectCompactionFiles pf level =
    (manager.selectSources pf level, manager.selectTargets pf level (manager.selectSources pf level)) := by
  cases listed : manager.getFilesAtLevel pf level with
  | nil => simp only [selectCompactionFiles, selectSources, listed, selectTargets]
  | cons first others =>
    by_cases zero : level = 0
    · subst zero
      simp only [selectCompactionFiles, selectSources, listed, if_true, selectTargets]
    · simp only [selectCompactionFiles, selectSources, listed, zero, if_false, selectTargets]

theorem selectSources_subset (level : Int) : manager.selectSources pf level ⊆ manager.files := by
  intro file member
  have listed : file ∈ manager.getFilesAtLevel pf level := by
    rw [selectSources] at member
    split at member
    · cases member
    · next first others isCons =>
      rw [isCons]
      split at member
      · exact member
      · exact List.mem_singleton.mp member ▸ List.mem_cons_self
  exact (mem_getFilesAtLevel.mp listed).1

theorem selectTargets_subset (level : Int) (inputs : List SSTableMeta) :
    manager.selectTargets pf level inputs ⊆ manager.files := by
  intro file member
  cases inputs with
  | nil => cases member
  | cons first others => exact (mem_getFilesAtLevel.mp (List.mem_filter.mp member).1).1

variable {manager} in
theorem sizedLevels_pos {level : Int} (sized : level ∈ manager.sizedLevels) : 1 ≤ level := by
  obtain ⟨i, -, rfl⟩ := List.mem_map.mp sized
  omega

end Selection

structure Job where
  level : Int
  sources : List SSTableMeta
  targets : List SSTableMeta
  newFiles : List SSTableMeta

namespace Job
variable (job : Job)

def selected : List SSTableMeta := job.sources ++ job.targets

def inputs : List Path := (numberInputs job.sources job.targets).map SSTableMeta.filepath

def unselected (files : List SSTableMeta) : List SSTableMeta := files.filter fun file => file ∉ job.selected

variable {job} in
theorem mem_unselected {files : List SSTableMeta} {file : SSTableMeta} :
    file ∈ job.unselected files ↔ file ∈ files ∧ file ∉ job.selected := by
  rw [unselected, List.mem_filter, decide_eq_true_iff]

theorem inputs_eq : job.inputs = job.selected.map SSTableMeta.filepath := numberInputs_paths _ _

theorem inputs_of_selected {file : SSTableMeta} (selected : file ∈ job.selected) : file.filepath ∈ job.inputs :=
  job.inputs_eq ▸ List.mem_map_of_mem selected

end Job

inductive CataloguePhase where
  | countLevel0
  | sizeLevels (waiting : List Int)
  | selectSources (level : Int)
  | selectTargets (level : Int) (sources : List SSTableMeta)
  | merge (level : Int) (sources targets : List SSTableMeta)
  | register (job : Job) (waiting : List SSTableMeta)
  | remove (job : Job) (waiting : List Path)
  | unlink (job : Job) (path : Path) (waiting : List Path)
  | compacted (job : Job)
  | write (file : SSTableMeta) (table : SSTable)
  | add (file : SSTableMeta)
  | flushed

namespace CataloguePhase

def step (pf : Platform) (io : Faults) : CataloguePhase → Option (Action Status Store CataloguePhase)
  -- `PickCompactionLevel` takes the lock for the count and again for the total of each level.
  | countLevel0 => some do
      let manager := (← get).manager
      return if manager.level0FileCount ≥ leveled.kLevel0CompactionTrigger then selectSources 0
        else sizeLevels manager.sizedLevels
  | sizeLevels [] => some (throw ⟨.kNotFound, text "No compaction needed"⟩)
  | sizeLevels (level :: waiting) => some do
      let total := (← get).manager.totalBytesAtLevel level
      return if total > leveled.maxBytesForLevel level then selectSources level else sizeLevels waiting
  | selectSources level => some do
      let sources := (← get).manager.selectSources pf level
      if sources = [] then throw ⟨.kNotFound, text "No source files selected for compaction"⟩
      return selectTargets level sources
  | selectTargets level sources => some do
      return merge level sources ((← get).manager.selectTargets pf level sources)
  -- `MergeFiles` works on files and draws file numbers. It does not look at the catalogue.
  | merge level sources targets => some do
      let inputs := numberInputs sources targets
      let (newFiles, _) ← mergeFiles pf io inputs (level + 1) ⟨level, level + 1, inputs.length, 0, 0, 0, 0, 0, 0⟩
      return register ⟨level, sources, targets, newFiles⟩ newFiles
  | register job [] => some (pure (remove job job.inputs))
  | register job (file :: waiting) => some do
      registerFile file
      return register job waiting
  | remove job [] => some (pure (compacted job))
  | remove job (path :: waiting) => some do
      uncatalogue path
      return unlink job path waiting
  | unlink job path waiting => some do
      CompactionManager.unlink path
      return remove job waiting
  | compacted _ => none
  | write file table => some do
      modify fun store => { store with tables := Function.update store.tables file.filepath (some (.complete table)) }
      return add file
  | add file => some do
      registerFile file
      return flushed
  | flushed => none

/-- What the steps do when they do not fail. -/
inductive Leads (pf : Platform) (io : Faults) (store : Store) : CataloguePhase → CataloguePhase → Store → Prop
  | full : Leads pf io store countLevel0 (selectSources 0) store
  | notFull : Leads pf io store countLevel0 (sizeLevels store.manager.sizedLevels) store
  | oversized (level : Int) (waiting : List Int) :
      Leads pf io store (sizeLevels (level :: waiting)) (selectSources level) store
  | sized (level : Int) (waiting : List Int) : Leads pf io store (sizeLevels (level :: waiting)) (sizeLevels waiting) store
  | selectSources (level : Int) :
      Leads pf io store (selectSources level) (selectTargets level (store.manager.selectSources pf level)) store
  | selectTargets (level : Int) (sources : List SSTableMeta) :
      Leads pf io store (selectTargets level sources)
        (merge level sources (store.manager.selectTargets pf level sources)) store
  | merge {level : Int} {sources targets newFiles : List SSTableMeta} {stats : CompactionStats} {merged : Store} :
      mergeFiles pf io (numberInputs sources targets) (level + 1)
        ⟨level, level + 1, (numberInputs sources targets).length, 0, 0, 0, 0, 0, 0⟩ store = .ok (newFiles, stats) merged →
      Leads pf io store (merge level sources targets) (register ⟨level, sources, targets, newFiles⟩ newFiles) merged
  | registered (job : Job) : Leads pf io store (register job []) (remove job job.inputs) store
  | register (job : Job) (file : SSTableMeta) (waiting : List SSTableMeta) :
      0 ≤ file.level ∧ file.level < store.manager.maxLevel →
      Leads pf io store (register job (file :: waiting)) (register job waiting) (withFiles store [file])
  | removed (job : Job) : Leads pf io store (remove job []) (compacted job) store
  | remove (job : Job) (path : Path) (waiting : List Path) :
      Leads pf io store (remove job (path :: waiting)) (unlink job path waiting)
        { store with manager := store.manager.removeFile path }
  | unlink (job : Job) (path : Path) (waiting : List Path) :
      Leads pf io store (unlink job path waiting) (remove job waiting)
        { store with tables := Function.update store.tables path none }
  | write (file : SSTableMeta) (table : SSTable) : Leads pf io store (write file table) (add file)
      { store with tables := Function.update store.tables file.filepath (some (.complete table)) }
  | add (file : SSTableMeta) : 0 ≤ file.level ∧ file.level < store.manager.maxLevel →
      Leads pf io store (add file) flushed (withFiles store [file])

theorem step_leads {pf : Platform} {io : Faults} {phase target : CataloguePhase} {store store' : Store}
    {x : Action Status Store CataloguePhase} (steps : phase.step pf io = some x) (ran : x store = .ok target store') :
    Leads pf io store phase target store' := by
  cases phase with
  | countLevel0 =>
    cases steps
    cases ran
    split
    · exact .full
    · exact .notFull
  | sizeLevels waiting =>
    cases waiting with
    | nil =>
      cases steps
      cases ran
    | cons level waiting =>
      cases steps
      cases ran
      split
      · exact .oversized level waiting
      · exact .sized level waiting
  | selectSources level =>
    cases steps
    rw [Action.bind_of_ok (Action.get_eq store)] at ran
    dsimp only at ran
    split at ran
    · cases ran
    · cases ran
      exact .selectSources level
  | selectTargets level sources =>
    cases steps
    cases ran
    exact .selectTargets level sources
  | merge level sources targets =>
    cases steps
    obtain ⟨⟨newFiles, stats⟩, merged, merges, done⟩ := Action.bind_ok.mp ran
    cases done
    exact .merge merges
  | register job waiting =>
    cases waiting with
    | nil =>
      cases steps
      cases ran
      exact .registered job
    | cons file waiting =>
      cases steps
      obtain ⟨_, between, registers, done⟩ := Action.bind_ok.mp ran
      cases done
      obtain ⟨valid, rfl⟩ := registerFile_ok.mp registers
      exact .register job file waiting valid
  | remove job waiting =>
    cases waiting with
    | nil =>
      cases steps
      cases ran
      exact .removed job
    | cons path waiting =>
      cases steps
      cases ran
      exact .remove job path waiting
  | unlink job path waiting =>
    cases steps
    cases ran
    exact .unlink job path waiting
  | write file table =>
    cases steps
    cases ran
    exact .write file table
  | add file =>
    cases steps
    obtain ⟨_, between, registers, done⟩ := Action.bind_ok.mp ran
    cases done
    obtain ⟨valid, rfl⟩ := registerFile_ok.mp registers
    exact .add file valid
  | compacted | flushed => cases steps

def adds : CataloguePhase → Option SSTableMeta
  | add file => some file
  | _ => none

end CataloguePhase

abbrev CatalogueMove (κ : Type) := Move CataloguePhase (Option κ)

def added {κ : Type} (moves : List (CatalogueMove κ)) : List SSTableMeta :=
  moves.filterMap fun move => move.source.adds

section Concurrent
variable {κ : Type} (file : κ → SSTableMeta) (table : κ → SSTable)

def compactAndFlush (store : Store) : Pool Store CataloguePhase (Option κ) :=
  ⟨store, fun
    | none => .countLevel0
    | some k => .write (file k) (table k)⟩

structure FreshPaths (initial : Store) : Prop where
  level : ∀ k, (file k).level = 0
  injective : Function.Injective fun k => (file k).filepath
  uncatalogued : ∀ k, (file k).filepath ∉ initial.manager.files.map SSTableMeta.filepath
  ungenerated : ∀ k, ∀ level ≥ 1, ∀ number ≥ initial.manager.nextFileNumber,
    (file k).filepath ≠ outputPath initial.manager.dataDir level number

def Catalogues (manager : CompactionManager) (files : List SSTableMeta) : Prop :=
  manager.files.Perm files ∧ (manager.files.map SSTableMeta.filepath).Nodup

def ApartFrom (paths : List Path) (files : List SSTableMeta) : Prop :=
  (∀ file ∈ files, file.filepath ∉ paths) ∧ (files.map SSTableMeta.filepath).Nodup

structure Job.Honest (job : Job) (pf : Platform) (io : Faults) (catalogued : List SSTableMeta) : Prop where
  selected : job.selected ⊆ catalogued
  merged : ∃ stats stats' before after, mergeFiles pf io (numberInputs job.sources job.targets) (job.level + 1) stats
    before = .ok (job.newFiles, stats') after

/-- The initial files that stay have paths of their own, and the numbers that the merge draws give no initial file's
path. -/
structure Job.OwnPaths (job : Job) (initial : Store) : Prop where
  kept : ApartFrom job.inputs (job.unselected initial.manager.files)
  drawn : ∀ file ∈ initial.manager.files, ∀ j < job.newFiles.length,
    file.filepath ≠ outputPath initial.manager.dataDir (job.level + 1) (initial.manager.nextFileNumber + j)

section Invariant
variable {pf : Platform} {io : Faults} {initial : Store} {file table} {moves : List (CatalogueMove κ)}
  {pool : Pool Store CataloguePhase (Option κ)}

def Grown (initial : Store) (added : List SSTableMeta) (manager : CompactionManager) : Prop :=
  manager = { initial.manager with files := initial.manager.files ++ added }

structure Job.Merged (job : Job) (pf : Platform) (io : Faults) (initial : Store) (added : List SSTableMeta) : Prop
    extends job.Honest pf io (initial.manager.files ++ added) where
  level : 0 ≤ job.level
  generated : ∀ path, path ∈ job.newFiles.map SSTableMeta.filepath ↔ ∃ j < job.newFiles.length,
    path = outputPath initial.manager.dataDir (job.level + 1) (initial.manager.nextFileNumber + j)
  distinct : (job.newFiles.map SSTableMeta.filepath).Nodup

def Without (gone : List Path) (files : List SSTableMeta) (manager : CompactionManager) : Prop :=
  manager.files.Perm (files.filter fun file => file.filepath ∉ gone)

def CompactorStands (pf : Platform) (io : Faults) (initial : Store) (added : List SSTableMeta)
    (manager : CompactionManager) : CataloguePhase → Prop
  | .countLevel0 => Grown initial added manager
  | .sizeLevels waiting => (∀ level ∈ waiting, 0 ≤ level) ∧ Grown initial added manager
  | .selectSources level => 0 ≤ level ∧ Grown initial added manager
  | .selectTargets level sources => 0 ≤ level ∧ Grown initial added manager ∧ sources ⊆ initial.manager.files ++ added
  | .merge level sources targets =>
    0 ≤ level ∧ Grown initial added manager ∧ sources ++ targets ⊆ initial.manager.files ++ added
  | .register job waiting => job.Merged pf io initial added ∧ ∃ done, job.newFiles = done ++ waiting ∧
      Without [] (initial.manager.files ++ added ++ done) manager
  | .remove job waiting => job.Merged pf io initial added ∧ ∃ gone, job.inputs = gone ++ waiting ∧
      Without gone (initial.manager.files ++ added ++ job.newFiles) manager
  | .unlink job path waiting => job.Merged pf io initial added ∧ ∃ gone, job.inputs = gone ++ path :: waiting ∧
      Without (gone ++ [path]) (initial.manager.files ++ added ++ job.newFiles) manager
  | .compacted job => job.Merged pf io initial added ∧
      Without job.inputs (initial.manager.files ++ added ++ job.newFiles) manager
  | _ => False

def FlusherStands (file : SSTableMeta) (added : List SSTableMeta) : CataloguePhase → Prop
  | .write other _ => other = file ∧ file ∉ added
  | .add other => other = file ∧ file ∉ added
  | .flushed => True
  | _ => False

structure CatalogueRace (pf : Platform) (io : Faults) (initial : Store) (file : κ → SSTableMeta)
    (moves : List (CatalogueMove κ)) (pool : Pool Store CataloguePhase (Option κ)) : Prop where
  compactor : CompactorStands pf io initial (added moves) pool.state.manager (pool.phase none)
  flushers : ∀ k, FlusherStands (file k) (added moves) (pool.phase (some k))
  nodup : (added moves).Nodup
  flushed : ∀ new ∈ added moves, ∃ k, new = file k

theorem Without.register {gone : List Path} {files : List SSTableMeta} {manager : CompactionManager}
    (without : Without gone files manager) {new : SSTableMeta} (kept : new.filepath ∉ gone)
    {files' : List SSTableMeta} (grown : files'.Perm (files ++ [new])) :
    Without gone files' { manager with files := manager.files ++ [new] } := by
  refine .trans (without.append_right [new]) (.trans ?_ (grown.filter _).symm)
  rw [List.filter_append, List.filter_cons_of_pos (by simpa using kept), List.filter_nil]

theorem Without.remove {gone : List Path} {files : List SSTableMeta} {manager : CompactionManager}
    (without : Without gone files manager) (path : Path) : Without (gone ++ [path]) files (manager.removeFile path) := by
  refine (without.filter _).trans (.of_eq ?_)
  rw [List.filter_filter]
  apply List.filter_congr
  intro file _
  simp [and_comm]

theorem Job.Merged.grow {job : Job} {added : List SSTableMeta} (merged : job.Merged pf io initial added)
    (new : SSTableMeta) : job.Merged pf io initial (added ++ [new]) where
  selected := fun _ member => by
    rw [← List.append_assoc]
    exact List.mem_append_left _ (merged.selected member)
  merged := merged.merged
  level := merged.level
  generated := merged.generated
  distinct := merged.distinct

theorem Job.Merged.ungenerated {job : Job} {added : List SSTableMeta} (merged : job.Merged pf io initial added)
    {path : Path} (fresh : ∀ level ≥ 1, ∀ number ≥ initial.manager.nextFileNumber,
      path ≠ outputPath initial.manager.dataDir level number) : path ∉ job.newFiles.map SSTableMeta.filepath := by
  intro output
  have level := merged.level
  obtain ⟨j, -, same⟩ := (merged.generated path).mp output
  exact fresh _ (by omega) _ (Nat.le_add_right _ _) same

theorem Job.Merged.inputs_listed {job : Job} {added : List SSTableMeta} (merged : job.Merged pf io initial added)
    {path : Path} (input : path ∈ job.inputs) : path ∈ (initial.manager.files ++ added).map SSTableMeta.filepath := by
  rw [job.inputs_eq] at input
  obtain ⟨selected, member, rfl⟩ := List.mem_map.mp input
  exact List.mem_map_of_mem (merged.selected member)

theorem Grown.files {added : List SSTableMeta} {manager : CompactionManager} (grown : Grown initial added manager) :
    manager.files = initial.manager.files ++ added := congrArg CompactionManager.files grown

theorem Grown.add {added : List SSTableMeta} {manager : CompactionManager} (grown : Grown initial added manager)
    (new : SSTableMeta) : Grown initial (added ++ [new]) { manager with files := manager.files ++ [new] } := by
  rw [Grown] at *
  rw [grown, List.append_assoc]

theorem CompactorStands.add {added : List SSTableMeta} {manager : CompactionManager} {phase : CataloguePhase}
    (stands : CompactorStands pf io initial added manager phase) {new : SSTableMeta}
    (fresh : new.filepath ∉ (initial.manager.files ++ added).map SSTableMeta.filepath) :
    CompactorStands pf io initial (added ++ [new]) { manager with files := manager.files ++ [new] } phase := by
  have wider : ∀ {files : List SSTableMeta}, files ⊆ initial.manager.files ++ added →
      files ⊆ initial.manager.files ++ (added ++ [new]) := fun subset _ member => by
    rw [← List.append_assoc]
    exact List.mem_append_left _ (subset member)
  have later : ∀ files : List SSTableMeta, (initial.manager.files ++ (added ++ [new]) ++ files).Perm
      (initial.manager.files ++ added ++ files ++ [new]) := by
    intro files
    simp only [List.append_assoc]
    exact ((List.perm_append_comm.append_left _).append_left _)
  cases phase with
  | countLevel0 => exact Grown.add stands new
  | sizeLevels waiting => exact ⟨stands.1, stands.2.add new⟩
  | selectSources level => exact ⟨stands.1, stands.2.add new⟩
  | selectTargets level sources => exact ⟨stands.1, stands.2.1.add new, wider stands.2.2⟩
  | merge level sources targets => exact ⟨stands.1, stands.2.1.add new, wider stands.2.2⟩
  | register job waiting =>
    obtain ⟨merged, done, split, without⟩ := stands
    exact ⟨merged.grow new, done, split, without.register (by simp) (later done)⟩
  | remove job waiting =>
    obtain ⟨merged, gone, split, without⟩ := stands
    have kept : new.filepath ∉ gone := fun input => fresh (merged.inputs_listed (by simp [split, input]))
    exact ⟨merged.grow new, gone, split, without.register kept (later job.newFiles)⟩
  | unlink job path waiting =>
    obtain ⟨merged, gone, split, without⟩ := stands
    have kept : new.filepath ∉ gone ++ [path] := fun input =>
      fresh (merged.inputs_listed (by rw [split, List.append_cons]; exact List.mem_append_left _ input))
    exact ⟨merged.grow new, gone, split, without.register kept (later job.newFiles)⟩
  | compacted job =>
    obtain ⟨merged, without⟩ := stands
    have kept : new.filepath ∉ job.inputs := fun input => fresh (merged.inputs_listed input)
    exact ⟨merged.grow new, without.register kept (later job.newFiles)⟩
  | write | add | flushed => exact stands.elim

theorem merge_job {added : List SSTableMeta} {store after : Store} {level : Int} {sources targets newFiles : List SSTableMeta}
    {stats stats' : CompactionStats} (grown : Grown initial added store.manager) (valid : 0 ≤ level)
    (selected : sources ++ targets ⊆ initial.manager.files ++ added)
    (merges : mergeFiles pf io (numberInputs sources targets) (level + 1) stats store = .ok (newFiles, stats') after) :
    Job.Merged ⟨level, sources, targets, newFiles⟩ pf io initial added ∧
      after.manager.files = initial.manager.files ++ added := by
  obtain ⟨fileData, outs, -, -, outputs, rfl, -⟩ := mergeFiles_ok (numberInputs_ranks _ _) merges
  rw [Grown] at grown
  refine ⟨⟨⟨selected, _, _, _, _, merges⟩, valid, fun path => ?_, outputMetasFrom_paths _ _ _⟩,
    by rw [outputs.manager, grown]⟩
  rw [mem_outputPaths, outputMetasFrom_length, grown]

theorem CompactorStands.adds {added : List SSTableMeta} {manager : CompactionManager} {phase : CataloguePhase}
    (stands : CompactorStands pf io initial added manager phase) : phase.adds = none := by
  cases phase with
  | add => exact stands.elim
  | _ => rfl

theorem CompactorStands.next {added : List SSTableMeta} {store state : Store} {phase target : CataloguePhase}
    (stands : CompactorStands pf io initial added store.manager phase)
    (leads : CataloguePhase.Leads pf io store phase target state) :
    CompactorStands pf io initial added state.manager target := by
  cases leads with
  | full => exact ⟨le_rfl, stands⟩
  | notFull => exact ⟨fun level sized => zero_le_one.trans (sizedLevels_pos sized), stands⟩
  | oversized level waiting => exact ⟨stands.1 level List.mem_cons_self, stands.2⟩
  | sized level waiting => exact ⟨fun other later => stands.1 other (List.mem_cons_of_mem _ later), stands.2⟩
  | selectSources level => exact ⟨stands.1, stands.2, stands.2.files ▸ selectSources_subset pf store.manager level⟩
  | selectTargets level sources =>
    have targets := stands.2.1.files ▸ selectTargets_subset pf store.manager level sources
    exact ⟨stands.1, stands.2.1, List.append_subset.mpr ⟨stands.2.2, targets⟩⟩
  | merge merges =>
    obtain ⟨merged, files⟩ := merge_job stands.2.1 stands.1 stands.2.2 merges
    exact ⟨merged, [], rfl, by simp [Without, files]⟩
  | registered job =>
    obtain ⟨merged, done, split, without⟩ := stands
    rw [List.append_nil] at split
    exact ⟨merged, [], rfl, split ▸ without⟩
  | register job file waiting =>
    obtain ⟨merged, done, split, without⟩ := stands
    exact ⟨merged, done ++ [file], by simp [split], without.register (by simp) (by simp)⟩
  | removed job =>
    obtain ⟨merged, gone, split, without⟩ := stands
    rw [List.append_nil] at split
    exact ⟨merged, split ▸ without⟩
  | remove job path waiting =>
    obtain ⟨merged, gone, split, without⟩ := stands
    exact ⟨merged, gone, split, without.remove path⟩
  | unlink job path waiting =>
    obtain ⟨merged, gone, split, without⟩ := stands
    exact ⟨merged, gone ++ [path], by simp [split], without⟩
  | write | add => exact stands.elim

theorem FlusherStands.add {file new : SSTableMeta} {added : List SSTableMeta} {phase : CataloguePhase}
    (stands : FlusherStands file added phase) (other : file ≠ new) : FlusherStands file (added ++ [new]) phase := by
  have unadded : file ∉ added → file ∉ added ++ [new] := fun unadded => by simp [unadded, other]
  cases phase with
  | write => exact ⟨stands.1, unadded stands.2⟩
  | add => exact ⟨stands.1, unadded stands.2⟩
  | flushed => trivial
  | _ => exact stands.elim

theorem added_concat (moves : List (CatalogueMove κ)) (move : CatalogueMove κ) :
    added (moves ++ [move]) = added moves ++ move.source.adds.toList := by
  rw [added, List.filterMap_append]
  cases adds : move.source.adds <;> simp [added, adds]

theorem CatalogueRace.start (initial : Store) (file : κ → SSTableMeta) (table : κ → SSTable) :
    CatalogueRace pf io initial file [] (compactAndFlush file table initial) where
  compactor := by simp [compactAndFlush, CompactorStands, Grown, added]
  flushers := fun k => ⟨rfl, List.not_mem_nil⟩
  nodup := List.nodup_nil
  flushed := fun _ member => absurd member List.not_mem_nil

theorem CatalogueRace.fresh (interleaved : CatalogueRace pf io initial file moves pool) (paths : FreshPaths file initial)
    {k : κ} (unadded : file k ∉ added moves) :
    (file k).filepath ∉ (initial.manager.files ++ added moves).map SSTableMeta.filepath := by
  rw [List.map_append, List.mem_append, not_or]
  refine ⟨paths.uncatalogued k, fun listed => ?_⟩
  obtain ⟨new, member, same⟩ := List.mem_map.mp listed
  obtain ⟨k', rfl⟩ := interleaved.flushed new member
  rw [paths.injective same] at member
  exact unadded member

theorem Job.unselected_filter (job : Job) (files : List SSTableMeta) :
    (job.unselected files).filter (fun file => file.filepath ∉ job.inputs) =
      files.filter fun file => file.filepath ∉ job.inputs := by
  rw [Job.unselected, List.filter_filter]
  apply List.filter_congr
  intro file _
  rw [Bool.and_eq_left_iff_imp, decide_eq_true_iff, decide_eq_true_iff]
  exact fun apart selected => apart (job.inputs_of_selected selected)

theorem Without.catalogues_iff {gone : List Path} {files kept : List SSTableMeta} {manager : CompactionManager}
    (without : Without gone files manager)
    (same : (kept.filter fun file => file.filepath ∉ gone).Perm (files.filter fun file => file.filepath ∉ gone)) :
    Catalogues manager kept ↔ ApartFrom gone kept := by
  have final := without.trans same.symm
  constructor
  · rintro ⟨exactly, once⟩
    have all := List.length_filter_eq_length_iff.mp (final.symm.trans exactly).length_eq
    exact ⟨fun file member => of_decide_eq_true (all file member), (exactly.map _).nodup_iff.mp once⟩
  · rintro ⟨apart, distinct⟩
    rw [List.filter_eq_self.mpr fun file member => decide_eq_true (apart file member)] at final
    exact ⟨final, (final.map _).nodup_iff.mpr distinct⟩

theorem ApartFrom.perm_iff {paths : List Path} {files files' : List SSTableMeta} (same : files.Perm files') :
    ApartFrom paths files ↔ ApartFrom paths files' :=
  and_congr (forall_congr' fun _ => imp_congr_left same.mem_iff) (same.map _).nodup_iff

theorem ApartFrom.append_iff {paths : List Path} {files more : List SSTableMeta}
    (distinct : (more.map SSTableMeta.filepath).Nodup)
    (fresh : ∀ file ∈ more, file.filepath ∉ files.map SSTableMeta.filepath) :
    ApartFrom paths (files ++ more) ↔ ApartFrom paths files ∧ ∀ file ∈ more, file.filepath ∉ paths := by
  have disjoint : (files.map SSTableMeta.filepath).Disjoint (more.map SSTableMeta.filepath) := by
    intro path old new
    obtain ⟨file, member, rfl⟩ := List.mem_map.mp new
    exact fresh file member old
  simp only [ApartFrom, List.map_append, List.nodup_append', List.forall_mem_append, distinct, disjoint]
  tauto

section Added
variable (interleaved : CatalogueRace pf io initial file moves pool) (paths : FreshPaths file initial)
include interleaved paths

theorem CatalogueRace.added_distinct : ((added moves).map SSTableMeta.filepath).Nodup := by
  refine List.Nodup.map_on (fun new inNew other inOther same => ?_) interleaved.nodup
  obtain ⟨k, rfl⟩ := interleaved.flushed new inNew
  obtain ⟨k', rfl⟩ := interleaved.flushed other inOther
  rw [paths.injective same]

theorem CatalogueRace.added_fresh {job : Job} (merged : job.Merged pf io initial (added moves)) {new : SSTableMeta}
    (isAdded : new ∈ added moves) :
    new.filepath ∉ (job.unselected initial.manager.files ++ job.newFiles).map SSTableMeta.filepath := by
  obtain ⟨k, rfl⟩ := interleaved.flushed new isAdded
  rw [List.map_append, List.mem_append, not_or]
  refine ⟨fun old => paths.uncatalogued k ((List.filter_sublist.map _).subset old), fun output => ?_⟩
  exact merged.ungenerated (paths.ungenerated k) output

theorem CatalogueRace.added_input {job : Job} (merged : job.Merged pf io initial (added moves)) {new : SSTableMeta}
    (isAdded : new ∈ added moves) : new.filepath ∈ job.inputs ↔ new ∈ job.selected := by
  refine ⟨fun input => ?_, job.inputs_of_selected⟩
  rw [job.inputs_eq] at input
  obtain ⟨selected, member, same⟩ := List.mem_map.mp input
  obtain ⟨k, rfl⟩ := interleaved.flushed new isAdded
  rcases List.mem_append.mp (merged.selected member) with old | other
  · exact absurd (List.mem_map.mpr ⟨selected, old, same⟩) (paths.uncatalogued k)
  · exact List.inj_on_of_nodup_map (interleaved.added_distinct paths) other isAdded same ▸ member

theorem CatalogueRace.apart_iff {job : Job} (merged : job.Merged pf io initial (added moves)) :
    ApartFrom job.inputs (job.unselected initial.manager.files ++ job.newFiles) ↔ job.OwnPaths initial := by
  constructor
  · rintro ⟨apart, distinct⟩
    rw [List.map_append, List.nodup_append'] at distinct
    refine ⟨⟨fun file member => apart file (List.mem_append_left _ member), distinct.1⟩, fun file member j bound same => ?_⟩
    have output := (merged.generated _).mpr ⟨j, bound, same⟩
    by_cases selected : file ∈ job.selected
    · obtain ⟨new, isNew, path⟩ := List.mem_map.mp output
      exact apart new (List.mem_append_right _ isNew) (path ▸ job.inputs_of_selected selected)
    · exact distinct.2.2 (List.mem_map_of_mem (Job.mem_unselected.mpr ⟨member, selected⟩)) output
  · rintro ⟨kept, drawn⟩
    have apart : ∀ new ∈ job.newFiles, ∀ old ∈ initial.manager.files, old.filepath ≠ new.filepath := by
      intro new isNew old member same
      obtain ⟨j, bound, path⟩ := (merged.generated _).mp (List.mem_map_of_mem isNew)
      exact drawn old member j bound (same.trans path)
    refine (ApartFrom.append_iff merged.distinct fun new isNew listed => ?_).mpr ⟨kept, fun new isNew input => ?_⟩
    · obtain ⟨old, member, same⟩ := List.mem_map.mp listed
      exact apart new isNew old (Job.mem_unselected.mp member).1 same
    · rw [job.inputs_eq] at input
      obtain ⟨selected, member, same⟩ := List.mem_map.mp input
      rcases List.mem_append.mp (merged.selected member) with old | isAdded
      · exact apart new isNew selected old same
      · refine interleaved.added_fresh paths merged isAdded ?_
        rw [List.map_append, same]
        exact List.mem_append_right _ (List.mem_map_of_mem isNew)

theorem CatalogueRace.ownPaths {job : Job} (merged : job.Merged pf io initial (added moves)) (levelled : Levelled initial) :
    job.OwnPaths initial := by
  have level := merged.level
  refine ⟨⟨fun file member input => ?_, levelled.paths.sublist (List.filter_sublist.map _)⟩, fun file member j _ =>
    levelled.ungenerated file member _ (by omega) _ (Nat.le_add_right _ _)⟩
  obtain ⟨inside, unselected⟩ := Job.mem_unselected.mp member
  rw [job.inputs_eq] at input
  obtain ⟨selected, isSelected, same⟩ := List.mem_map.mp input
  rcases List.mem_append.mp (merged.selected isSelected) with alsoInside | isAdded
  · exact unselected (List.inj_on_of_nodup_map levelled.paths alsoInside inside same ▸ isSelected)
  · refine interleaved.added_fresh paths merged isAdded ?_
    rw [List.map_append, same]
    exact List.mem_append_left _ (List.mem_map_of_mem member)

end Added

variable [DecidableEq κ]

theorem CatalogueRace.quiet (interleaved : CatalogueRace pf io initial file moves pool) {i : Option κ}
    {source target : CataloguePhase} {state : Store} (adds : source.adds = none)
    (compactor : CompactorStands pf io initial (added moves) state.manager ((pool.after i target state).phase none))
    (flushers : ∀ k, FlusherStands (file k) (added moves) ((pool.after i target state).phase (some k))) :
    CatalogueRace pf io initial file (moves ++ [⟨i, source, target⟩]) (pool.after i target state) := by
  have same : added (moves ++ [⟨i, source, target⟩]) = added moves := by
    rw [added_concat, adds, Option.toList_none, List.append_nil]
  exact ⟨same ▸ compactor, same ▸ flushers, same ▸ interleaved.nodup, same ▸ interleaved.flushed⟩

theorem CatalogueRace.compactor_step (interleaved : CatalogueRace pf io initial file moves pool)
    {x : Action Status Store CataloguePhase} {target : CataloguePhase} {state : Store}
    (steps : (pool.phase none).step pf io = some x) (ran : x pool.state = .ok target state) :
    CatalogueRace pf io initial file (moves ++ [⟨none, pool.phase none, target⟩]) (pool.after none target state) := by
  refine interleaved.quiet interleaved.compactor.adds ?_ fun k => ?_
  · rw [Pool.after_phase_self]
    exact interleaved.compactor.next (CataloguePhase.step_leads steps ran)
  · rw [Pool.after_phase_of_ne _ (Option.some_ne_none k)]
    exact interleaved.flushers k

theorem CatalogueRace.flusher_step (interleaved : CatalogueRace pf io initial file moves pool)
    (paths : FreshPaths file initial) (k : κ) {x : Action Status Store CataloguePhase} {target : CataloguePhase}
    {state : Store} (steps : (pool.phase (some k)).step pf io = some x) (ran : x pool.state = .ok target state) :
    CatalogueRace pf io initial file (moves ++ [⟨some k, pool.phase (some k), target⟩])
      (pool.after (some k) target state) := by
  have stands := interleaved.flushers k
  have compactor : ∀ {target state}, (pool.after (some k) target state).phase none = pool.phase none :=
    Pool.after_phase_of_ne _ (Option.some_ne_none k).symm _ _
  cases isPhase : pool.phase (some k) <;> rw [isPhase] at steps stands
  case write other table =>
    cases CataloguePhase.step_leads steps ran
    refine interleaved.quiet rfl ?_ fun k' => ?_
    · rw [compactor]
      exact interleaved.compactor
    · by_cases same : k' = k
      · rw [same, Pool.after_phase_self]
        exact stands
      · rw [Pool.after_phase_of_ne _ (by simpa using same)]
        exact interleaved.flushers k'
  case add other =>
    obtain ⟨rfl, unadded⟩ := stands
    cases CataloguePhase.step_leads steps ran
    have more : added (moves ++ [⟨some k, .add (file k), .flushed⟩]) = added moves ++ [file k] := added_concat _ _
    refine ⟨?_, fun k' => ?_, ?_, fun new member => ?_⟩
    · rw [more, compactor]
      exact interleaved.compactor.add (interleaved.fresh paths unadded)
    · by_cases same : k' = k
      · rw [same, Pool.after_phase_self]
        trivial
      · rw [more, Pool.after_phase_of_ne _ (by simpa using same)]
        refine (interleaved.flushers k').add fun equal => same (paths.injective ?_)
        exact congrArg SSTableMeta.filepath equal
    · rw [more, List.nodup_append_comm]
      exact List.nodup_cons.mpr ⟨unadded, interleaved.nodup⟩
    · rw [more] at member
      rcases List.mem_append.mp member with old | new
      · exact interleaved.flushed new old
      · exact ⟨k, List.mem_singleton.mp new⟩
  case flushed => cases steps
  all_goals exact stands.elim

theorem CatalogueRace.of_run (paths : FreshPaths file initial)
    (run : Pool.Run (CataloguePhase.step pf io) (compactAndFlush file table initial) moves pool) :
    CatalogueRace pf io initial file moves pool := by
  refine run.induct (.start initial file table) fun moves pool i x target state _ interleaved steps ran => ?_
  cases i with
  | none => exact interleaved.compactor_step steps ran
  | some k => exact interleaved.flusher_step paths k steps ran

/-- What stays, the outputs and the added files are the catalogue exactly when the numbers drawn give no path of the
initial catalogue and no added file was itself selected. A selected one is merged like the others, which the second form
counts. -/
theorem concurrent_flushes_no_lost_file_iff (paths : FreshPaths file initial)
    (run : Pool.Run (CataloguePhase.step pf io) (compactAndFlush file table initial) moves pool) {job : Job}
    (finished : pool.phase none = .compacted job) :
    job.Honest pf io (initial.manager.files ++ added moves) ∧
    (Catalogues pool.state.manager (job.unselected initial.manager.files ++ job.newFiles ++ added moves) ↔
      job.OwnPaths initial ∧ ∀ new ∈ added moves, new ∉ job.selected) ∧
    (Catalogues pool.state.manager (job.unselected (initial.manager.files ++ added moves) ++ job.newFiles) ↔
      job.OwnPaths initial) := by
  have interleaved := CatalogueRace.of_run paths run
  have stands := interleaved.compactor
  rw [finished] at stands
  obtain ⟨merged, without⟩ := stands
  have distinct := interleaved.added_distinct paths
  rw [← interleaved.apart_iff paths merged]
  refine ⟨merged.toHonest, ?_, ?_⟩
  · rw [without.catalogues_iff, ApartFrom.append_iff distinct fun new => interleaved.added_fresh paths merged]
    · exact and_congr_right' (forall₂_congr fun new isAdded => not_congr (interleaved.added_input paths merged isAdded))
    · simp only [List.filter_append, job.unselected_filter, List.append_assoc]
      exact List.perm_append_comm.append_left _
  · have moved : (job.unselected (initial.manager.files ++ added moves) ++ job.newFiles).Perm
        (job.unselected initial.manager.files ++ job.newFiles ++ job.unselected (added moves)) := by
      rw [Job.unselected, List.filter_append, List.append_assoc, List.append_assoc]
      exact List.perm_append_comm.append_left _
    have unselected : ∀ new ∈ job.unselected (added moves), new ∈ added moves ∧ new ∉ job.selected := by
      simp [Job.unselected]
    rw [without.catalogues_iff, ApartFrom.perm_iff moved, ApartFrom.append_iff]
    · refine and_iff_left fun new member => ?_
      rw [interleaved.added_input paths merged (unselected new member).1]
      exact (unselected new member).2
    · exact distinct.sublist (List.filter_sublist.map _)
    · exact fun new member => interleaved.added_fresh paths merged (unselected new member).1
    · rw [List.filter_append, job.unselected_filter, List.filter_append _ job.newFiles]

end Invariant

section Schedules
variable {file : κ → SSTableMeta} {table : κ → SSTable} {pf : Platform} {io : Faults} [DecidableEq κ]
  {start pool : Pool Store CataloguePhase (Option κ)} {flushed : List SSTableMeta}

def Arrives (pf : Platform) (io : Faults) (start : Pool Store CataloguePhase (Option κ)) (flushed : List SSTableMeta)
    (pool : Pool Store CataloguePhase (Option κ)) : Prop :=
  ∃ moves, Pool.Run (CataloguePhase.step pf io) start moves pool ∧ added moves = flushed

theorem Arrives.move (arrives : Arrives pf io start flushed pool) (i : Option κ) {source target : CataloguePhase}
    (stands : pool.phase i = source) {x : Action Status Store CataloguePhase} (steps : source.step pf io = some x)
    {state : Store} (ran : x pool.state = .ok target state) :
    Arrives pf io start (flushed ++ source.adds.toList) (pool.after i target state) := by
  obtain ⟨moves, run, rfl⟩ := arrives
  exact ⟨_, run.snoc i stands steps ran, added_concat _ _⟩

theorem Arrives.quiet (arrives : Arrives pf io start flushed pool) (i : Option κ) {source target : CataloguePhase}
    (stands : pool.phase i = source) {x : Action Status Store CataloguePhase} (steps : source.step pf io = some x)
    {state : Store} (ran : x pool.state = .ok target state) (adds : source.adds = none) :
    Arrives pf io start flushed (pool.after i target state) := by
  have moved := arrives.move i stands steps ran
  rwa [adds, Option.toList_none, List.append_nil] at moved

theorem Arrives.removes (arrives : Arrives pf io start flushed pool) {job : Job} {waiting : List Path}
    (stands : pool.phase none = .remove job waiting) :
    Arrives pf io start flushed (pool.after none (.compacted job) (waiting.foldl dropFile pool.state)) := by
  induction waiting generalizing pool with
  | nil => exact arrives.quiet none stands rfl rfl rfl
  | cons path waiting ih =>
    have removed := arrives.quiet none stands rfl rfl rfl
    have unlinked := removed.quiet none (Pool.after_phase_self _ _ _ _) rfl rfl rfl
    have finished := ih unlinked (Pool.after_phase_self _ _ _ _)
    rwa [Pool.after_after, Pool.after_after] at finished

theorem Arrives.registers (arrives : Arrives pf io start flushed pool) {job : Job} {waiting : List SSTableMeta}
    (stands : pool.phase none = .register job waiting)
    (levels : ∀ file ∈ waiting, 0 ≤ file.level ∧ file.level < pool.state.manager.maxLevel) :
    Arrives pf io start flushed
      (pool.after none (.compacted job) (job.inputs.foldl dropFile (withFiles pool.state waiting))) := by
  induction waiting generalizing pool with
  | nil =>
    have finished := (arrives.quiet none stands rfl rfl rfl).removes (Pool.after_phase_self _ _ _ _)
    rw [Pool.after_after] at finished
    simpa [withFiles] using finished
  | cons file waiting ih =>
    have adds : registerFile file pool.state = .ok () (withFiles pool.state [file]) :=
      registerFile_ok.mpr ⟨levels file List.mem_cons_self, rfl⟩
    have registered := arrives.quiet none stands rfl (Action.bind_of_ok adds _) rfl
    have finished := ih registered (Pool.after_phase_self _ _ _ _) fun other later =>
      levels other (List.mem_cons_of_mem _ later)
    rw [Pool.after_after] at finished
    simpa [withFiles] using finished

theorem Arrives.sizes (arrives : Arrives pf io start flushed pool) {waiting : List Int}
    (stands : pool.phase none = .sizeLevels waiting) {level : Int}
    (found : waiting.find? (fun level => pool.state.manager.totalBytesAtLevel level > leveled.maxBytesForLevel level) =
      some level) :
    Arrives pf io start flushed (pool.after none (.selectSources level) pool.state) := by
  induction waiting generalizing pool with
  | nil => cases found
  | cons first waiting ih =>
    by_cases large : pool.state.manager.totalBytesAtLevel first > leveled.maxBytesForLevel first
    · rw [List.find?_cons_of_pos (by simpa using large)] at found
      cases found
      refine arrives.quiet none stands rfl ?_ rfl
      change EStateM.Result.ok (if _ then _ else _) _ = _
      rw [if_pos large]
    · rw [List.find?_cons_of_neg (by simpa using large)] at found
      have passed : Arrives pf io start flushed (pool.after none (.sizeLevels waiting) pool.state) := by
        refine arrives.quiet none stands rfl ?_ rfl
        change EStateM.Result.ok (if _ then _ else _) _ = _
        rw [if_neg large]
      have picked := ih passed (Pool.after_phase_self _ _ _ _) found
      rwa [Pool.after_after] at picked

theorem Arrives.picks (arrives : Arrives pf io start flushed pool) (stands : pool.phase none = .countLevel0)
    (needed : pool.state.manager.pickCompactionLevel ≠ -1) :
    Arrives pf io start flushed
      (pool.after none (.selectSources pool.state.manager.pickCompactionLevel) pool.state) := by
  rw [pickCompactionLevel] at needed ⊢
  by_cases many : pool.state.manager.level0FileCount ≥ leveled.kLevel0CompactionTrigger
  · rw [if_pos many]
    refine arrives.quiet none stands rfl ?_ rfl
    change EStateM.Result.ok (if _ then _ else _) _ = _
    rw [if_pos many]
  · rw [if_neg many] at needed ⊢
    have counted : Arrives pf io start flushed
        (pool.after none (.sizeLevels pool.state.manager.sizedLevels) pool.state) := by
      refine arrives.quiet none stands rfl ?_ rfl
      change EStateM.Result.ok (if _ then _ else _) _ = _
      rw [if_neg many]
    cases found : pool.state.manager.sizedLevels.find? _ with
    | none => exact absurd (congrArg (Option.getD · (-1)) found) needed
    | some level =>
      have picked := counted.sizes (Pool.after_phase_self _ _ _ _) found
      rwa [Pool.after_after] at picked

theorem Arrives.compacts (arrives : Arrives pf io start flushed pool) {level : Int}
    (stands : pool.phase none = .selectSources level) {sources targets newFiles : List SSTableMeta}
    {stats : CompactionStats} {merged : Store}
    (selected : pool.state.manager.selectCompactionFiles pf level = (sources, targets)) (nonempty : sources ≠ [])
    (merges : mergeFiles pf io (numberInputs sources targets) (level + 1)
      ⟨level, level + 1, (numberInputs sources targets).length, 0, 0, 0, 0, 0, 0⟩ pool.state =
        .ok (newFiles, stats) merged)
    (levels : ∀ file ∈ newFiles, 0 ≤ file.level ∧ file.level < merged.manager.maxLevel) :
    Arrives pf io start flushed (pool.after none (.compacted ⟨level, sources, targets, newFiles⟩)
      (((numberInputs sources targets).map SSTableMeta.filepath).foldl dropFile (withFiles merged newFiles))) := by
  rw [selectCompactionFiles_eq, Prod.mk.injEq] at selected
  obtain ⟨isSources, isTargets⟩ := selected
  rw [isSources] at isTargets
  have sourced : Arrives pf io start flushed (pool.after none (.selectTargets level sources) pool.state) := by
    refine arrives.quiet none stands rfl ?_ rfl
    rw [Action.bind_of_ok (Action.get_eq _)]
    dsimp only
    rw [isSources, if_neg nonempty]
    rfl
  have targeted : Arrives pf io start flushed (pool.after none (.merge level sources targets) pool.state) := by
    rw [← Pool.after_after]
    refine sourced.quiet none (Pool.after_phase_self _ _ _ _) rfl ?_ rfl
    rw [← isTargets]
    rfl
  have registering : Arrives pf io start flushed
      (pool.after none (.register ⟨level, sources, targets, newFiles⟩ newFiles) merged) := by
    rw [← Pool.after_after]
    exact targeted.quiet none (Pool.after_phase_self _ _ _ _) rfl (Action.bind_of_ok merges _) rfl
  have finished := registering.registers (Pool.after_phase_self _ _ _ _) levels
  rwa [Pool.after_after] at finished

theorem Arrives.runs (arrives : Arrives pf io start flushed pool) (stands : pool.phase none = .countLevel0)
    {stats : CompactionStats} {final : Store} (ran : runCompaction pf io pool.state = .ok stats final) :
    ∃ job merged, Arrives pf io start flushed (pool.after none (.compacted job) final) ∧
      mergeSelected pf io pool.state = .ok (job.newFiles, job.inputs, stats) merged ∧
      final = job.inputs.foldl dropFile (withFiles merged job.newFiles) := by
  obtain ⟨newFiles, inputs, merged, merges, levels, rfl⟩ := runCompaction_merged ran
  obtain ⟨level, sources, targets, rfl, needed, selected, nonempty, merging, rfl⟩ := mergeSelected_merges merges
  have finished := (arrives.picks stands needed).compacts (Pool.after_phase_self _ _ _ _) selected nonempty merging levels
  rw [Pool.after_after] at finished
  exact ⟨⟨_, sources, targets, newFiles⟩, merged, finished, merges, rfl⟩

end Schedules

end Concurrent

section FifthFlush

def fifthFile : SSTableMeta := flushMeta [] (oneEntry [97] [1]) 5

def fiveFlushes : Store := flushTables [] 7 (List.replicate 4 (oneEntry [97] [1]) ++ [oneEntry [97] [1]])

theorem fourFlushes_add (store : Store)
    (written : store = { fourFlushes with
      tables := Function.update fourFlushes.tables fifthFile.filepath (some (.complete (oneEntry [97] [1]))) }) :
    registerFile fifthFile store = .ok () fiveFlushes := by
  rw [fiveFlushes, flushTables_concat, written]
  exact registerFile_ok.mpr ⟨by decide, rfl⟩

theorem fifthFile_selected : fifthFile ∈ (fiveFlushes.manager.selectCompactionFiles .reference 0).1 := by
  decide +kernel

theorem fifthFile_fresh : FreshPaths (fun _ : Unit => fifthFile) fourFlushes where
  level := fun _ => rfl
  injective := fun _ _ _ => rfl
  uncatalogued := fun _ => by decide +kernel
  ungenerated := fun _ _ deep number _ => flushPath_ne_outputPath [] 5 deep number

theorem fifthFile_merged : ∃ job pool, fifthFile ∈ job.selected ∧ pool.phase none = .compacted job ∧
    Arrives .reference .none (compactAndFlush (fun _ : Unit => fifthFile) (fun _ => oneEntry [97] [1]) fourFlushes)
      [fifthFile] pool := by
  obtain ⟨stats, final, ran⟩ : Action.Succeeds (runCompaction .reference .none) fiveFlushes :=
    flushTables_compacts _ _ (by decide) (by simp)
  obtain ⟨newFiles, inputs, merged, merges, levels, -⟩ := runCompaction_merged ran
  obtain ⟨level, sources, targets, picked, -, selected, nonempty, merging, -⟩ := mergeSelected_merges merges
  obtain rfl : level = 0 := picked.symm.trans (flushTables_pick (by simp))
  have triggers : fourFlushes.manager.pickCompactionLevel = 0 := flushTables_pick (by simp)
  have start : Arrives .reference .none
      (compactAndFlush (fun _ : Unit => fifthFile) (fun _ => oneEntry [97] [1]) fourFlushes) [] _ := ⟨[], .refl, rfl⟩
  have wrote := start.quiet (some ()) rfl rfl rfl rfl
  have triggered := wrote.picks rfl (triggers.trans_ne (by decide))
  have flushed := triggered.move (some ()) rfl rfl (Action.bind_of_ok (fourFlushes_add _ rfl) _)
  have compacted := flushed.compacts (congrArg CataloguePhase.selectSources triggers) selected nonempty merging levels
  have isSource : fifthFile ∈ sources := by
    have member := fifthFile_selected
    rwa [selected] at member
  exact ⟨_, _, List.mem_append_left _ isSource, Pool.after_phase_self _ _ _ _, compacted⟩

end FifthFlush

theorem concurrent_flushes_no_lost_fifth :
    ∃ (moves : List (CatalogueMove Unit)) (pool : Pool Store CataloguePhase (Option Unit)) (job : Job),
      Pool.Run (CataloguePhase.step .reference .none)
        (compactAndFlush (fun _ => fifthFile) (fun _ => oneEntry [97] [1]) fourFlushes) moves pool ∧
      pool.phase none = .compacted job ∧ added moves = [fifthFile] ∧
      Catalogues pool.state.manager (job.unselected (fourFlushes.manager.files ++ added moves) ++ job.newFiles) ∧
      ¬ Catalogues pool.state.manager (job.unselected fourFlushes.manager.files ++ job.newFiles ++ added moves) := by
  obtain ⟨job, pool, selected, finished, moves, run, flushed⟩ := fifthFile_merged
  have interleaved := CatalogueRace.of_run fifthFile_fresh run
  have stands := interleaved.compactor
  rw [finished] at stands
  have levelled : Levelled fourFlushes := fourFlushes_reachable.levelled
  obtain ⟨-, exactly, accounted⟩ := concurrent_flushes_no_lost_file_iff fifthFile_fresh run finished
  refine ⟨moves, pool, job, run, finished, flushed, ?_, fun all => ?_⟩
  · exact accounted.mpr (interleaved.ownPaths fifthFile_fresh stands.1 levelled)
  · exact (exactly.mp all).2 fifthFile (flushed ▸ List.mem_singleton_self _) selected

def secondLifetime : Store :=
  let first := (runCompaction .reference .none).final fourFlushes
  let restored : Store := ⟨first.tables, { CompactionManager.new [] 7 with files := first.manager.files }⟩
  [1, 2, 3, 4].foldl (fun store seq => flushTable [] store (oneEntry [97] [1]) seq) restored

/-- The compaction of the second lifetime gives its output the path of one of its inputs. -/
theorem second_lifetime_compaction_loses :
    ¬ ∀ (pf : Platform) (io : Faults) (κ : Type) [DecidableEq κ] (file : κ → SSTableMeta) (table : κ → SSTable)
        (initial : Store) (moves : List (CatalogueMove κ)) (pool : Pool Store CataloguePhase (Option κ)) (job : Job),
      FreshPaths file initial →
      Pool.Run (CataloguePhase.step pf io) (compactAndFlush file table initial) moves pool →
      pool.phase none = .compacted job →
      Catalogues pool.state.manager (job.unselected initial.manager.files ++ job.newFiles ++ added moves) := by
  intro all
  obtain ⟨stats, final, ran⟩ : Action.Succeeds (runCompaction .reference .none) secondLifetime := by decide +kernel
  have lost : final.manager.files = [] ∧ final.manager.nextFileNumber = 3 := by
    rw [← Action.final_of_ok ran]
    decide +kernel
  have start : Arrives .reference .none
      (compactAndFlush (fun k : Fin 0 => k.elim0) (fun k => k.elim0) secondLifetime) []
      (compactAndFlush (fun k : Fin 0 => k.elim0) (fun k => k.elim0) secondLifetime) := ⟨[], .refl, rfl⟩
  obtain ⟨job, merged, ⟨moves, run, -⟩, merges, isFinal⟩ := start.runs rfl ran
  have fresh : FreshPaths (fun k : Fin 0 => k.elim0) secondLifetime :=
    ⟨fun k => k.elim0, fun k => k.elim0, fun k => k.elim0, fun k => k.elim0⟩
  have catalogued := (all _ _ _ _ _ _ _ _ _ fresh run (Pool.after_phase_self _ _ _ _)).1
  rw [Pool.after_state, lost.1, List.nil_perm, List.append_eq_nil_iff, List.append_eq_nil_iff] at catalogued
  obtain ⟨level, sources, targets, fileData, outs, merging, isNew, -⟩ := mergeSelected_ok merges
  have empty : outs.length = 0 := by
    have := congrArg List.length isNew
    rw [catalogued.1.2] at this
    simpa [outputMetasFrom] using this.symm
  have number : final.manager.nextFileNumber = secondLifetime.manager.nextFileNumber + outs.length + 1 := by
    rw [isFinal, dropFiles_manager, withFiles]
    dsimp only
    rw [merging.outputs.manager]
    rfl
  have first : secondLifetime.manager.nextFileNumber = 1 := rfl
  rw [lost.2, empty, first] at number
  omega

end CompactionManager

end VectorDb.Storage
