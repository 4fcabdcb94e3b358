import VectorDb.Compaction.MergeOutputs
import VectorDb.Lib.FirstHit
import VectorDb.Lib.Program

namespace VectorDb.Storage
open Lib Common

namespace CompactionManager

variable (pf : Platform) (io : Faults)

def renumber (number : Nat → Nat) (files : List SSTableMeta) : List SSTableMeta :=
  files.mapIdx fun i file => { file with sequenceNumber := number i }

def numberInputs (sources targets : List SSTableMeta) : List SSTableMeta :=
  renumber (fun i => sources.length + targets.length - i) sources ++ renumber (fun i => i) targets

def registerFile (file : SSTableMeta) : Action Status Store Unit := do
  let manager ← Action.reads fun store => store.manager.addFile file
  modify fun store => { store with manager }

/-- `RemoveFile` and the removal of the file itself. -/
def dropFile (store : Store) (path : Path) : Store :=
  ⟨Function.update store.tables path none, store.manager.removeFile path⟩

def runCompaction : Action Status Store CompactionStats := do
  let manager := (← get).manager
  let sourceLevel := manager.pickCompactionLevel
  if sourceLevel = -1 then throw ⟨.kNotFound, text "No compaction needed"⟩
  let (sources, targets) := manager.selectCompactionFiles pf sourceLevel
  if sources = [] then throw ⟨.kNotFound, text "No source files selected for compaction"⟩
  let inputs := numberInputs sources targets
  let (newFiles, stats) ← mergeFiles pf io inputs (sourceLevel + 1)
    ⟨sourceLevel, sourceLevel + 1, inputs.length, 0, 0, 0, 0, 0, 0⟩
  forM newFiles registerFile
  modify fun store => (inputs.map SSTableMeta.filepath).foldl dropFile store
  return stats

/-- `RunCompaction` up to the end of the merge: the new files and the paths of the inputs. -/
def mergeSelected : Action Status Store (List SSTableMeta × List Path × CompactionStats) := do
  let manager := (← get).manager
  let sourceLevel := manager.pickCompactionLevel
  if sourceLevel = -1 then throw ⟨.kNotFound, text "No compaction needed"⟩
  let (sources, targets) := manager.selectCompactionFiles pf sourceLevel
  if sources = [] then throw ⟨.kNotFound, text "No source files selected for compaction"⟩
  let inputs := numberInputs sources targets
  let (newFiles, stats) ← mergeFiles pf io inputs (sourceLevel + 1)
    ⟨sourceLevel, sourceLevel + 1, inputs.length, 0, 0, 0, 0, 0, 0⟩
  return (newFiles, inputs.map SSTableMeta.filepath, stats)

theorem runCompaction_eq : runCompaction pf io = (do
    let (newFiles, inputs, stats) ← mergeSelected pf io
    forM newFiles registerFile
    modify fun store => inputs.foldl dropFile store
    return stats) := by
  funext store
  simp only [runCompaction, mergeSelected, bind_assoc]
  rw [Action.bind_of_ok (Action.get_eq store), Action.bind_of_ok (Action.get_eq store)]
  by_cases unneeded : store.manager.pickCompactionLevel = -1
  · simp only [unneeded, if_true]
    rfl
  by_cases unselected : (store.manager.selectCompactionFiles pf store.manager.pickCompactionLevel).1 = []
  · simp only [unneeded, unselected, if_true, if_false]
    rfl
  · simp only [unneeded, unselected, if_false, bind_assoc, pure_bind]

/-- The number after those of the outputs that a merge writes. It draws one number more than it writes outputs,
unless it fails at one of them. -/
def outputLimit {α : Type} (merge : Action Status Store α) (store : Store) : Nat :=
  match merge store with
  | .ok _ merged => merged.manager.nextFileNumber - 1
  | .error _ failed => failed.manager.nextFileNumber

/-- A crash inside the merge leaves anything at the paths of its outputs. -/
def tornMerge {α : Type} (target : Int) (merge : Action Status Store α) (store store' : Store) : Prop :=
  ∀ path, (∀ number ≥ store.manager.nextFileNumber, number < outputLimit merge store →
    path ≠ outputPath store.manager.dataDir target number) → store'.tables path = store.tables path

theorem outputLimit_ok {α : Type} {merge : Action Status Store α} {a : α} {store merged : Store}
    (ran : merge store = .ok a merged) : outputLimit merge store = merged.manager.nextFileNumber - 1 := by
  rw [outputLimit, ran]

def uncatalogue (path : Path) : Action Status Store Unit :=
  modify fun store => { store with manager := store.manager.removeFile path }

def unlink (path : Path) : Action Status Store Unit :=
  modify fun store => { store with tables := Function.update store.tables path none }

/-- `RunCompaction` as the steps that a crash or another thread can come between. -/
def compactionSteps : Program Status Store CompactionStats := do
  let manager := (← Program.atomic get).manager
  let sourceLevel := manager.pickCompactionLevel
  if sourceLevel = -1 then Program.atomic (throw ⟨.kNotFound, text "No compaction needed"⟩) else
  let (sources, targets) := manager.selectCompactionFiles pf sourceLevel
  if sources = [] then Program.atomic (throw ⟨.kNotFound, text "No source files selected for compaction"⟩) else
  let inputs := numberInputs sources targets
  let merge := mergeFiles pf io inputs (sourceLevel + 1)
    ⟨sourceLevel, sourceLevel + 1, inputs.length, 0, 0, 0, 0, 0, 0⟩
  let (newFiles, stats) ← Program.tearing (tornMerge (sourceLevel + 1) merge) merge
  forM newFiles fun file => Program.atomic (registerFile file)
  forM (inputs.map SSTableMeta.filepath) fun path => do
    Program.atomic (uncatalogue path)
    Program.atomic (unlink path)
  return stats

theorem dropFiles_eq (paths : List Path) :
    (forM paths fun path => uncatalogue path >>= fun _ => unlink path) =
      modify fun store => paths.foldl dropFile store := by
  funext store
  induction paths generalizing store with
  | nil => rfl
  | cons path paths ih =>
    have first : (uncatalogue path >>= fun _ => unlink path) store = .ok () (dropFile store path) := rfl
    rw [List.forM_cons, Action.bind_of_ok first, ih]
    rfl

theorem compactionSteps_run : (compactionSteps pf io).run = runCompaction pf io := by
  funext store
  simp only [compactionSteps, runCompaction, Program.run_bind, Program.run_atomic]
  rw [Action.bind_of_ok (Action.get_eq store), Action.bind_of_ok (Action.get_eq store)]
  by_cases unneeded : store.manager.pickCompactionLevel = -1
  · simp only [unneeded, if_true]
    rfl
  by_cases unselected : (store.manager.selectCompactionFiles pf store.manager.pickCompactionLevel).1 = []
  · simp only [unneeded, unselected, if_true, if_false]
    rfl
  · simp only [unneeded, unselected, if_false, Program.run_bind, Program.run_tearing, Program.run_forM,
      Program.run_atomic, Program.run_pure, dropFiles_eq]

section Inputs
variable (sources targets : List SSTableMeta)

@[simp] theorem renumber_paths (number : Nat → Nat) (files : List SSTableMeta) :
    (renumber number files).map SSTableMeta.filepath = files.map SSTableMeta.filepath := by
  apply List.ext_getElem
  · simp [renumber]
  · simp [renumber]

theorem numberInputs_paths :
    (numberInputs sources targets).map SSTableMeta.filepath = (sources ++ targets).map SSTableMeta.filepath := by
  simp [numberInputs]

def rankedInputs : List SSTableMeta :=
  renumber (fun i => sources.length + targets.length - i) sources ++ (renumber (fun i => i) targets).reverse

theorem rankedInputs_perm : (rankedInputs sources targets).Perm (numberInputs sources targets) :=
  (List.reverse_perm _).append_left _

theorem rankedInputs_ordered :
    (rankedInputs sources targets).Pairwise fun a b => b.sequenceNumber < a.sequenceNumber := by
  refine List.pairwise_append.mpr ⟨?_, ?_, fun a inSources b inTargets => ?_⟩
  · simp only [renumber, List.pairwise_iff_getElem, List.length_mapIdx, List.getElem_mapIdx]
    omega
  · rw [List.pairwise_reverse]
    simp only [renumber, List.pairwise_iff_getElem, List.length_mapIdx, List.getElem_mapIdx]
    omega
  · obtain ⟨i, bound, rfl⟩ := List.mem_mapIdx.mp inSources
    obtain ⟨j, bound', rfl⟩ := List.mem_mapIdx.mp (List.mem_reverse.mp inTargets)
    dsimp only
    omega

theorem numberInputs_ranks : ((numberInputs sources targets).map SSTableMeta.sequenceNumber).Nodup := by
  rw [← ((rankedInputs_perm sources targets).map _).nodup_iff, List.nodup_iff_pairwise_ne, List.pairwise_map]
  exact (rankedInputs_ordered sources targets).imp fun less => less.ne'

theorem rankedInputs_paths :
    (rankedInputs sources targets).map SSTableMeta.filepath =
      (sources ++ targets.reverse).map SSTableMeta.filepath := by
  simp [rankedInputs]

end Inputs

section Catalogue
variable {store store' : Store}

theorem addFile_ok {manager manager' : CompactionManager} {file : SSTableMeta}
    (added : manager.addFile file = .ok manager') :
    0 ≤ file.level ∧ file.level < manager.maxLevel ∧ manager' = { manager with files := manager.files ++ [file] } := by
  unfold addFile at added
  split at added
  next => cases added
  next valid =>
    cases added
    exact ⟨by omega, by omega, rfl⟩

def withFiles (store : Store) (files : List SSTableMeta) : Store :=
  { store with manager := { store.manager with files := store.manager.files ++ files } }

theorem registerFile_ok {file : SSTableMeta} : registerFile file store = .ok () store' ↔
    (0 ≤ file.level ∧ file.level < store.manager.maxLevel) ∧ store' = withFiles store [file] := by
  constructor
  · intro registered
    obtain ⟨manager, read, added, modified⟩ := Action.bind_ok.mp registered
    obtain ⟨added, rfl⟩ := Action.reads_ok.mp added
    cases modified
    obtain ⟨low, high, rfl⟩ := addFile_ok added
    exact ⟨⟨low, high⟩, rfl⟩
  · rintro ⟨valid, rfl⟩
    refine Action.bind_ok.mpr ⟨_, store, Action.reads_ok.mpr ⟨?_, rfl⟩, rfl⟩
    rw [addFile, if_neg (by omega)]

theorem registerFile_final (file : SSTableMeta) (store : Store) : (registerFile file).final store =
    if 0 ≤ file.level ∧ file.level < store.manager.maxLevel then withFiles store [file] else store := by
  split
  next valid => exact Action.final_of_ok (registerFile_ok.mpr ⟨valid, rfl⟩)
  next invalid =>
    have refused : Action.Ensures (registerFile file) store (fun _ => (· = store)) (· = store) := by
      refine .reads_bind (fun manager added => ?_) fun _ _ => rfl
      obtain ⟨low, high, -⟩ := addFile_ok added
      exact absurd ⟨low, high⟩ invalid
    exact refused.final

theorem registerFiles_ok (files : List SSTableMeta) : (forM files registerFile) store = .ok () store' ↔
    (∀ file ∈ files, 0 ≤ file.level ∧ file.level < store.manager.maxLevel) ∧ store' = withFiles store files := by
  induction files generalizing store with
  | nil => simp [withFiles, eq_comm]
  | cons file files ih =>
    rw [List.forM_cons, Action.bind_ok]
    constructor
    · rintro ⟨⟨⟩, between, first, rest⟩
      obtain ⟨valid, rfl⟩ := registerFile_ok.mp first
      obtain ⟨levels, rfl⟩ := ih.mp rest
      refine ⟨fun other member => ?_, by simp [withFiles]⟩
      rcases List.mem_cons.mp member with rfl | later
      · exact valid
      · exact levels other later
    · rintro ⟨levels, rfl⟩
      refine ⟨(), _, registerFile_ok.mpr ⟨levels file (by simp), rfl⟩, ih.mpr ⟨fun other member => ?_, ?_⟩⟩
      · exact levels other (by simp [member])
      · simp [withFiles]

theorem dropFiles_tables (paths : List Path) (path : Path) :
    (paths.foldl dropFile store).tables path = if path ∈ paths then none else store.tables path := by
  induction paths generalizing store with
  | nil => simp
  | cons first paths ih =>
    rw [List.foldl_cons, ih]
    by_cases same : path = first <;> by_cases member : path ∈ paths <;> simp [dropFile, same, member]

theorem dropFiles_manager (paths : List Path) :
    (paths.foldl dropFile store).manager =
      { store.manager with files := store.manager.files.filter fun file => file.filepath ∉ paths } := by
  induction paths generalizing store with
  | nil => simp
  | cons first paths ih =>
    rw [List.foldl_cons, ih]
    simp [dropFile, removeFile, List.filter_filter, Bool.and_comm]

end Catalogue

structure CompactionRun (store store' : Store) (level : Int) (sources targets : List SSTableMeta)
    (fileData : List (SSTableMeta × SSTable)) (outs : List SSTable) : Prop where
  picked : store.manager.pickCompactionLevel = level
  needed : level ≠ -1
  selected : store.manager.selectCompactionFiles pf level = (sources, targets)
  nonempty : sources ≠ []
  inputs : fileData.map Prod.fst = numberInputs sources targets
  read : ∀ input ∈ fileData, store.tables input.1.filepath = some (.complete input.2)
  merged : MergedOutputs fileData (level + 1 = store.manager.maxLevel - 1) outs
  room : outs ≠ [] → 0 ≤ level + 1 ∧ level + 1 < store.manager.maxLevel
  manager : store'.manager = { store.manager with
    files := (store.manager.files ++
      outputMetasFrom io store.manager.dataDir (level + 1) store.manager.nextFileNumber outs).filter
        fun file => file.filepath ∉ (sources ++ targets).map SSTableMeta.filepath
    nextFileNumber := store.manager.nextFileNumber + outs.length + 1 }
  dropped : ∀ path ∈ (sources ++ targets).map SSTableMeta.filepath, store'.tables path = none
  written : ∀ (j : Nat) (bound : j < outs.length),
    outputPath store.manager.dataDir (level + 1) (store.manager.nextFileNumber + j) ∉
        (sources ++ targets).map SSTableMeta.filepath →
      store'.tables (outputPath store.manager.dataDir (level + 1) (store.manager.nextFileNumber + j)) = some (io.leaves
        (outputPath store.manager.dataDir (level + 1) (store.manager.nextFileNumber + j)) outs[j])
  others : ∀ path ∉ (sources ++ targets).map SSTableMeta.filepath,
    (∀ j < outs.length, path ≠ outputPath store.manager.dataDir (level + 1) (store.manager.nextFileNumber + j)) →
      store'.tables path = store.tables path

structure MergeRun (store merged : Store) (level : Int) (sources targets : List SSTableMeta)
    (fileData : List (SSTableMeta × SSTable)) (outs : List SSTable) : Prop where
  picked : store.manager.pickCompactionLevel = level
  needed : level ≠ -1
  selected : store.manager.selectCompactionFiles pf level = (sources, targets)
  nonempty : sources ≠ []
  inputs : fileData.map Prod.fst = numberInputs sources targets
  read : ∀ input ∈ fileData, store.tables input.1.filepath = some (.complete input.2)
  outputs : Outputs io store (level + 1) outs merged
  merged : MergedOutputs fileData (level + 1 = store.manager.maxLevel - 1) outs

variable {pf io}

theorem outputMetasFrom_level {dataDir : Path} {level : Int} {number : Nat} {outs : List SSTable}
    {file : SSTableMeta} (member : file ∈ outputMetasFrom io dataDir level number outs) : file.level = level := by
  obtain ⟨⟨table, n⟩, -, rfl⟩ := List.mem_map.mp member
  rfl

theorem mergeSelected_merges {store merged : Store} {newFiles : List SSTableMeta} {inputs : List Path}
    {stats : CompactionStats} (merges : mergeSelected pf io store = .ok (newFiles, inputs, stats) merged) :
    ∃ level sources targets, store.manager.pickCompactionLevel = level ∧ level ≠ -1 ∧
      store.manager.selectCompactionFiles pf level = (sources, targets) ∧ sources ≠ [] ∧
      mergeFiles pf io (numberInputs sources targets) (level + 1)
        ⟨level, level + 1, (numberInputs sources targets).length, 0, 0, 0, 0, 0, 0⟩ store =
          .ok (newFiles, stats) merged ∧
      inputs = (numberInputs sources targets).map SSTableMeta.filepath := by
  rw [mergeSelected, Action.bind_of_ok (Action.get_eq store)] at merges
  dsimp only at merges
  by_cases needed : store.manager.pickCompactionLevel = -1
  · rw [if_pos needed] at merges
    cases merges
  rw [if_neg needed] at merges
  obtain ⟨⟨sources, targets⟩, selected⟩ :
      ∃ files, store.manager.selectCompactionFiles pf store.manager.pickCompactionLevel = files := ⟨_, rfl⟩
  rw [selected] at merges
  by_cases nonempty : sources = []
  · simp [nonempty, Action.bind_ok] at merges
  simp only [nonempty, if_false] at merges
  obtain ⟨⟨metas, after⟩, between, merging, merges⟩ := Action.bind_ok.mp merges
  cases merges
  exact ⟨_, sources, targets, rfl, needed, selected, nonempty, merging, rfl⟩

theorem mergeSelected_ok {store merged : Store} {newFiles : List SSTableMeta} {inputs : List Path}
    {stats : CompactionStats} (merges : mergeSelected pf io store = .ok (newFiles, inputs, stats) merged) :
    ∃ level sources targets fileData outs, MergeRun pf io store merged level sources targets fileData outs ∧
      newFiles = outputMetasFrom io store.manager.dataDir (level + 1) store.manager.nextFileNumber outs ∧
      inputs = (sources ++ targets).map SSTableMeta.filepath := by
  obtain ⟨level, sources, targets, picked, needed, selected, nonempty, merging, rfl⟩ := mergeSelected_merges merges
  obtain ⟨fileData, outs, inputs, read, outputs, rfl, spec⟩ := mergeFiles_ok (numberInputs_ranks _ _) merging
  exact ⟨level, sources, targets, fileData, outs,
    ⟨picked, needed, selected, nonempty, inputs, read, outputs, spec⟩, rfl, numberInputs_paths _ _⟩

theorem compactionSteps_torn {store merged : Store} {newFiles : List SSTableMeta} {inputs : List Path}
    {stats : CompactionStats} (merges : mergeSelected pf io store = .ok (newFiles, inputs, stats) merged)
    (some : newFiles ≠ []) (bytes : Bytes) : ∃ level, (compactionSteps pf io).Crash store { store with
      tables := Function.update store.tables (outputPath store.manager.dataDir level store.manager.nextFileNumber)
        (Option.some (.torn bytes)) } := by
  obtain ⟨level, sources, targets, picked, needed, selected, nonempty, merging, -⟩ := mergeSelected_merges merges
  obtain ⟨-, outs, -, -, outputs, isNew, -⟩ := mergeFiles_outputs merging
  have wrote : 0 < outs.length := by
    rw [List.length_pos_iff]
    rintro rfl
    exact some isNew
  refine ⟨level + 1, .after (Action.get_eq store) ?_⟩
  simp only [Program.bind, picked, needed, selected, nonempty, if_false]
  refine .during fun path undrawn => Function.update_of_ne (undrawn _ le_rfl ?_) _ _
  rw [outputLimit_ok merging, outputs.manager]
  dsimp only
  omega

theorem MergeRun.compaction {store merged : Store} {level : Int} {sources targets : List SSTableMeta}
    {fileData : List (SSTableMeta × SSTable)} {outs : List SSTable}
    (run : MergeRun pf io store merged level sources targets fileData outs)
    (levels : ∀ file ∈ outputMetasFrom io store.manager.dataDir (level + 1) store.manager.nextFileNumber outs,
      0 ≤ file.level ∧ file.level < merged.manager.maxLevel) :
    CompactionRun pf io store (((sources ++ targets).map SSTableMeta.filepath).foldl dropFile (withFiles merged
      (outputMetasFrom io store.manager.dataDir (level + 1) store.manager.nextFileNumber outs)))
      level sources targets fileData outs := by
  have outputs := run.outputs
  rw [outputs.manager] at levels
  refine ⟨run.picked, run.needed, run.selected, run.nonempty, run.inputs, run.read, run.merged,
    fun some => ?_, ?_, fun path member => ?_, fun j bound fresh => ?_, fun path kept other => ?_⟩
  · obtain ⟨table, rest, rfl⟩ := List.exists_cons_of_ne_nil some
    exact levels (outputMetaOf io store.manager.dataDir _ table store.manager.nextFileNumber) (by simp [outputMetasFrom])
  · rw [dropFiles_manager, withFiles, outputs.manager]
  · rw [dropFiles_tables, if_pos member]
  · rw [dropFiles_tables, if_neg fresh]
    exact outputs.written j bound
  · rw [dropFiles_tables, if_neg kept]
    exact outputs.others path other

theorem runCompaction_merged {store store' : Store} {stats : CompactionStats}
    (ran : runCompaction pf io store = .ok stats store') :
    ∃ newFiles inputs merged, mergeSelected pf io store = .ok (newFiles, inputs, stats) merged ∧
      (∀ file ∈ newFiles, 0 ≤ file.level ∧ file.level < merged.manager.maxLevel) ∧
      store' = inputs.foldl dropFile (withFiles merged newFiles) := by
  rw [runCompaction_eq] at ran
  obtain ⟨⟨newFiles, inputs, stats'⟩, merged, merges, ran⟩ := Action.bind_ok.mp ran
  obtain ⟨⟨⟩, catalogued, registering, ran⟩ := Action.bind_ok.mp ran
  cases ran
  obtain ⟨levels, rfl⟩ := (registerFiles_ok _).mp registering
  exact ⟨newFiles, inputs, merged, merges, levels, rfl⟩

theorem runCompaction_ok {store store' : Store} {stats : CompactionStats}
    (ran : runCompaction pf io store = .ok stats store') :
    ∃ level sources targets fileData outs,
      CompactionRun pf io store store' level sources targets fileData outs := by
  obtain ⟨newFiles, inputs, merged, merges, levels, rfl⟩ := runCompaction_merged ran
  obtain ⟨level, sources, targets, fileData, outs, run, rfl, rfl⟩ := mergeSelected_ok merges
  exact ⟨level, sources, targets, fileData, outs, run.compaction levels⟩

variable (pf) in
theorem selectCompactionFiles_ne_nil {manager : CompactionManager} {level : Int} (files : manager.filesAt level ≠ []) :
    (manager.selectCompactionFiles pf level).1 ≠ [] := by
  have sorted : manager.getFilesAtLevel pf level ≠ [] := fun none =>
    files (List.perm_nil.mp (none ▸ (pf.sort_perm _ (manager.filesAt level)).symm))
  unfold selectCompactionFiles
  split
  next none => exact absurd none sorted
  next => split <;> simp

theorem runCompaction_succeeds (silent : io.Silent) {store : Store} (needed : store.manager.needsCompaction = true)
    (levels : 2 ≤ store.manager.maxLevel)
    (present : ∀ file ∈ store.manager.files, ∃ table, store.tables file.filepath = some (.complete table)) :
    Action.Succeeds (runCompaction pf io) store := by
  obtain ⟨level, picked⟩ : ∃ level, store.manager.pickCompactionLevel = level := ⟨_, rfl⟩
  have cases := pickCompactionLevel_cases store.manager
  simp only [needsCompaction, ne_eq, decide_not, Bool.not_eq_true', decide_eq_false_iff_not] at needed
  rw [picked] at cases needed
  obtain ⟨valid, files⟩ := cases.resolve_left needed
  obtain ⟨⟨sources, targets⟩, selected⟩ : ∃ files, store.manager.selectCompactionFiles pf level = files := ⟨_, rfl⟩
  have nonempty : sources ≠ [] := by
    have := selectCompactionFiles_ne_nil pf files
    rwa [selected] at this
  obtain ⟨lo, hi, selection⟩ := selectCompactionFiles_spec selected nonempty
  have inputs : ∀ file ∈ numberInputs sources targets,
      ∃ table, store.tables file.filepath = some (.complete table) := by
    intro file member
    have path : file.filepath ∈ (sources ++ targets).map SSTableMeta.filepath := by
      rw [← numberInputs_paths]
      exact List.mem_map_of_mem member
    obtain ⟨original, input, same⟩ := List.mem_map.mp path
    rw [← same]
    exact present original (selection.input_mem input)
  refine Action.Succeeds.bind ⟨store, store, rfl⟩ fun _ _ run => ?_
  cases run
  simp only [picked, needed, selected, nonempty, if_false]
  refine (mergeFiles_succeeds silent (level + 1) _ inputs).bind fun (files, stats) between merging => ?_
  obtain ⟨fileData, outs, -, -, outputs, rfl, -⟩ := mergeFiles_ok (numberInputs_ranks _ _) merging
  refine Action.Succeeds.bind ⟨(), _, (registerFiles_ok _).mpr ⟨fun file member => ?_, rfl⟩⟩ fun _ _ _ => ⟨_, _, rfl⟩
  rw [outputMetasFrom_level member, outputs.manager]
  dsimp only
  omega

end CompactionManager

end VectorDb.Storage
