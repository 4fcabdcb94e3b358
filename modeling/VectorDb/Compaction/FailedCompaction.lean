import VectorDb.Compaction.LevelInvariant

namespace VectorDb.Storage
open Lib Common

namespace CompactionManager

/-- The stores of one lifetime that starts with an empty catalogue: level-0 files are flushed to the
`level0_` paths and registered, and compactions succeed or fail. -/
inductive InLifetime (pf : Platform) (dataDir : Path) (maxLevel : Int) : Store → Prop
  | empty (tables : Tables) : InLifetime pf dataDir maxLevel ⟨tables, .new dataDir maxLevel⟩
  | register {store : Store} {file : SSTableMeta} (table : SSTable) (seq : Nat) :
      InLifetime pf dataDir maxLevel store → file.level = 0 → file.filepath = flushPath dataDir seq →
      InLifetime pf dataDir maxLevel ((registerFile file).final { store with
        tables := Function.update store.tables file.filepath (some (.complete table)) })
  | compact {store : Store} (io : Faults) :
      InLifetime pf dataDir maxLevel store → InLifetime pf dataDir maxLevel ((runCompaction pf io).final store)

structure Unchanged (before after : Store) : Prop where
  catalogue : after.manager.files = before.manager.files
  tables : ∀ file ∈ before.manager.files, after.tables file.filepath = before.tables file.filepath

def Taken (dataDir : Path) (next : Nat) (path : Path) : Prop :=
  (∃ seq, path = flushPath dataDir seq) ∨ ∃ level, ∃ number < next, path = outputPath dataDir level number

structure Numbered (dataDir : Path) (store : Store) : Prop where
  directory : store.manager.dataDir = dataDir
  taken : ∀ file ∈ store.manager.files, Taken dataDir store.manager.nextFileNumber file.filepath

/-- A merge since `start` has drawn file numbers and written to their paths, and nothing else. -/
structure Merging (start : Store) (target : Int) (store : Store) : Prop where
  drawn : start.manager.nextFileNumber ≤ store.manager.nextFileNumber
  manager : store.manager = { start.manager with nextFileNumber := store.manager.nextFileNumber }
  others : ∀ path, (∀ number ≥ start.manager.nextFileNumber, number < store.manager.nextFileNumber →
    path ≠ outputPath start.manager.dataDir target number) → store.tables path = start.tables path

def Drawn (start : Store) (target : Int) (path : Path) (store : Store) : Prop :=
  ∃ number ≥ start.manager.nextFileNumber, number < store.manager.nextFileNumber ∧
    path = outputPath start.manager.dataDir target number

structure AtOutput (start : Store) (target : Int) (locals : MergeLocals) (store : Store) : Prop
    extends Merging start target store where
  level : locals.targetLevel = target
  path : Drawn start target locals.currentOutputPath store

section Merge
variable {pf : Platform} {io : Faults} {start store : Store} {target : Int} {locals : MergeLocals}

theorem merging_start (start : Store) (target : Int) : Merging start target start := ⟨le_rfl, rfl, fun _ _ => rfl⟩

variable (pf io) in
theorem writeVectorToSSTable_final (path : Path) (entries : List BlockEntry) (store : Store) :
    ((writeVectorToSSTable pf io path entries).final store).manager = store.manager ∧
      ∀ other ≠ path, ((writeVectorToSSTable pf io path entries).final store).tables other = store.tables other := by
  rw [writeVectorToSSTable]
  split
  · exact ⟨rfl, fun _ _ => rfl⟩
  · rw [Action.final_zoom]
    exact ⟨rfl, fun other ne => writeTable_others path _ _ ne⟩

theorem Merging.write (merging : Merging start target store) {path : Path} (drawn : Drawn start target path store)
    (entries : List BlockEntry) :
    Action.Ensures (writeVectorToSSTable pf io path entries) store (fun _ => Merging start target)
      (Merging start target) := by
  apply Action.Ensures.of_final
  obtain ⟨manager, others⟩ := writeVectorToSSTable_final pf io path entries store
  obtain ⟨number, low, high, isPath⟩ := drawn
  refine ⟨manager ▸ merging.drawn, manager ▸ merging.manager, fun other undrawn => ?_⟩
  rw [manager] at undrawn
  rw [others other fun same => undrawn number low high (same.trans isPath), merging.others other undrawn]

theorem Merging.generate (merging : Merging start target store) {failed : Store → Prop} :
    Action.Ensures (generateOutputPath target) store
      (fun path after => Merging start target after ∧ Drawn start target path after) failed := by
  have dataDir : store.manager.dataDir = start.manager.dataDir := by rw [merging.manager]
  have drawn := merging.drawn
  refine ⟨⟨by dsimp only; omega, by rw [merging.manager], fun path undrawn => ?_⟩, ?_⟩
  · exact merging.others path fun number low high => undrawn number low (by dsimp only; omega)
  · exact ⟨store.manager.nextFileNumber, drawn, by simp, by rw [dataDir]⟩

theorem AtOutput.flush (stands : AtOutput start target locals store) :
    Action.Ensures (flushOutput pf io locals) store (AtOutput start target) (Merging start target) := by
  rw [flushOutput]
  split
  · exact .pure stands
  · apply (stands.toMerging.write stands.path locals.outputEntries).bind
    intro _ written merging
    apply Action.Ensures.get_bind
    dsimp only
    rw [stands.level]
    apply merging.generate.bind
    rintro path after ⟨merging, drawn⟩
    exact .pure ⟨merging, rfl, drawn⟩

theorem AtOutput.consume (stands : AtOutput start target locals store) (entry : BlockEntry) :
    Action.Ensures (consume pf io locals entry) store (AtOutput start target) (Merging start target) := by
  rw [CompactionManager.consume]
  split
  · exact .pure { stands with }
  · dsimp only
    split
    · exact .pure { stands with }
    · split
      · exact AtOutput.flush { stands with }
      · exact .pure { stands with }

theorem AtOutput.drain (fuel : Nat) (heap : List (Run BlockEntry)) (stands : AtOutput start target locals store) :
    Action.Ensures (drain pf io fuel heap locals) store (AtOutput start target) (Merging start target) := by
  induction fuel generalizing heap locals store with
  | zero => exact .pure stands
  | succ fuel ih =>
    rw [CompactionManager.drain]
    split
    · exact .pure stands
    · next top rest _ =>
      apply (stands.consume top.head).bind
      exact fun next between stands => ih _ stands

theorem mergeFiles_merging (inputs : List SSTableMeta) (stats : CompactionStats) :
    Action.Ensures (mergeFiles pf io inputs target stats) store (fun _ => Merging store target)
      (Merging store target) := by
  have begins := merging_start store target
  rw [mergeFiles, readInputs]
  simp only [bind_assoc, pure_bind]
  refine .reads_bind (fun fileData _ => ?_) fun _ _ => begins
  apply Action.Ensures.get_bind
  apply begins.generate.bind
  rintro path started ⟨merging, drawn⟩
  apply Action.Ensures.bind (AtOutput.drain _ _ ⟨merging, rfl, drawn⟩)
  intro drained between stands
  apply stands.flush.bind
  exact fun flushed after stands => .pure stands.toMerging

theorem mergeSelected_fails : Action.Ensures (mergeSelected pf io) store (fun _ _ => True)
    fun after => ∃ target ≥ 1, Merging store target after := by
  have levels := pickCompactionLevel_cases store.manager
  refine .get_bind ?_
  dsimp only
  by_cases unneeded : store.manager.pickCompactionLevel = -1
  · rw [if_pos unneeded]
    exact ⟨1, le_rfl, merging_start store 1⟩
  rw [if_neg unneeded]
  by_cases unselected : (store.manager.selectCompactionFiles pf store.manager.pickCompactionLevel).1 = []
  · rw [if_pos unselected]
    exact ⟨1, le_rfl, merging_start store 1⟩
  rw [if_neg unselected]
  apply ((mergeFiles_merging _ _).weaken (fun _ _ merging => merging) fun _ merging => ⟨_, by omega, merging⟩).bind
  exact fun _ _ _ => .pure trivial

end Merge

section Register
variable {store : Store}

theorem registerFiles_ensures {files : List SSTableMeta} {level : Int} (levels : ∀ file ∈ files, file.level = level) :
    Action.Ensures (forM files registerFile) store (fun _ after => after = withFiles store files) (· = store) := by
  by_cases valid : 0 ≤ level ∧ level < store.manager.maxLevel
  · have registered : (forM files registerFile) store = .ok () (withFiles store files) :=
      (registerFiles_ok files).mpr ⟨fun file member => levels file member ▸ valid, rfl⟩
    rw [Action.Ensures, registered]
  · cases files with
    | nil => exact .pure (by simp [withFiles])
    | cons file files =>
      have refused : Action.Ensures (registerFile file) store (fun _ _ => False) (· = store) := by
        refine .reads_bind (fun manager added => ?_) fun _ _ => rfl
        obtain ⟨low, high, -⟩ := addFile_ok added
        rw [levels file (by simp)] at low high
        exact absurd ⟨low, high⟩ valid
      rw [List.forM_cons]
      exact refused.bind fun _ _ impossible => impossible.elim

end Register

section Compaction
variable {pf : Platform} {io : Faults} {dataDir : Path} {maxLevel : Int} {store store' : Store} {status : Status}

theorem runCompaction_fails (fails : runCompaction pf io store = .error status store') :
    ∃ target ≥ 1, Merging store target store' := by
  rw [runCompaction_eq] at fails
  cases merges : mergeSelected pf io store with
  | error status between =>
    rw [Action.bind_of_error merges] at fails
    cases fails
    exact mergeSelected_fails.of_error merges
  | ok result merged =>
    obtain ⟨newFiles, inputs, stats⟩ := result
    rw [Action.bind_of_ok merges] at fails
    obtain ⟨level, sources, targets, picked, needed, -, -, merging, -⟩ := mergeSelected_merges merges
    obtain ⟨fileData, outs, -, -, -, metas, -⟩ := mergeFiles_ok (numberInputs_ranks _ _) merging
    have levels : ∀ file ∈ newFiles, file.level = level + 1 := fun file member =>
      outputMetasFrom_level (metas ▸ member)
    have valid := pickCompactionLevel_cases store.manager
    have merging := (mergeFiles_merging _ _).of_ok merging
    dsimp only at fails
    cases registering : (forM newFiles registerFile) merged with
    | ok _ registered =>
      rw [Action.bind_of_ok registering] at fails
      cases fails
    | error _ refused =>
      rw [Action.bind_of_error registering] at fails
      cases fails
      rw [(registerFiles_ensures levels).of_error registering]
      exact ⟨level + 1, by omega, merging⟩

theorem Taken.mono {next next' : Nat} {path : Path} (le : next ≤ next') (taken : Taken dataDir next path) :
    Taken dataDir next' path := by
  rcases taken with flush | ⟨level, number, bound, same⟩
  · exact .inl flush
  · exact .inr ⟨level, number, bound.trans_le le, same⟩

theorem Taken.ungenerated {next number : Nat} {path : Path} {target : Int} (taken : Taken dataDir next path)
    (deep : 1 ≤ target) (low : next ≤ number) : path ≠ outputPath dataDir target number := by
  rcases taken with ⟨seq, rfl⟩ | ⟨level, generated, bound, rfl⟩
  · exact flushPath_ne_outputPath dataDir seq deep number
  · intro same
    have := (outputPath_inj same).2
    omega

theorem Numbered.merging (numbered : Numbered dataDir store) {target : Int} (merging : Merging store target store') :
    Numbered dataDir store' := by
  have files : store'.manager.files = store.manager.files := by rw [merging.manager]
  refine ⟨by rw [merging.manager]; exact numbered.directory, fun file member => ?_⟩
  exact (numbered.taken file (files ▸ member)).mono merging.drawn

theorem Numbered.compaction (numbered : Numbered dataDir store) {level : Int} {sources targets : List SSTableMeta}
    {fileData : List (SSTableMeta × SSTable)} {outs : List SSTable}
    (run : CompactionRun pf io store store' level sources targets fileData outs) : Numbered dataDir store' := by
  refine ⟨by rw [run.manager]; exact numbered.directory, fun file member => ?_⟩
  rw [run.manager] at member ⊢
  dsimp only at member ⊢
  rcases List.mem_append.mp (List.mem_of_mem_filter member) with old | new
  · exact (numbered.taken file old).mono (by omega)
  · obtain ⟨j, bound, rfl⟩ := mem_outputMetasFrom.mp new
    exact .inr ⟨level + 1, store.manager.nextFileNumber + j, by omega, by rw [outputMetaOf, numbered.directory]⟩

theorem InLifetime.numbered (lifetime : InLifetime pf dataDir maxLevel store) : Numbered dataDir store := by
  induction lifetime with
  | empty tables => exact ⟨rfl, by simp [new]⟩
  | @register store file table seq _ level path numbered =>
    rw [registerFile_final]
    split
    · refine ⟨numbered.directory, fun other member => ?_⟩
      rcases List.mem_append.mp member with old | new
      · exact numbered.taken other old
      · rw [List.mem_singleton.mp new]
        exact .inl ⟨seq, path⟩
    · exact ⟨numbered.directory, numbered.taken⟩
  | @compact store io _ numbered =>
    rw [Action.final]
    cases ran : runCompaction pf io store with
    | ok stats after =>
      obtain ⟨level, sources, targets, fileData, outs, run⟩ := runCompaction_ok ran
      exact numbered.compaction run
    | error status after =>
      obtain ⟨target, -, merging⟩ := runCompaction_fails ran
      exact numbered.merging merging

theorem failed_compaction_changes_nothing (lifetime : InLifetime pf dataDir maxLevel store)
    (fails : runCompaction pf io store = .error status store') : Unchanged store store' := by
  obtain ⟨target, deep, merging⟩ := runCompaction_fails fails
  have numbered := lifetime.numbered
  refine ⟨by rw [merging.manager], fun file member => merging.others _ fun number low _ => ?_⟩
  rw [numbered.directory]
  exact (numbered.taken file member).ungenerated deep low

variable (pf dataDir) in
theorem flushTables_lifetime (levels : 1 ≤ maxLevel) (tables : List SSTable) :
    InLifetime pf dataDir maxLevel (flushTables dataDir maxLevel tables) := by
  induction tables using List.reverseRecOn with
  | nil => exact .empty _
  | append_singleton tables table ih =>
    have registered : registerFile (flushMeta dataDir table (tables.length + 1)) { flushTables dataDir maxLevel tables with
        tables := Function.update (flushTables dataDir maxLevel tables).tables (flushPath dataDir (tables.length + 1))
          (some (.complete table)) } = .ok () (flushTables dataDir maxLevel (tables ++ [table])) := by
      rw [flushTables_concat]
      refine registerFile_ok.mpr ⟨⟨le_rfl, ?_⟩, rfl⟩
      rw [flushTables_manager]
      exact levels
    rw [← Action.final_of_ok registered]
    exact .register table _ ih rfl rfl

def unreadable : Faults := { Faults.none with readTable := fun _ => true }

theorem readInputs_unreadable {inputs : List SSTableMeta} (some : inputs ≠ []) (stats : CompactionStats) :
    ¬ Action.Succeeds (readInputs unreadable inputs stats) store := by
  obtain ⟨file, rest, rfl⟩ := List.exists_cons_of_ne_nil some
  rintro ⟨⟨fileData, read⟩, after, reads⟩
  obtain ⟨data, between, reads, -⟩ := Action.bind_ok.mp reads
  obtain ⟨opened, -⟩ := Action.reads_ok.mp reads
  rw [List.mapM_cons] at opened
  obtain ⟨_, openedFirst, -⟩ := Action.except_bind_ok.mp opened
  obtain ⟨table, openedTable, -⟩ := Action.except_bind_ok.mp openedFirst
  rw [openTable, openTable_ok openedTable] at openedTable
  simp [unreadable] at openedTable

variable (pf store) in
theorem runCompaction_unreadable : ∃ status failed,
    runCompaction pf unreadable store = .error status failed := by
  cases ran : runCompaction pf unreadable store with
  | error status failed => exact ⟨status, failed, rfl⟩
  | ok stats after =>
    obtain ⟨newFiles, inputs, merged, merges, -⟩ := runCompaction_merged ran
    obtain ⟨level, sources, targets, -, -, -, nonempty, merging, -⟩ := mergeSelected_merges merges
    obtain ⟨fileData, read, -, -, -, -, reads, -⟩ := mergeFiles_parts merging
    have some : numberInputs sources targets ≠ [] := by
      simpa [numberInputs, renumber] using fun none => absurd none nonempty
    exact absurd ⟨_, _, reads⟩ (readInputs_unreadable some _)

end Compaction

theorem failed_compaction_unreadable : ∃ status store',
    runCompaction .reference unreadable fourFlushes =
      .error status store' ∧
    Unchanged fourFlushes store' := by
  obtain ⟨status, store', fails⟩ := runCompaction_unreadable .reference
    fourFlushes
  exact ⟨status, store', fails, failed_compaction_changes_nothing
    (flushTables_lifetime .reference [] (by decide) _) fails⟩

end CompactionManager

end VectorDb.Storage
