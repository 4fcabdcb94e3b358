import VectorDb.Compaction.RunCompaction

namespace VectorDb.Storage
open Lib Common

namespace CompactionManager

def Recorded (tables : Tables) (file : SSTableMeta) (table : SSTable) : Prop :=
  tables file.filepath = some (.complete table) ∧ file.smallestKey = table.smallestKey ∧
    file.largestKey = table.largestKey

def Apart (a b : SSTableMeta) : Prop := a.largestKey < b.smallestKey ∨ b.largestKey < a.smallestKey

theorem Apart.symm {a b : SSTableMeta} (apart : Apart a b) : Apart b a := Or.symm apart

structure Levelled (store : Store) : Prop where
  recorded : ∀ file ∈ store.manager.files, ∃ table, Recorded store.tables file table
  paths : (store.manager.files.map SSTableMeta.filepath).Nodup
  ungenerated : ∀ file ∈ store.manager.files, ∀ level ≥ 1, ∀ number ≥ store.manager.nextFileNumber,
    file.filepath ≠ outputPath store.manager.dataDir level number
  levels : ∀ file ∈ store.manager.files, 0 ≤ file.level ∧ file.level < store.manager.maxLevel
  apart : ∀ a ∈ store.manager.files, ∀ b ∈ store.manager.files, a ≠ b → a.level = b.level → 1 ≤ a.level → Apart a b
  named : ∀ file ∈ store.manager.files, 1 ≤ file.level → file.smallestKey ≠ []

structure Filed (store : Store) : Prop where
  paths : (store.manager.files.map SSTableMeta.filepath).Nodup
  ungenerated : ∀ file ∈ store.manager.files, ∀ level ≥ 1, ∀ number ≥ store.manager.nextFileNumber,
    file.filepath ≠ outputPath store.manager.dataDir level number

structure Registered (store : Store) : Prop extends Filed store where
  recorded : ∀ file ∈ store.manager.files, ∃ table, Recorded store.tables file table

theorem Levelled.registered {store : Store} (levelled : Levelled store) : Registered store :=
  ⟨⟨levelled.paths, levelled.ungenerated⟩, levelled.recorded⟩

theorem Levelled.filed {store : Store} (levelled : Levelled store) : Filed store := levelled.registered.toFiled

structure Flushed (store : Store) (file : SSTableMeta) (table : SSTable) : Prop where
  level : file.level = 0
  smallestKey : file.smallestKey = table.smallestKey
  largestKey : file.largestKey = table.largestKey
  uncatalogued : file.filepath ∉ store.manager.files.map SSTableMeta.filepath
  ungenerated : ∀ level ≥ 1, ∀ number ≥ store.manager.nextFileNumber,
    file.filepath ≠ outputPath store.manager.dataDir level number

/-- The stores reached from an empty catalogue by registering flushed tables that `accepted` lets in
and by successful compactions. -/
inductive Reachable (pf : Platform) (accepted : CompactionManager → SSTableMeta → Prop) (dataDir : Path)
    (maxLevel : Int) : Store → Prop
  | empty (tables : Tables) : Reachable pf accepted dataDir maxLevel ⟨tables, .new dataDir maxLevel⟩
  | register {store store' : Store} {file : SSTableMeta} {table : SSTable} :
      Reachable pf accepted dataDir maxLevel store → Flushed store file table → accepted store.manager file →
      registerFile file { store with
        tables := Function.update store.tables file.filepath (some (.complete table)) } = .ok () store' →
      Reachable pf accepted dataDir maxLevel store'
  | compact {store store' : Store} {io : Faults} {stats : CompactionStats} :
      Reachable pf accepted dataDir maxLevel store → io.Lossless → runCompaction pf io store = .ok stats store' →
      Reachable pf accepted dataDir maxLevel store'

theorem Recorded.le {tables : Tables} {file : SSTableMeta} {table : SSTable} (recorded : Recorded tables file table) :
    file.smallestKey ≤ file.largestKey := by
  rw [recorded.2.1, recorded.2.2]
  exact table.smallestKey_le_largestKey

theorem Recorded.inside {tables : Tables} {file : SSTableMeta} {table : SSTable}
    (recorded : Recorded tables file table) {e : BlockEntry} (member : e ∈ table.entries) :
    file.smallestKey ≤ e.key ∧ e.key ≤ file.largestKey := by
  rw [recorded.2.1, recorded.2.2]
  exact ⟨table.smallestKey_le member, table.le_largestKey member⟩

theorem levelled_empty (tables : Tables) (dataDir : Path) (maxLevel : Int) :
    Levelled ⟨tables, .new dataDir maxLevel⟩ := by
  constructor <;> simp [new]

theorem Levelled.register {store store' : Store} {file : SSTableMeta} {table : SSTable} (levelled : Levelled store)
    (flushed : Flushed store file table)
    (registered : registerFile file { store with
      tables := Function.update store.tables file.filepath (some (.complete table)) } = .ok () store') :
    Levelled store' := by
  obtain ⟨valid, rfl⟩ := registerFile_ok.mp registered
  have files : ∀ other ∈ store.manager.files ++ [file], other ∈ store.manager.files ∨ other = file := by
    simp
  refine ⟨fun other member => ?_, ?_, fun other member => ?_, fun other member => ?_,
    fun a inA b inB distinct same deep => ?_, fun other member deep => ?_⟩
  · rcases files other member with old | rfl
    · obtain ⟨oldTable, recorded⟩ := levelled.recorded other old
      have apart : other.filepath ≠ file.filepath := fun same =>
        flushed.uncatalogued (same ▸ List.mem_map_of_mem old)
      exact ⟨oldTable, by simp [withFiles, apart, recorded.1], recorded.2⟩
    · exact ⟨table, by simp [withFiles], flushed.smallestKey, flushed.largestKey⟩
  · simp only [withFiles, List.map_append, List.map_cons, List.map_nil]
    exact List.Nodup.append levelled.paths (by simp) (by simpa using flushed.uncatalogued)
  · rcases files other member with old | rfl
    · exact levelled.ungenerated other old
    · exact flushed.ungenerated
  · rcases files other member with old | rfl
    · exact levelled.levels other old
    · exact valid
  · have level := flushed.level
    rcases files a inA with oldA | rfl
    · rcases files b inB with oldB | rfl
      · exact levelled.apart a oldA b oldB distinct same deep
      · omega
    · omega
  · have level := flushed.level
    rcases files other member with old | rfl
    · exact levelled.named other old deep
    · omega

section Compact
variable {pf : Platform} {io : Faults} {store store' : Store} {level : Int} {sources targets : List SSTableMeta}
  {fileData : List (SSTableMeta × SSTable)} {outs : List SSTable}

theorem Selection.beside {lo hi : Bytes} (selection : store.manager.Selection pf level sources targets lo hi)
    (levelled : Levelled store) (valid : 0 ≤ level) {file : SSTableMeta} (member : file ∈ store.manager.files)
    (atTarget : file.level = level + 1) (left : file ∉ targets) :
    (∀ input ∈ sources ++ targets, input.largestKey < file.smallestKey) ∨
      ∀ input ∈ sources ++ targets, file.largestKey < input.smallestKey := by
  obtain ⟨table, recorded⟩ := levelled.recorded file member
  have range := recorded.le
  have outside : file.largestKey < lo ∨ hi < file.smallestKey := by
    by_contra inside
    rw [not_or, not_lt, not_lt, ← file.overlapsWith_iff] at inside
    exact left (selection.target_mem.mpr ⟨member, atTarget, inside⟩)
  have target : ∀ input ∈ targets, Apart input file ∧ lo ≤ input.largestKey ∧ input.smallestKey ≤ hi := by
    intro input selected
    obtain ⟨inFiles, inLevel, overlaps⟩ := selection.target_mem.mp selected
    refine ⟨levelled.apart input inFiles file member ?_ ?_ ?_, ?_⟩
    · rintro rfl
      exact left selected
    · omega
    · omega
    · exact (input.overlapsWith_iff lo hi).mp overlaps
  rcases outside with below | above
  · right
    intro input inputs
    rcases List.mem_append.mp inputs with source | selected
    · exact below.trans_le (selection.range input source).1
    · obtain ⟨apart, meets, -⟩ := target input selected
      rcases apart with before | after
      · exact absurd (below.trans_le meets) (not_lt.mpr (before.le.trans range))
      · exact after
  · left
    intro input inputs
    rcases List.mem_append.mp inputs with source | selected
    · exact (selection.range input source).2.trans_lt above
    · obtain ⟨apart, -, meets⟩ := target input selected
      rcases apart with before | after
      · exact before
      · exact absurd (meets.trans_lt above) (not_lt.mpr (range.trans after.le))

theorem CompactionRun.valid (run : CompactionRun pf io store store' level sources targets fileData outs) : 0 ≤ level := by
  have := pickCompactionLevel_cases store.manager
  rw [run.picked] at this
  have := run.needed
  omega

theorem CompactionRun.selection (run : CompactionRun pf io store store' level sources targets fileData outs) :
    ∃ lo hi, store.manager.Selection pf level sources targets lo hi :=
  selectCompactionFiles_spec run.selected run.nonempty

theorem CompactionRun.input (run : CompactionRun pf io store store' level sources targets fileData outs)
    (registered : Registered store) {input : SSTableMeta × SSTable} (member : input ∈ fileData) :
    ∃ file ∈ sources ++ targets, file.filepath = input.1.filepath ∧ Recorded store.tables file input.2 := by
  obtain ⟨lo, hi, selection⟩ := run.selection
  have path : input.1.filepath ∈ (sources ++ targets).map SSTableMeta.filepath := by
    rw [← numberInputs_paths, ← run.inputs]
    exact List.mem_map_of_mem (List.mem_map_of_mem member)
  obtain ⟨file, inputs, same⟩ := List.mem_map.mp path
  obtain ⟨table, recorded⟩ := registered.recorded file (selection.input_mem inputs)
  have read := run.read input member
  rw [← same, recorded.1] at read
  cases read
  exact ⟨file, inputs, same, recorded⟩

theorem CompactionRun.output_key (run : CompactionRun pf io store store' level sources targets fileData outs)
    (registered : Registered store) {table : SSTable} (output : table ∈ outs) {e : BlockEntry} (member : e ∈ table.entries) :
    e.key ≠ [] ∧ ∃ file ∈ sources ++ targets, file.smallestKey ≤ e.key ∧ e.key ≤ file.largestKey := by
  have found := find_mem _ run.merged.ascending (List.mem_flatMap.mpr ⟨table, output, member⟩)
  obtain ⟨named, -, input, inData, version, -⟩ := (run.merged.latest e.key e).mp found
  obtain ⟨file, inputs, -, recorded⟩ := run.input registered inData
  exact ⟨named, file, inputs, recorded.inside (find_some _ version).1⟩

theorem CompactionRun.input_listed (run : CompactionRun pf io store store' level sources targets fileData outs)
    {path : Path} (input : path ∈ (sources ++ targets).map SSTableMeta.filepath) :
    path ∈ store.manager.files.map SSTableMeta.filepath := by
  obtain ⟨lo, hi, selection⟩ := run.selection
  obtain ⟨file, inputs, rfl⟩ := List.mem_map.mp input
  exact List.mem_map_of_mem (selection.input_mem inputs)

theorem CompactionRun.output_unlisted (run : CompactionRun pf io store store' level sources targets fileData outs)
    (filed : Filed store) (j : Nat) :
    outputPath store.manager.dataDir (level + 1) (store.manager.nextFileNumber + j) ∉
      store.manager.files.map SSTableMeta.filepath := by
  intro listed
  have valid := run.valid
  obtain ⟨file, member, same⟩ := List.mem_map.mp listed
  exact filed.ungenerated file member _ (by omega) _ (Nat.le_add_right _ j) same

theorem CompactionRun.output_fresh (run : CompactionRun pf io store store' level sources targets fileData outs)
    (filed : Filed store) (j : Nat) :
    outputPath store.manager.dataDir (level + 1) (store.manager.nextFileNumber + j) ∉
      (sources ++ targets).map SSTableMeta.filepath :=
  fun input => run.output_unlisted filed j (run.input_listed input)

theorem CompactionRun.kept_path (run : CompactionRun pf io store store' level sources targets fileData outs)
    (filed : Filed store) {file : SSTableMeta} (member : file ∈ store.manager.files) :
    file.filepath ∈ (sources ++ targets).map SSTableMeta.filepath ↔ file ∈ sources ++ targets := by
  refine ⟨fun path => ?_, fun input => List.mem_map_of_mem input⟩
  obtain ⟨lo, hi, selection⟩ := run.selection
  obtain ⟨other, inputs, same⟩ := List.mem_map.mp path
  rwa [← List.inj_on_of_nodup_map filed.paths (selection.input_mem inputs) member same]

theorem mem_outputMetasFrom {dataDir : Path} {number : Nat} {file : SSTableMeta} :
    file ∈ outputMetasFrom io dataDir level number outs ↔
      ∃ (j : Nat) (bound : j < outs.length), file = outputMetaOf io dataDir level outs[j] (number + j) := by
  simp [List.mem_iff_getElem, outputMetasFrom, eq_comm]

theorem outputMetasFrom_length (dataDir : Path) (number : Nat) :
    (outputMetasFrom io dataDir level number outs).length = outs.length := by
  simp [outputMetasFrom]

theorem mem_outputPaths {dataDir : Path} {number : Nat} {path : Path} :
    path ∈ (outputMetasFrom io dataDir level number outs).map SSTableMeta.filepath ↔
      ∃ j < outs.length, path = outputPath dataDir level (number + j) := by
  simp only [List.mem_map, mem_outputMetasFrom]
  constructor
  · rintro ⟨file, ⟨j, bound, rfl⟩, rfl⟩
    exact ⟨j, bound, rfl⟩
  · rintro ⟨j, bound, rfl⟩
    exact ⟨_, ⟨j, bound, rfl⟩, rfl⟩

theorem CompactionRun.mem_files (run : CompactionRun pf io store store' level sources targets fileData outs)
    (filed : Filed store) (file : SSTableMeta) : file ∈ store'.manager.files ↔
      (file ∈ store.manager.files ∧ file ∉ sources ++ targets) ∨
        ∃ (j : Nat) (bound : j < outs.length), file =
          outputMetaOf io store.manager.dataDir (level + 1) outs[j] (store.manager.nextFileNumber + j) := by
  rw [run.manager]
  simp only [List.mem_filter, decide_eq_true_eq]
  rw [List.mem_append, mem_outputMetasFrom]
  constructor
  · rintro ⟨old | output, path⟩
    · exact .inl ⟨old, fun input => path ((run.kept_path filed old).mpr input)⟩
    · exact .inr output
  · rintro (⟨old, left⟩ | ⟨j, bound, rfl⟩)
    · exact ⟨.inl old, fun path => left ((run.kept_path filed old).mp path)⟩
    · exact ⟨.inr ⟨j, bound, rfl⟩, run.output_fresh filed j⟩

theorem CompactionRun.kept_table (run : CompactionRun pf io store store' level sources targets fileData outs)
    (filed : Filed store) {file : SSTableMeta} (member : file ∈ store.manager.files)
    (left : file ∉ sources ++ targets) : store'.tables file.filepath = store.tables file.filepath :=
  run.others _ (fun path => left ((run.kept_path filed member).mp path))
    fun j _ => filed.ungenerated file member _ (by have := run.valid; omega) _ (Nat.le_add_right _ j)

theorem CompactionRun.output_table (run : CompactionRun pf io store store' level sources targets fileData outs)
    (filed : Filed store) {j : Nat} (bound : j < outs.length) :
    store'.tables (outputPath store.manager.dataDir (level + 1) (store.manager.nextFileNumber + j)) =
      some (io.leaves (outputPath store.manager.dataDir (level + 1) (store.manager.nextFileNumber + j)) outs[j]) :=
  run.written j bound (run.output_fresh filed j)

theorem MergedOutputs.ordered {bottom : Bool} (merged : MergedOutputs fileData bottom outs) :
    outs.Pairwise fun a b => a.largestKey < b.smallestKey := by
  refine (List.pairwise_flatMap.mp merged.ascending).2.imp fun below => ?_
  exact below _ (List.getLast_mem _) _ (List.head_mem _)

theorem CompactionRun.output_apart (run : CompactionRun pf io store store' level sources targets fileData outs)
    (levelled : Levelled store) {file : SSTableMeta} (member : file ∈ store.manager.files)
    (left : file ∉ sources ++ targets) (atTarget : file.level = level + 1) {table : SSTable} (output : table ∈ outs)
    (number : Nat) : Apart file (outputMetaOf io store.manager.dataDir (level + 1) table number) := by
  obtain ⟨lo, hi, selection⟩ := run.selection
  have unselected : file ∉ targets := fun target => left (List.mem_append_right _ target)
  rcases selection.beside levelled run.valid member atTarget unselected with above | below
  · obtain ⟨last, inTable, same⟩ := table.last_mem
    obtain ⟨-, input, inputs, -, high⟩ := run.output_key levelled.registered output inTable
    exact .inr ((same.ge.trans high).trans_lt (above input inputs))
  · obtain ⟨first, inTable, same⟩ := table.head_mem
    obtain ⟨-, input, inputs, low, -⟩ := run.output_key levelled.registered output inTable
    exact .inl ((below input inputs).trans_le (low.trans_eq same))

theorem outputMetasFrom_paths (dataDir : Path) (target : Int) (number : Nat) :
    ((outputMetasFrom io dataDir target number outs).map SSTableMeta.filepath).Nodup := by
  rw [List.nodup_iff_pairwise_ne, List.pairwise_map, outputMetasFrom, List.pairwise_map, List.pairwise_iff_getElem]
  intro i j boundI boundJ less same
  simp only [List.getElem_zipIdx, outputMetaOf] at same
  have := (outputPath_inj same).2
  omega

theorem CompactionRun.paths (run : CompactionRun pf io store store' level sources targets fileData outs)
    (paths : (store.manager.files.map SSTableMeta.filepath).Nodup)
    (unlisted : ∀ j < outs.length, outputPath store.manager.dataDir (level + 1) (store.manager.nextFileNumber + j) ∉
      store.manager.files.map SSTableMeta.filepath) :
    (store'.manager.files.map SSTableMeta.filepath).Nodup := by
  rw [run.manager]
  refine List.Nodup.sublist (List.filter_sublist.map _) ?_
  rw [List.map_append]
  refine List.Nodup.append paths (outputMetasFrom_paths _ _ _) fun path old new => ?_
  obtain ⟨output, outputs, rfl⟩ := List.mem_map.mp new
  obtain ⟨j, bound, rfl⟩ := mem_outputMetasFrom.mp outputs
  exact unlisted j bound old

theorem Filed.compact (filed : Filed store)
    (run : CompactionRun pf io store store' level sources targets fileData outs) : Filed store' := by
  refine ⟨run.paths filed.paths fun j _ => run.output_unlisted filed j, ?_⟩
  intro file member target deep number later same
  rw [run.manager] at later same
  rcases (run.mem_files filed file).mp member with ⟨old, left⟩ | ⟨j, bound, rfl⟩
  · exact filed.ungenerated file old target deep number (by dsimp only at later; omega) same
  · have := (outputPath_inj same).2
    dsimp only at later
    omega

theorem Registered.compact (registered : Registered store) (lossless : io.Lossless)
    (run : CompactionRun pf io store store' level sources targets fileData outs) : Registered store' := by
  refine ⟨registered.toFiled.compact run, fun file member => ?_⟩
  rcases (run.mem_files registered.toFiled file).mp member with ⟨old, left⟩ | ⟨j, bound, rfl⟩
  · obtain ⟨table, recorded⟩ := registered.recorded file old
    exact ⟨table, by rw [run.kept_table registered.toFiled old left, recorded.1], recorded.2⟩
  · exact ⟨outs[j], (run.output_table registered.toFiled bound).trans (by rw [lossless.leaves]), rfl, rfl⟩

theorem Levelled.compact (levelled : Levelled store) (lossless : io.Lossless)
    (run : CompactionRun pf io store store' level sources targets fileData outs) : Levelled store' := by
  have files := run.mem_files levelled.filed
  obtain ⟨⟨paths, ungenerated⟩, recorded⟩ := levelled.registered.compact lossless run
  refine ⟨recorded, paths, ungenerated, fun file member => ?_, fun a inA b inB distinct same deep => ?_,
    fun file member deep => ?_⟩
  · have max : store'.manager.maxLevel = store.manager.maxLevel := by rw [run.manager]
    rw [max]
    rcases (files file).mp member with ⟨old, left⟩ | ⟨j, bound, rfl⟩
    · exact levelled.levels file old
    · exact run.room (List.ne_nil_of_length_pos (by omega))
  · rcases (files a).mp inA with ⟨oldA, leftA⟩ | ⟨i, boundI, rfl⟩
    · rcases (files b).mp inB with ⟨oldB, leftB⟩ | ⟨j, boundJ, rfl⟩
      · exact levelled.apart a oldA b oldB distinct same deep
      · exact run.output_apart levelled oldA leftA same (List.getElem_mem boundJ) _
    · rcases (files b).mp inB with ⟨oldB, leftB⟩ | ⟨j, boundJ, rfl⟩
      · exact (run.output_apart levelled oldB leftB same.symm (List.getElem_mem boundI) _).symm
      · have ordered := List.pairwise_iff_getElem.mp run.merged.ordered
        rcases lt_trichotomy i j with less | rfl | more
        · exact .inl (ordered i j boundI boundJ less)
        · exact absurd rfl distinct
        · exact .inr (ordered j i boundJ boundI more)
  · rcases (files file).mp member with ⟨old, left⟩ | ⟨j, bound, rfl⟩
    · exact levelled.named file old deep
    · obtain ⟨first, inTable, same⟩ := outs[j].head_mem
      exact fun empty => (run.output_key levelled.registered (List.getElem_mem bound) inTable).1 (same.trans empty)

end Compact

theorem Reachable.manager {pf : Platform} {accepted : CompactionManager → SSTableMeta → Prop}
    {dataDir : Path} {maxLevel : Int} {store : Store} (reachable : Reachable pf accepted dataDir maxLevel store) :
    store.manager.dataDir = dataDir ∧ store.manager.maxLevel = maxLevel := by
  induction reachable with
  | empty tables => exact ⟨rfl, rfl⟩
  | register _ _ _ registered ih =>
    obtain ⟨-, rfl⟩ := registerFile_ok.mp registered
    exact ih
  | compact _ _ ran ih =>
    obtain ⟨level, sources, targets, fileData, outs, run⟩ := runCompaction_ok ran
    rw [run.manager]
    exact ih

theorem Reachable.levelled {pf : Platform} {accepted : CompactionManager → SSTableMeta → Prop} {dataDir : Path}
    {maxLevel : Int} {store : Store} (reachable : Reachable pf accepted dataDir maxLevel store) : Levelled store := by
  induction reachable with
  | empty tables => exact levelled_empty tables dataDir maxLevel
  | register _ flushed _ registered ih => exact ih.register flushed registered
  | compact _ lossless ran ih =>
    obtain ⟨level, sources, targets, fileData, outs, run⟩ := runCompaction_ok ran
    exact ih.compact lossless run

theorem reachable_levels_disjoint {pf : Platform} {accepted : CompactionManager → SSTableMeta → Prop} {dataDir : Path}
    {maxLevel : Int} {store : Store} (reachable : Reachable pf accepted dataDir maxLevel store) :
    (∀ level ≥ 1, (store.manager.filesAt level).Pairwise Apart) ∧
      ∀ file ∈ store.manager.files, ∃ table, Recorded store.tables file table := by
  have levelled := reachable.levelled
  refine ⟨fun level deep => ?_, levelled.recorded⟩
  have distinct : (store.manager.filesAt level).Nodup := (List.Nodup.of_map _ levelled.paths).filter _
  refine distinct.pairwise_of_forall_ne fun a inA b inB ne => ?_
  obtain ⟨filesA, levelA⟩ := mem_filesAt.mp inA
  obtain ⟨filesB, levelB⟩ := mem_filesAt.mp inB
  exact levelled.apart a filesA b filesB ne (by omega) (by omega)

def InFlushOrder (manager : CompactionManager) (file : SSTableMeta) : Prop :=
  ∀ other ∈ manager.files, other.level = 0 → other.sequenceNumber < file.sequenceNumber

section Flushes
variable (dataDir : Path)

def flushMeta (table : SSTable) (seq : Nat) : SSTableMeta :=
  ⟨flushPath dataDir seq, 0, table.smallestKey, table.largestKey, table.sizeBytes, seq⟩

def flushTable (store : Store) (table : SSTable) (seq : Nat) : Store :=
  withFiles { store with tables := Function.update store.tables (flushPath dataDir seq) (some (.complete table)) }
    [flushMeta dataDir table seq]

def flushTables (maxLevel : Int) (tables : List SSTable) : Store :=
  (tables.zipIdx 1).foldl (fun store (table, seq) => flushTable dataDir store table seq)
    ⟨fun _ => none, .new dataDir maxLevel⟩

variable {dataDir} {maxLevel : Int} {tables : List SSTable}

theorem flushTables_concat (tables : List SSTable) (table : SSTable) : flushTables dataDir maxLevel (tables ++ [table]) =
    flushTable dataDir (flushTables dataDir maxLevel tables) table (tables.length + 1) := by
  simp [flushTables, List.zipIdx_append, Nat.add_comm]

theorem flushTables_manager : (flushTables dataDir maxLevel tables).manager =
    ⟨dataDir, maxLevel, (tables.zipIdx 1).map fun (table, seq) => flushMeta dataDir table seq, 1⟩ := by
  induction tables using List.reverseRecOn with
  | nil => rfl
  | append_singleton tables table ih =>
    rw [flushTables_concat, flushTable, withFiles, ih]
    simp [List.zipIdx_append, Nat.add_comm]

theorem flushTables_table (table : SSTable) (seq : Nat) (member : (table, seq) ∈ tables.zipIdx 1) :
    (flushTables dataDir maxLevel tables).tables (flushPath dataDir seq) = some (.complete table) := by
  induction tables using List.reverseRecOn with
  | nil => simp at member
  | append_singleton tables last ih =>
    rw [flushTables_concat, flushTable, withFiles]
    rw [List.zipIdx_append, List.mem_append] at member
    rcases member with old | new
    · have := List.snd_lt_of_mem_zipIdx old
      dsimp only
      rw [Function.update_of_ne fun same => ?_, ih old]
      have := flushPath_inj same
      omega
    · simp only [List.zipIdx_singleton, List.mem_singleton, Prod.mk.injEq] at new
      obtain ⟨rfl, rfl⟩ := new
      rw [Nat.add_comm 1]
      simp

theorem flushTables_complete {path : Path} {table : SSTable}
    (stored : (flushTables dataDir maxLevel tables).tables path = some (.complete table)) : table ∈ tables := by
  induction tables using List.reverseRecOn with
  | nil => cases stored
  | append_singleton tables last ih =>
    rw [flushTables_concat, flushTable, withFiles] at stored
    dsimp only at stored
    by_cases same : path = flushPath dataDir (tables.length + 1)
    · rw [same, Function.update_self] at stored
      cases stored
      simp
    · rw [Function.update_of_ne same] at stored
      exact List.mem_append_left _ (ih stored)

theorem Reachable.flush {pf : Platform} {store : Store} (reached : Reachable pf InFlushOrder dataDir maxLevel store)
    (levels : 1 ≤ maxLevel) (table : SSTable) {seq : Nat}
    (unused : flushPath dataDir seq ∉ store.manager.files.map SSTableMeta.filepath)
    (order : ∀ other ∈ store.manager.files, other.level = 0 → other.sequenceNumber < seq) :
    Reachable pf InFlushOrder dataDir maxLevel (flushTable dataDir store table seq) := by
  obtain ⟨directory, max⟩ := reached.manager
  have flushed : Flushed store (flushMeta dataDir table seq) table := by
    refine ⟨rfl, rfl, rfl, unused, fun level deep number _ => ?_⟩
    rw [directory]
    exact flushPath_ne_outputPath dataDir _ deep number
  exact reached.register flushed order (registerFile_ok.mpr ⟨⟨le_rfl, by rw [max]; exact levels⟩, rfl⟩)

variable (dataDir) in
theorem flushTables_reachable (pf : Platform) (levels : 1 ≤ maxLevel) (tables : List SSTable) :
    Reachable pf InFlushOrder dataDir maxLevel (flushTables dataDir maxLevel tables) := by
  induction tables using List.reverseRecOn with
  | nil => exact .empty _
  | append_singleton tables table ih =>
    have earlier : ∀ file ∈ (flushTables dataDir maxLevel tables).manager.files,
        ∃ seq ≤ tables.length, file.sequenceNumber = seq ∧ file.filepath = flushPath dataDir seq := by
      intro file member
      rw [flushTables_manager] at member
      obtain ⟨⟨table, seq⟩, inZip, rfl⟩ := List.mem_map.mp member
      have := List.snd_lt_of_mem_zipIdx inZip
      exact ⟨seq, by omega, rfl, rfl⟩
    rw [flushTables_concat]
    refine ih.flush levels table (fun old => ?_) fun other member _ => ?_
    · obtain ⟨file, member, same⟩ := List.mem_map.mp old
      obtain ⟨seq, bound, -, path⟩ := earlier file member
      have := flushPath_inj (path.symm.trans same)
      omega
    · obtain ⟨seq, bound, stamp, -⟩ := earlier other member
      omega

theorem flushTables_pick (many : 4 ≤ tables.length) :
    (flushTables dataDir maxLevel tables).manager.pickCompactionLevel = 0 := by
  rw [pickCompactionLevel, if_pos]
  rw [flushTables_manager, level0FileCount]
  simpa [List.filter_map, Function.comp_def, flushMeta, leveled.kLevel0CompactionTrigger] using many

variable (dataDir) in
theorem flushTables_compacts (pf : Platform) (levels : 2 ≤ maxLevel) (many : 4 ≤ tables.length) :
    Action.Succeeds (runCompaction pf .none) (flushTables dataDir maxLevel tables) := by
  have levelled := (flushTables_reachable dataDir pf (by omega : 1 ≤ maxLevel) tables).levelled
  refine runCompaction_succeeds Faults.silent_none ?_ ?_ fun file member => ?_
  · simp [needsCompaction, flushTables_pick many]
  · rw [flushTables_manager]
    exact levels
  · obtain ⟨table, recorded⟩ := levelled.recorded file member
    exact ⟨table, recorded.1⟩

end Flushes

def oneEntry (key value : Bytes) : SSTable :=
  ⟨[⟨key, value, false⟩], by simp, by simp [Ascending], by simp⟩

def fourFlushes : Store := flushTables [] 7 (List.replicate 4 (oneEntry [97] [1]))

theorem fourFlushes_reachable : Reachable Platform.reference InFlushOrder [] 7 fourFlushes :=
  flushTables_reachable _ _ (by decide) _

theorem fourFlushes_compacts : Action.Succeeds (runCompaction Platform.reference .none) fourFlushes :=
  flushTables_compacts _ _ (by decide) (by simp)

def compactedOnce : Store :=
  ((List.replicate 4 (oneEntry [98] [1])).zipIdx 5).foldl (fun store (table, seq) => flushTable [] store table seq)
    ((runCompaction Platform.reference .none).final fourFlushes)

theorem compactedOnce_reachable : Reachable Platform.reference InFlushOrder [] 7 compactedOnce := by
  obtain ⟨stats, store, ran⟩ := fourFlushes_compacts
  have compacted := Action.final_of_ok ran ▸ Reachable.compact fourFlushes_reachable Faults.lossless_none ran
  refine Reachable.flush (Reachable.flush (Reachable.flush (Reachable.flush compacted ?_ _ ?_ ?_) ?_ _ ?_ ?_) ?_ _ ?_ ?_)
    ?_ _ ?_ ?_ <;> decide +kernel

theorem reachable_levels_disjoint_two_files : ∃ stats store,
    runCompaction Platform.reference .none compactedOnce = .ok stats store ∧ (store.manager.filesAt 1).length = 2 ∧
      (∀ level ≥ 1, (store.manager.filesAt level).Pairwise Apart) ∧
        ∀ file ∈ store.manager.files, ∃ table, Recorded store.tables file table := by
  obtain ⟨stats, store, ran⟩ : Action.Succeeds (runCompaction Platform.reference .none) compactedOnce := by
    decide +kernel
  have two : (((runCompaction Platform.reference .none).final compactedOnce).manager.filesAt 1).length = 2 := by
    decide +kernel
  rw [Action.final_of_ok ran] at two
  exact ⟨stats, store, ran, two,
    reachable_levels_disjoint (Reachable.compact compactedOnce_reachable Faults.lossless_none ran)⟩

theorem lost_flush_breaks_range : ¬ ∀ (pf : Platform) (io : Faults) (dataDir : Path) (maxLevel : Int)
    (store store' : Store) (stats : CompactionStats), Reachable pf InFlushOrder dataDir maxLevel store →
    runCompaction pf io store = .ok stats store' →
    ∀ file ∈ store'.manager.files, ∃ table, Recorded store'.tables file table := by
  intro ranges
  obtain ⟨stats, store, ran⟩ : Action.Succeeds (runCompaction Platform.reference .fullDisk) fourFlushes := by
    decide +kernel
  have torn : ∃ file ∈ ((runCompaction Platform.reference .fullDisk).final fourFlushes).manager.files,
      (((runCompaction Platform.reference .fullDisk).final fourFlushes).tables file.filepath).map TableFile.bytes =
        some [] := by decide +kernel
  rw [Action.final_of_ok ran] at torn
  obtain ⟨file, member, empty⟩ := torn
  obtain ⟨table, recorded⟩ := ranges _ _ _ _ _ _ _ fourFlushes_reachable ran file member
  rw [recorded.1, Option.map_some, Option.some.injEq] at empty
  have filled := table.sizeBytes_pos
  rw [SSTable.sizeBytes, show table.bytes = [] from empty] at filled
  cases filled

end CompactionManager

end VectorDb.Storage
