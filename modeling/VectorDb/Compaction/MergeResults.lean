import VectorDb.Compaction.LevelInvariant

namespace VectorDb.Storage
open Lib Common

namespace CompactionManager

structure OnDisk (tables : Tables) (files : List SSTableMeta) (contents : List (SSTableMeta × SSTable)) : Prop where
  files : contents.map Prod.fst = files
  complete : ∀ pair ∈ contents, tables pair.1.filepath = some (.complete pair.2)

def entriesOf (contents : List (SSTableMeta × SSTable)) : List BlockEntry := contents.flatMap fun pair => pair.2.entries

def holders (contents : List (SSTableMeta × SSTable)) (key : Bytes) : Nat :=
  contents.countP fun pair => (pair.2.lookup key).isSome

def DropsTombstone (manager : CompactionManager) (targetLevel : Int) (read : List (SSTableMeta × SSTable))
    (key : Bytes) : Prop :=
  targetLevel = manager.maxLevel - 1 ∧ ∃ entry, LatestInput read key entry ∧ entry.isTombstone = true

structure SortedNewest (manager : CompactionManager) (targetLevel : Int) (read wrote : List (SSTableMeta × SSTable)) :
    Prop where
  ascending : Ascending BlockEntry.key (entriesOf wrote)
  newest : ∀ e ∈ entriesOf wrote, LatestInput read e.key e
  bottom : targetLevel = manager.maxLevel - 1 → ∀ e ∈ entriesOf wrote, e.isTombstone = false
  ranges : ∀ output ∈ wrote, output.1.smallestKey = output.2.smallestKey ∧ output.1.largestKey = output.2.largestKey

def KeepsKey (manager : CompactionManager) (targetLevel : Int) (read wrote : List (SSTableMeta × SSTable))
    (key : Bytes) : Prop :=
  ¬ DropsTombstone manager targetLevel read key → holders wrote key = 1

variable {pf : Platform} {io : Faults} {store store' : Store} {level : Int} {outs : List SSTable}

theorem OnDisk.unique {tables : Tables} {files : List SSTableMeta} {contents contents' : List (SSTableMeta × SSTable)}
    (onDisk : OnDisk tables files contents) (onDisk' : OnDisk tables files contents') : contents = contents' := by
  have firsts := onDisk.files.trans onDisk'.files.symm
  apply List.ext_getElem (by simpa using congrArg List.length firsts)
  intro i bound bound'
  have same : contents[i].1 = contents'[i].1 := by
    have := List.getElem_of_eq firsts (by simpa using bound)
    simpa using this
  have table := onDisk.complete contents[i] (List.getElem_mem bound)
  rw [same, onDisk'.complete contents'[i] (List.getElem_mem bound')] at table
  exact Prod.ext same (by simpa using table.symm)

theorem Outputs.onDisk (outputs : Outputs io store level outs store') (lossless : io.Lossless) :
    OnDisk store'.tables (outputMetasFrom io store.manager.dataDir level store.manager.nextFileNumber outs)
      ((outputMetasFrom io store.manager.dataDir level store.manager.nextFileNumber outs).zip outs) := by
  refine ⟨List.map_fst_zip (by rw [outputMetasFrom_length]), fun pair member => ?_⟩
  obtain ⟨j, bound, rfl⟩ := List.mem_iff_getElem.mp member
  have inside : j < outs.length := by simpa [outputMetasFrom_length] using bound
  simpa [outputMetasFrom, outputMetaOf, lossless.leaves] using outputs.written j inside

theorem Outputs.lost (outputs : Outputs .fullDisk store level outs store') (filled : outs ≠ []) :
    ∃ file ∈ outputMetasFrom .fullDisk store.manager.dataDir level store.manager.nextFileNumber outs,
      store'.tables file.filepath = some (.torn []) := by
  have bound := List.length_pos_iff.mpr filled
  refine ⟨_, mem_outputMetasFrom.mpr ⟨0, bound, rfl⟩, ?_⟩
  exact (outputs.written 0 bound).trans (by rw [Faults.leaves_fullDisk])

theorem zip_tables (io : Faults) (dataDir : Path) (number : Nat) :
    ((outputMetasFrom io dataDir level number outs).zip outs).map Prod.snd = outs :=
  List.map_snd_zip (by rw [outputMetasFrom_length])

theorem zip_ranges {dataDir : Path} {number : Nat} {pair : SSTableMeta × SSTable}
    (member : pair ∈ (outputMetasFrom io dataDir level number outs).zip outs) :
    pair.1.smallestKey = pair.2.smallestKey ∧ pair.1.largestKey = pair.2.largestKey := by
  obtain ⟨j, bound, rfl⟩ := List.mem_iff_getElem.mp member
  simp [outputMetasFrom, outputMetaOf]

theorem entriesOf_eq (contents : List (SSTableMeta × SSTable)) :
    entriesOf contents = (contents.map Prod.snd).flatMap SSTable.entries := by
  rw [entriesOf, List.flatMap_map]

section Holders
variable {contents : List (SSTableMeta × SSTable)} {key : Bytes}

theorem lookup_isSome_iff {table : SSTable} : (table.lookup key).isSome ↔ ∃ e ∈ table.entries, e.key = key := by
  constructor
  · intro held
    obtain ⟨e, found⟩ := Option.isSome_iff_exists.mp held
    obtain ⟨member, same⟩ := find_some _ found
    exact ⟨e, member, same⟩
  · rintro ⟨e, member, rfl⟩
    rw [SSTable.lookup, find_mem _ table.ascending member]
    rfl

theorem holders_eq_zero : holders contents key = 0 ↔ ∀ e ∈ entriesOf contents, e.key ≠ key := by
  rw [holders, List.countP_eq_zero]
  simp only [lookup_isSome_iff, entriesOf, List.mem_flatMap]
  constructor
  · rintro absent e ⟨pair, member, inside⟩ same
    exact absent pair member ⟨e, inside, same⟩
  · rintro absent pair member ⟨e, inside, same⟩
    exact absent e ⟨pair, member, inside⟩ same

theorem holders_eq_one (ascending : Ascending BlockEntry.key (entriesOf contents)) {e : BlockEntry}
    (member : e ∈ entriesOf contents) : holders contents e.key = 1 := by
  obtain ⟨pair, inContents, inside⟩ := List.mem_flatMap.mp member
  obtain ⟨before, after, rfl⟩ := List.append_of_mem inContents
  have split : entriesOf (before ++ pair :: after) = entriesOf before ++ (pair.2.entries ++ entriesOf after) := by
    simp [entriesOf]
  rw [split] at ascending
  obtain ⟨-, behind, apart⟩ := List.pairwise_append.mp ascending
  have earlier : holders before e.key = 0 := holders_eq_zero.mpr fun other early =>
    (apart other early e (List.mem_append_left _ inside)).ne
  have later : holders after e.key = 0 := holders_eq_zero.mpr fun other late =>
    ((List.pairwise_append.mp behind).2.2 e inside other late).ne'
  have here : (pair.2.lookup e.key).isSome = true := lookup_isSome_iff.mpr ⟨e, inside, rfl⟩
  rw [holders] at earlier later
  rw [holders, List.countP_append, List.countP_cons, earlier, later, here]
  rfl

theorem latestInput_exists (held : ∃ input ∈ contents, (input.2.lookup key).isSome) :
    ∃ entry, LatestInput contents key entry := by
  classical
  obtain ⟨first, inContents, holds⟩ := held
  have nonempty : (contents.filter fun input => (input.2.lookup key).isSome).toFinset.Nonempty :=
    ⟨first, by simp [inContents, holds]⟩
  obtain ⟨input, member, highest⟩ := Finset.exists_max_image _ (fun input => input.1.sequenceNumber) nonempty
  simp only [List.mem_toFinset, List.mem_filter] at member highest
  obtain ⟨entry, found⟩ := Option.isSome_iff_exists.mp member.2
  exact ⟨entry, input, member.1, found, fun other inside holds => highest other ⟨inside, holds⟩⟩

end Holders

variable {inputs metas : List SSTableMeta} {targetLevel : Int} {stats stats' : CompactionStats}

theorem mergeFiles_onDisk (lossless : io.Lossless) (distinct : (inputs.map SSTableMeta.sequenceNumber).Nodup)
    (merged : mergeFiles pf io inputs targetLevel stats store = .ok (metas, stats') store') :
    ∃ read wrote, OnDisk store.tables inputs read ∧ OnDisk store'.tables metas wrote ∧
      MergedOutputs read (targetLevel = store.manager.maxLevel - 1) (wrote.map Prod.snd) ∧
      ∀ output ∈ wrote, output.1.smallestKey = output.2.smallestKey ∧ output.1.largestKey = output.2.largestKey := by
  obtain ⟨read, outs, files, present, outputs, rfl, spec⟩ := mergeFiles_ok distinct merged
  refine ⟨read, _, ⟨files, present⟩, outputs.onDisk lossless, ?_, fun output member => zip_ranges member⟩
  rwa [zip_tables]

theorem MergedOutputs.entry {read wrote : List (SSTableMeta × SSTable)} {bottom : Bool}
    (merged : MergedOutputs read bottom (wrote.map Prod.snd)) {e : BlockEntry} (member : e ∈ entriesOf wrote) :
    kept bottom e = true ∧ LatestInput read e.key e := by
  rw [entriesOf_eq] at member
  exact ((merged.latest e.key e).mp (find_mem _ merged.ascending member)).2

theorem MergedOutputs.empty_key_dropped {read wrote : List (SSTableMeta × SSTable)} {bottom : Bool}
    (merged : MergedOutputs read bottom (wrote.map Prod.snd)) : holders wrote [] = 0 := by
  apply holders_eq_zero.mpr
  intro e member
  rw [entriesOf_eq] at member
  exact ((merged.latest e.key e).mp (find_mem _ merged.ascending member)).1

theorem flushTables_present {dataDir : Path} {tables : List SSTable} {file : SSTableMeta}
    (member : file ∈ (flushTables dataDir 7 tables).manager.files) :
    ∃ table, (flushTables dataDir 7 tables).tables file.filepath = some (.complete table) := by
  obtain ⟨table, recorded⟩ :=
    (flushTables_reachable dataDir .reference (by decide : (1 : Int) ≤ 7) tables).levelled.recorded file member
  exact ⟨table, recorded.1⟩

variable (pf) in
theorem flushTables_merges (silent : io.Silent) (dataDir : Path) (tables : List SSTable) (targetLevel : Int) (stats : CompactionStats) :
    Action.Succeeds (mergeFiles pf io (flushTables dataDir 7 tables).manager.files targetLevel stats)
      (flushTables dataDir 7 tables) := by
  apply mergeFiles_succeeds silent
  exact fun file member => flushTables_present member

theorem flushTables_onDisk (dataDir : Path) (tables : List SSTable) :
    OnDisk (flushTables dataDir 7 tables).tables (flushTables dataDir 7 tables).manager.files
      ((tables.zipIdx 1).map fun flushed => (flushMeta dataDir flushed.1 flushed.2, flushed.1)) := by
  constructor
  · rw [flushTables_manager, List.map_map]
    rfl
  · intro pair member
    obtain ⟨flushed, inZip, rfl⟩ := List.mem_map.mp member
    exact flushTables_table flushed.1 flushed.2 inZip

theorem flushTables_distinct (dataDir : Path) (tables : List SSTable) :
    ((flushTables dataDir 7 tables).manager.files.map SSTableMeta.sequenceNumber).Nodup := by
  have numbers : (flushTables dataDir 7 tables).manager.files.map SSTableMeta.sequenceNumber =
      List.range' 1 tables.length := by
    rw [flushTables_manager, List.map_map]
    exact List.zipIdx_map_snd 1 tables
  rw [numbers]
  exact List.nodup_range'

def twoVersions : Store := flushTables [] 7 [oneEntry [97] [1], oneEntry [97] [2]]

theorem OnDisk.not_torn {tables : Tables} {files : List SSTableMeta} {contents : List (SSTableMeta × SSTable)}
    (onDisk : OnDisk tables files contents) {file : SSTableMeta} (member : file ∈ files) (bytes : Bytes) :
    tables file.filepath ≠ some (.torn bytes) := by
  rw [← onDisk.files] at member
  obtain ⟨pair, inContents, rfl⟩ := List.mem_map.mp member
  rw [onDisk.complete pair inContents]
  simp

theorem twoVersions_lost : ∃ metas stats store', mergeFiles .reference .fullDisk twoVersions.manager.files 1
      ⟨0, 1, 2, 0, 0, 0, 0, 0, 0⟩ twoVersions = .ok (metas, stats) store' ∧
    ∃ file ∈ metas, store'.tables file.filepath = some (.torn []) := by
  obtain ⟨⟨metas, stats⟩, store', merged⟩ := flushTables_merges .reference Faults.silent_fullDisk []
    [oneEntry [97] [1], oneEntry [97] [2]] 1 ⟨0, 1, 2, 0, 0, 0, 0, 0, 0⟩
  obtain ⟨read, outs, files, present, outputs, rfl, spec⟩ := mergeFiles_ok (flushTables_distinct _ _) merged
  obtain rfl : read = [(flushMeta [] (oneEntry [97] [1]) 1, oneEntry [97] [1]),
      (flushMeta [] (oneEntry [97] [2]) 2, oneEntry [97] [2])] :=
    OnDisk.unique ⟨files, present⟩ (flushTables_onDisk _ _)
  have latest : LatestInput [(flushMeta [] (oneEntry [97] [1]) 1, oneEntry [97] [1]),
      (flushMeta [] (oneEntry [97] [2]) 2, oneEntry [97] [2])] [97] ⟨[97], [2], false⟩ :=
    ⟨(flushMeta [] (oneEntry [97] [2]) 2, oneEntry [97] [2]), by simp, by decide, by simp [flushMeta]⟩
  obtain ⟨inside, -⟩ := find_some _ ((spec.latest [97] ⟨[97], [2], false⟩).mpr ⟨by simp, by simp [kept], latest⟩)
  obtain ⟨first, isOutput, -⟩ := List.mem_flatMap.mp inside
  exact ⟨_, stats, store', merged, outputs.lost (List.ne_nil_of_mem isOutput)⟩

theorem MergedOutputs.keeps_key {read wrote : List (SSTableMeta × SSTable)}
    (merged : MergedOutputs read (targetLevel = store.manager.maxLevel - 1) (wrote.map Prod.snd)) {key : Bytes}
    (held : ∃ input ∈ read, (input.2.lookup key).isSome) (nonempty : key ≠ []) :
    KeepsKey store.manager targetLevel read wrote key := by
  intro stays
  obtain ⟨entry, latest⟩ := latestInput_exists held
  have kept : kept (decide (targetLevel = store.manager.maxLevel - 1)) entry = true := by
    by_contra dropped
    simp only [kept, Bool.not_eq_true', Bool.and_eq_false_iff, not_or, Bool.not_eq_false, decide_eq_true_eq] at dropped
    exact stays ⟨dropped.2, entry, latest, dropped.1⟩
  obtain ⟨member, rfl⟩ := find_some _ ((merged.latest key entry).mpr ⟨nonempty, kept, latest⟩)
  rw [← entriesOf_eq] at member
  exact holders_eq_one (entriesOf_eq wrote ▸ merged.ascending) member

/-- The empty key is what `last_emitted_key` starts with, so the merge takes its first entry for a duplicate. -/
theorem mergeFiles_keeps_key_iff (lossless : io.Lossless) (distinct : (inputs.map SSTableMeta.sequenceNumber).Nodup)
    (merged : mergeFiles pf io inputs targetLevel stats store = .ok (metas, stats') store') :
    ∃ read wrote, OnDisk store.tables inputs read ∧ OnDisk store'.tables metas wrote ∧
      ∀ key, (∃ input ∈ read, (input.2.lookup key).isSome) →
        (KeepsKey store.manager targetLevel read wrote key ↔
          (key ≠ [] ∨ DropsTombstone store.manager targetLevel read key)) := by
  obtain ⟨read, wrote, reads, writes, spec, -⟩ := mergeFiles_onDisk lossless distinct merged
  refine ⟨read, wrote, reads, writes, fun key held => ⟨fun keeps => ?_, ?_⟩⟩
  · by_contra neither
    obtain ⟨empty, stays⟩ := not_or.mp neither
    have once := keeps stays
    rw [not_not.mp empty, spec.empty_key_dropped] at once
    cases once
  · rintro (nonempty | drops)
    · exact spec.keeps_key held nonempty
    · exact fun stays => absurd drops stays

theorem mergeFiles_keeps_key_versions :
    ∃ metas stats store', mergeFiles .reference .none twoVersions.manager.files 1 ⟨0, 1, 2, 0, 0, 0, 0, 0, 0⟩ twoVersions =
        .ok (metas, stats) store' ∧
      ∃ read wrote, OnDisk twoVersions.tables twoVersions.manager.files read ∧ OnDisk store'.tables metas wrote ∧
        ∀ key, (∃ input ∈ read, (input.2.lookup key).isSome) →
          (KeepsKey twoVersions.manager 1 read wrote key ↔
            (key ≠ [] ∨ DropsTombstone twoVersions.manager 1 read key)) := by
  obtain ⟨⟨metas, stats⟩, store', merged⟩ := flushTables_merges .reference Faults.silent_none []
    [oneEntry [97] [1], oneEntry [97] [2]] 1 ⟨0, 1, 2, 0, 0, 0, 0, 0, 0⟩
  exact ⟨metas, stats, store', merged, mergeFiles_keeps_key_iff Faults.lossless_none (flushTables_distinct _ _) merged⟩

theorem merge_loses_empty_key :
    ¬ ∀ (pf : Platform) (io : Faults) (inputs metas : List SSTableMeta) (targetLevel : Int)
        (stats stats' : CompactionStats) (store store' : Store),
      (inputs.map SSTableMeta.sequenceNumber).Nodup →
      mergeFiles pf io inputs targetLevel stats store = .ok (metas, stats') store' →
      ∃ read wrote, OnDisk store.tables inputs read ∧ OnDisk store'.tables metas wrote ∧
        ∀ key, (∃ input ∈ read, (input.2.lookup key).isSome) →
          KeepsKey store.manager targetLevel read wrote key := by
  intro keeps
  obtain ⟨⟨metas, stats⟩, store', merged⟩ :=
    flushTables_merges .reference Faults.silent_none [] [oneEntry [] [1]] 1 ⟨0, 1, 1, 0, 0, 0, 0, 0, 0⟩
  have distinct := flushTables_distinct [] [oneEntry [] [1]]
  obtain ⟨read, wrote, reads, writes, keeps⟩ := keeps _ _ _ _ _ _ _ _ _ distinct merged
  obtain ⟨read', wrote', -, writes', spec, -⟩ := mergeFiles_onDisk Faults.lossless_none distinct merged
  have input : (flushMeta [] (oneEntry [] [1]) 1, oneEntry [] [1]) ∈ read := by
    rw [reads.unique (flushTables_onDisk _ _)]
    exact List.mem_singleton_self _
  have once := keeps [] ⟨_, input, by decide⟩ fun drops => absurd drops.1 (by rw [flushTables_manager]; decide)
  rw [writes.unique writes', spec.empty_key_dropped] at once
  cases once

end CompactionManager

end VectorDb.Storage
