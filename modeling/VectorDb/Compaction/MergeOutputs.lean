import VectorDb.Compaction.MergeFiles

namespace VectorDb.Storage
open Lib Common

namespace CompactionManager

variable {pf : Platform} {io : Faults}

def Cleared (entries : List BlockEntry) : Prop := ∀ e ∈ entries, e.isTombstone = true → e.value = []

theorem effect_toMutation {entries : List BlockEntry} (cleared : Cleared entries) :
    (entries.map toMutation).map Mutation.effect = entries := by
  rw [List.map_map]
  conv_rhs => rw [← List.map_id entries]
  refine List.map_congr_left fun e member => ?_
  obtain ⟨key, value, isTombstone⟩ := e
  cases isTombstone with
  | false => rfl
  | true =>
    obtain rfl : value = [] := cleared _ member rfl
    rfl

theorem writeVectorToSSTable_ok {path : Path} {entries : List BlockEntry} {store store' : Store}
    (ascending : Ascending BlockEntry.key entries) (cleared : Cleared entries)
    (wrote : writeVectorToSSTable pf io path entries store = .ok () store') :
    ∃ table : SSTable, table.entries = entries ∧
      store' = { store with tables := Function.update store.tables path (some (io.leaves path table)) } := by
  have contents : ((MemTable.new pf).applyAll pf (entries.map toMutation)).entries = entries := by
    rw [MemTable.entries_applyAll_new, effect_toMutation cleared, replay_ascending_self _ ascending]
  by_cases empty : entries = []
  · simp [writeVectorToSSTable, empty, Action.bind_ok] at wrote
  · simp only [writeVectorToSSTable, empty, if_false] at wrote
    obtain ⟨tables, written, rfl⟩ := Action.zoom_ok.mp wrote
    obtain ⟨nonempty, rfl⟩ := writeTable_ok written
    exact ⟨_, contents, rfl⟩

def outputMetaOf (io : Faults) (dataDir : Path) (level : Int) (table : SSTable) (number : Nat) : SSTableMeta :=
  ⟨outputPath dataDir level number, level, table.smallestKey, table.largestKey,
    (io.leaves (outputPath dataDir level number) table).size, number + 1⟩

def outputMetasFrom (io : Faults) (dataDir : Path) (level : Int) (number : Nat) (outs : List SSTable) : List SSTableMeta :=
  (outs.zipIdx number).map fun (table, number) => outputMetaOf io dataDir level table number

theorem outputMetasFrom_concat (dataDir : Path) (level : Int) (number : Nat) (outs : List SSTable) (table : SSTable) :
    outputMetasFrom io dataDir level number (outs ++ [table]) =
      outputMetasFrom io dataDir level number outs ++ [outputMetaOf io dataDir level table (number + outs.length)] := by
  simp [outputMetasFrom, List.zipIdx_append]

structure Outputs (io : Faults) (start : Store) (level : Int) (outs : List SSTable) (store : Store) : Prop where
  manager : store.manager =
    { start.manager with nextFileNumber := start.manager.nextFileNumber + outs.length + 1 }
  written : ∀ (j : Nat) (bound : j < outs.length),
    store.tables (outputPath start.manager.dataDir level (start.manager.nextFileNumber + j)) =
      some (io.leaves (outputPath start.manager.dataDir level (start.manager.nextFileNumber + j)) outs[j])
  others : ∀ path, (∀ j < outs.length,
    path ≠ outputPath start.manager.dataDir level (start.manager.nextFileNumber + j)) →
      store.tables path = start.tables path

structure Progressed (io : Faults) (start : Store) (level : Int) (bottom : Bool) (outs : List SSTable)
    (locals : MergeLocals) (store : Store) : Prop extends Outputs io start level outs store where
  targetLevel : locals.targetLevel = level
  isBottomLevel : locals.isBottomLevel = bottom
  metas : locals.outputMetas = outputMetasFrom io start.manager.dataDir level start.manager.nextFileNumber outs
  path : locals.currentOutputPath =
    outputPath start.manager.dataDir level (start.manager.nextFileNumber + outs.length)

theorem Outputs.place {start store : Store} {level : Int} {outs : List SSTable} (outputs : Outputs io start level outs store)
    (table : SSTable) :
    Outputs io start level (outs ++ [table])
      ⟨Function.update store.tables (outputPath start.manager.dataDir level
          (start.manager.nextFileNumber + outs.length)) (some (io.leaves (outputPath start.manager.dataDir level
            (start.manager.nextFileNumber + outs.length)) table)),
        { store.manager with nextFileNumber := store.manager.nextFileNumber + 1 }⟩ := by
  refine ⟨?_, fun j bound => ?_, fun path other => ?_⟩
  · rw [outputs.manager]
    simp [Nat.add_assoc]
  · rw [List.length_append, List.length_singleton] at bound
    by_cases last : j = outs.length
    · subst last
      simp
    · have before : j < outs.length := by omega
      dsimp only
      rw [Function.update_of_ne, outputs.written j before, List.getElem_append_left before]
      intro same
      have := (outputPath_inj same).2
      omega
  · dsimp only
    rw [Function.update_of_ne (other outs.length (by simp))]
    exact outputs.others path fun j before => other j (by simp; omega)

theorem flushOutput_appends {start store store' : Store} {level : Int} {bottom : Bool} {outs : List SSTable}
    {locals locals' : MergeLocals} (progressed : Progressed io start level bottom outs locals store)
    (ascending : Ascending BlockEntry.key locals.outputEntries) (cleared : Cleared locals.outputEntries)
    (flushed : flushOutput pf io locals store = .ok locals' store') :
    (locals.outputEntries = [] ∧ locals' = locals ∧ store' = store) ∨
      locals.outputEntries ≠ [] ∧ ∃ table : SSTable, table.entries = locals.outputEntries ∧
        Progressed io start level bottom (outs ++ [table]) locals' store' ∧ locals'.outputEntries = [] ∧
        locals'.outBytesEstimate = 0 ∧ locals'.lastEmittedKey = locals.lastEmittedKey := by
  unfold flushOutput at flushed
  split at flushed
  next empty =>
    cases flushed
    exact .inl ⟨empty, rfl, rfl⟩
  next filled =>
    obtain ⟨⟨⟩, written, wrote, flushed⟩ := Action.bind_ok.mp flushed
    obtain ⟨table, entries, rfl⟩ := writeVectorToSSTable_ok ascending cleared wrote
    cases flushed
    have place := progressed.toOutputs.place table
    rw [← progressed.path] at place
    refine .inr ⟨filled, table, entries, ⟨place, ?_, ?_, ?_, ?_⟩, rfl, rfl, rfl⟩
    · exact progressed.targetLevel
    · exact progressed.isBottomLevel
    · have number : store.manager.nextFileNumber = start.manager.nextFileNumber + outs.length + 1 := by
        rw [progressed.manager]
      rw [outputMetasFrom_concat, ← progressed.metas]
      simp [outputMeta, outputMetaOf, ← entries, table.head?_key, table.getLast?_key, progressed.path,
        progressed.targetLevel, number]
    · simp [progressed.manager, progressed.targetLevel, Nat.add_assoc]

theorem flushOutput_ok {start store store' : Store} {level : Int} {bottom : Bool} {outs : List SSTable}
    {locals locals' : MergeLocals} (progressed : Progressed io start level bottom outs locals store)
    (ascending : Ascending BlockEntry.key locals.outputEntries) (cleared : Cleared locals.outputEntries)
    (flushed : flushOutput pf io locals store = .ok locals' store') :
    ∃ outs', Progressed io start level bottom outs' locals' store' ∧ locals'.outputEntries = [] ∧
      locals'.lastEmittedKey = locals.lastEmittedKey ∧
      outs'.flatMap SSTable.entries = outs.flatMap SSTable.entries ++ locals.outputEntries := by
  rcases flushOutput_appends progressed ascending cleared flushed with
    ⟨empty, rfl, rfl⟩ | ⟨-, table, entries, progressed', emptied, -, last⟩
  · exact ⟨outs, progressed, empty, rfl, by simp [empty]⟩
  · exact ⟨outs ++ [table], progressed', emptied, last, by simp [entries]⟩

def kept (bottom : Bool) (entry : BlockEntry) : Bool := !(entry.isTombstone && bottom)

def passed (bottom : Bool) (last : Bytes) (entry : BlockEntry) : List BlockEntry :=
  if entry.key = last then [] else if kept bottom entry then [entry] else []

theorem consume_ok {start store store' : Store} {level : Int} {bottom : Bool} {outs : List SSTable}
    {locals locals' : MergeLocals} {entry : BlockEntry} (progressed : Progressed io start level bottom outs locals store)
    (ascending : Ascending BlockEntry.key (locals.outputEntries ++ passed bottom locals.lastEmittedKey entry))
    (cleared : Cleared (locals.outputEntries ++ passed bottom locals.lastEmittedKey entry))
    (consumed : consume pf io locals entry store = .ok locals' store') :
    ∃ outs', Progressed io start level bottom outs' locals' store' ∧ locals'.lastEmittedKey = entry.key ∧
      outs'.flatMap SSTable.entries ++ locals'.outputEntries =
        outs.flatMap SSTable.entries ++ locals.outputEntries ++ passed bottom locals.lastEmittedKey entry := by
  unfold consume at consumed
  unfold passed at ascending cleared ⊢
  split at consumed
  next same =>
    cases consumed
    exact ⟨outs, { progressed with }, same.symm, by simp [same]⟩
  next fresh =>
    simp only [fresh, if_false] at ascending cleared ⊢
    dsimp only at consumed
    split at consumed
    next dropped =>
      cases consumed
      rw [progressed.isBottomLevel] at dropped
      exact ⟨outs, { progressed with }, rfl, by simp [kept, dropped]⟩
    next stays =>
      have keeps : kept bottom entry = true := by
        rw [progressed.isBottomLevel, Bool.not_eq_true] at stays
        simp [kept, stays]
      have before : Progressed io start level bottom outs { locals with
          lastEmittedKey := entry.key
          outBytesEstimate := locals.outBytesEstimate + entry.encodedSize
          outputEntries := locals.outputEntries ++ [entry] } store := { progressed with }
      simp only [keeps, if_true] at ascending cleared ⊢
      split at consumed
      next full =>
        obtain ⟨outs', progressed', emptied, last, entries⟩ :=
          flushOutput_ok before ascending cleared consumed
        exact ⟨outs', progressed', last, by simp [emptied, entries]⟩
      next room =>
        cases consumed
        exact ⟨outs, before, rfl, by simp⟩

theorem mergeRuns_passed {fuel : Nat} {last : Bytes} {heap rest : List (Run BlockEntry)} {top : Run BlockEntry}
    (bottom : Bool) (pop : pf.popHeap (Run.comesAfter BlockEntry.key) heap = some (top, rest)) :
    (mergeRuns BlockEntry.key pf.toStdAlgorithms (fuel + 1) last heap).filter (kept bottom) =
      passed bottom last top.head ++
        (mergeRuns BlockEntry.key pf.toStdAlgorithms fuel top.head.key (top.refill rest)).filter (kept bottom) := by
  rw [mergeRuns, pop, passed]
  dsimp only
  split_ifs with same keeps
  · simp [same]
  · simp [keeps]
  · simp [keeps]

theorem drain_ok {start store store' : Store} {level : Int} {bottom : Bool} {outs : List SSTable} (fuel : Nat)
    (heap : List (Run BlockEntry)) {locals locals' : MergeLocals} {all : List BlockEntry}
    (progressed : Progressed io start level bottom outs locals store)
    (allEq : all = outs.flatMap SSTable.entries ++ locals.outputEntries ++
      (mergeRuns BlockEntry.key pf.toStdAlgorithms fuel locals.lastEmittedKey heap).filter (kept bottom))
    (ascending : Ascending BlockEntry.key all) (cleared : Cleared all)
    (drained : drain pf io fuel heap locals store = .ok locals' store') :
    ∃ outs', Progressed io start level bottom outs' locals' store' ∧
      all = outs'.flatMap SSTable.entries ++ locals'.outputEntries := by
  induction fuel generalizing heap locals store outs with
  | zero =>
    cases drained
    exact ⟨outs, progressed, by simpa [mergeRuns] using allEq⟩
  | succ fuel ih =>
    rw [drain] at drained
    cases pop : pf.popHeap (Run.comesAfter BlockEntry.key) heap with
    | none =>
      rw [mergeRuns, pop] at allEq
      rw [pop] at drained
      cases drained
      exact ⟨outs, progressed, by simpa using allEq⟩
    | some pair =>
      obtain ⟨top, rest⟩ := pair
      rw [mergeRuns_passed bottom pop, ← List.append_assoc] at allEq
      rw [pop] at drained
      obtain ⟨next, between, consumed, drained⟩ := Action.bind_ok.mp drained
      have part : (locals.outputEntries ++ passed bottom locals.lastEmittedKey top.head).Sublist all := by
        rw [allEq, List.append_assoc (outs.flatMap SSTable.entries), List.append_assoc (outs.flatMap SSTable.entries)]
        exact (List.sublist_append_left _ _).trans (List.sublist_append_right _ _)
      obtain ⟨outs', progressed', last, entries⟩ := consume_ok progressed (ascending.sublist part)
        (fun e member => cleared e (part.subset member)) consumed
      exact ih (top.refill rest) progressed' (by rw [allEq, last, entries]) drained

def LatestInput (fileData : List (SSTableMeta × SSTable)) (key : Bytes) (entry : BlockEntry) : Prop :=
  ∃ input ∈ fileData, input.2.lookup key = some entry ∧
    ∀ other ∈ fileData, (other.2.lookup key).isSome → other.1.sequenceNumber ≤ input.1.sequenceNumber

private theorem seed_records (table : SSTable) :
    table.entries.head table.nonempty :: table.entries.tail = table.entries := List.cons_head_tail _

theorem wins_seedHeap (fileData : List (SSTableMeta × SSTable)) (key : Bytes) (entry : BlockEntry) :
    Wins BlockEntry.key (seedHeap fileData) key entry ↔ LatestInput fileData key entry := by
  simp only [Wins, LatestInput, seedHeap, Run.records, List.mem_map, exists_exists_and_eq_and,
    forall_exists_index, and_imp, forall_apply_eq_imp_iff₂, seed_records, SSTable.lookup]

theorem seedHeap_sorted (fileData : List (SSTableMeta × SSTable)) :
    SortedRuns BlockEntry.key [] (seedHeap fileData) := by
  refine ⟨fun run member => ?_, fun run _ => nil_le _⟩
  obtain ⟨⟨file, table⟩, -, rfl⟩ := List.mem_map.mp member
  simpa [Run.records] using table.ascending

theorem seedHeap_mergeable {fileData : List (SSTableMeta × SSTable)}
    (ranks : (fileData.map fun input => input.1.sequenceNumber).Nodup) :
    Mergeable BlockEntry.key [] (seedHeap fileData) :=
  ⟨(seedHeap_sorted fileData).ascending, by simpa [seedHeap, Function.comp_def] using ranks,
    (seedHeap_sorted fileData).above⟩

def mergedEntries (pf : Platform) (fileData : List (SSTableMeta × SSTable)) : List BlockEntry :=
  mergeRuns BlockEntry.key pf.toStdAlgorithms (Run.size (seedHeap fileData)) [] (seedHeap fileData)

theorem mergedEntries_ascending (pf : Platform) (fileData : List (SSTableMeta × SSTable)) :
    Ascending BlockEntry.key (mergedEntries pf fileData) := ((seedHeap_sorted fileData).mergeRuns_ascending _).1

theorem mergedEntries_cleared (pf : Platform) (fileData : List (SSTableMeta × SSTable)) :
    Cleared (mergedEntries pf fileData) := by
  intro e member
  obtain ⟨run, inHeap, inRun⟩ := mem_mergeRuns member
  obtain ⟨⟨file, table⟩, -, rfl⟩ := List.mem_map.mp inHeap
  apply table.cleared e
  rwa [Run.records, List.cons_head_tail] at inRun

structure MergedOutputs (fileData : List (SSTableMeta × SSTable)) (bottom : Bool) (outs : List SSTable) : Prop where
  ascending : Ascending BlockEntry.key (outs.flatMap SSTable.entries)
  latest : ∀ key entry, find BlockEntry.key (outs.flatMap SSTable.entries) key = some entry ↔
    key ≠ [] ∧ kept bottom entry = true ∧ LatestInput fileData key entry

theorem mergedOutputs_of_merged {fileData : List (SSTableMeta × SSTable)} {bottom : Bool} {out : List BlockEntry}
    {outs : List SSTable} (merged : Merged BlockEntry.key [] (seedHeap fileData) out)
    (entries : outs.flatMap SSTable.entries = out.filter (kept bottom)) : MergedOutputs fileData bottom outs := by
  have ascending : Ascending BlockEntry.key (out.filter (kept bottom)) := merged.ascending.filter _
  refine ⟨entries ▸ ascending, fun key entry => ?_⟩
  rw [entries, find_eq_some _ ascending, List.mem_filter, ← wins_seedHeap]
  constructor
  · rintro ⟨⟨member, keeps⟩, rfl⟩
    have above := merged.above entry member
    exact ⟨above.ne', keeps, (merged.wins _ _ above).mp (find_mem _ merged.ascending member)⟩
  · rintro ⟨nonempty, keeps, wins⟩
    have above : [] < key := lt_of_le_of_ne (nil_le _) (Ne.symm nonempty)
    obtain ⟨member, same⟩ := find_some _ ((merged.wins key entry above).mpr wins)
    exact ⟨⟨member, keeps⟩, same⟩

theorem generateOutputPath_outputs (store : Store) (level : Int) : ∃ store',
    generateOutputPath level store =
      .ok (outputPath store.manager.dataDir level store.manager.nextFileNumber) store' ∧
      Outputs io store level [] store' :=
  ⟨_, rfl, rfl, by simp, fun _ _ => rfl⟩

theorem readInputs_ok {inputs : List SSTableMeta} {stats stats' : CompactionStats} {store store' : Store}
    {fileData : List (SSTableMeta × SSTable)}
    (read : readInputs io inputs stats store = .ok (fileData, stats') store') :
    store' = store ∧ fileData.map Prod.fst = inputs ∧
      ∀ input ∈ fileData, store.tables input.1.filepath = some (.complete input.2) := by
  obtain ⟨data, between, reads, result⟩ := Action.bind_ok.mp read
  obtain ⟨opened, rfl⟩ := Action.reads_ok.mp reads
  cases result
  refine ⟨rfl, ?_⟩
  clear reads read
  induction inputs generalizing fileData with
  | nil =>
    cases opened
    simp
  | cons file inputs ih =>
    rw [List.mapM_cons] at opened
    obtain ⟨first, openedFirst, opened⟩ := Action.except_bind_ok.mp opened
    obtain ⟨rest, openedRest, opened⟩ := Action.except_bind_ok.mp opened
    obtain ⟨table, openedTable, paired⟩ := Action.except_bind_ok.mp openedFirst
    cases paired
    cases opened
    obtain ⟨files, present⟩ := ih openedRest
    refine ⟨by simp [files], fun input member => ?_⟩
    rcases List.mem_cons.mp member with rfl | later
    · exact openTable_ok openedTable
    · exact present input later

theorem readInputs_succeeds (silent : io.Silent) {inputs : List SSTableMeta} {store : Store} (stats : CompactionStats)
    (present : ∀ file ∈ inputs, ∃ table, store.tables file.filepath = some (.complete table)) :
    Action.Succeeds (readInputs io inputs stats) store := by
  have opened : ∃ fileData, (inputs.mapM fun file => do
      return (file, ← openTable io store.tables file.filepath)) =
        (.ok fileData : ErrorOr (List (SSTableMeta × SSTable))) := by
    induction inputs with
    | nil => exact ⟨[], rfl⟩
    | cons file inputs ih =>
      obtain ⟨table, found⟩ := present file (by simp)
      obtain ⟨rest, opened⟩ := ih fun other member => present other (by simp [member])
      refine ⟨(file, table) :: rest, ?_⟩
      rw [List.mapM_cons, opened, openTable_silent silent found]
      rfl
  obtain ⟨fileData, opened⟩ := opened
  exact Action.Succeeds.bind ⟨fileData, store, Action.reads_ok.mpr ⟨opened, rfl⟩⟩
    fun _ _ _ => Action.succeeds_pure _ _

theorem mergeFiles_parts {inputs metas : List SSTableMeta} {targetLevel : Int} {stats stats' : CompactionStats}
    {store store' : Store} (merged : mergeFiles pf io inputs targetLevel stats store = .ok (metas, stats') store') :
    ∃ fileData read started drained between flushed,
      readInputs io inputs stats store = .ok (fileData, read) store ∧ Outputs io store targetLevel [] started ∧
      drain pf io (Run.size (seedHeap fileData)) (seedHeap fileData)
        ⟨targetLevel, targetLevel = store.manager.maxLevel - 1, [], [], [], 0,
          outputPath store.manager.dataDir targetLevel store.manager.nextFileNumber, read⟩ started =
            .ok drained between ∧
      flushOutput pf io drained between = .ok flushed store' ∧ metas = flushed.outputMetas ∧
      stats' = flushed.stats := by
  obtain ⟨⟨fileData, read⟩, between, reads, rest⟩ := Action.bind_ok.mp merged
  obtain ⟨rfl, -⟩ := readInputs_ok reads
  obtain ⟨started, generated, outputs⟩ := generateOutputPath_outputs between targetLevel
  dsimp only at rest
  rw [Action.bind_of_ok (Action.get_eq between), Action.bind_of_ok generated] at rest
  obtain ⟨drained, store₁, draining, rest⟩ := Action.bind_ok.mp rest
  obtain ⟨flushed, store₂, flushing, rest⟩ := Action.bind_ok.mp rest
  cases rest
  exact ⟨fileData, read, started, drained, store₁, flushed, reads, outputs, draining, flushing, rfl, rfl⟩

theorem mergeFiles_writes {targetLevel : Int} {read : CompactionStats} {store store' started between : Store}
    {fileData : List (SSTableMeta × SSTable)} {drained flushed : MergeLocals} (outputs : Outputs io store targetLevel [] started)
    (draining : drain pf io (Run.size (seedHeap fileData)) (seedHeap fileData)
      ⟨targetLevel, targetLevel = store.manager.maxLevel - 1, [], [], [], 0,
        outputPath store.manager.dataDir targetLevel store.manager.nextFileNumber, read⟩ started = .ok drained between)
    (flushing : flushOutput pf io drained between = .ok flushed store') :
    ∃ outs, Outputs io store targetLevel outs store' ∧
      flushed.outputMetas = outputMetasFrom io store.manager.dataDir targetLevel store.manager.nextFileNumber outs ∧
      outs.flatMap SSTable.entries =
        (mergedEntries pf fileData).filter (kept (targetLevel = store.manager.maxLevel - 1)) := by
  have ascending := (mergedEntries_ascending pf fileData).filter
    (kept (decide (targetLevel = store.manager.maxLevel - 1)))
  have cleared : Cleared ((mergedEntries pf fileData).filter
      (kept (decide (targetLevel = store.manager.maxLevel - 1)))) :=
    fun e member => mergedEntries_cleared pf fileData e (List.mem_filter.mp member).1
  obtain ⟨outs₁, progressed₁, all⟩ := drain_ok _ _ ⟨outputs, rfl, rfl, rfl, rfl⟩ (by simp [mergedEntries]) ascending
    cleared draining
  have part := List.sublist_append_right (outs₁.flatMap SSTable.entries) drained.outputEntries
  rw [← all] at part
  obtain ⟨outs, progressed, -, -, entries⟩ := flushOutput_ok progressed₁ (ascending.sublist part)
    (fun e member => cleared e (part.subset member)) flushing
  exact ⟨outs, progressed.toOutputs, progressed.metas, by rw [entries, ← all]⟩

theorem mergeFiles_outputs {inputs metas : List SSTableMeta} {targetLevel : Int} {stats stats' : CompactionStats}
    {store store' : Store} (merged : mergeFiles pf io inputs targetLevel stats store = .ok (metas, stats') store') :
    ∃ fileData outs, fileData.map Prod.fst = inputs ∧
      (∀ input ∈ fileData, store.tables input.1.filepath = some (.complete input.2)) ∧
      Outputs io store targetLevel outs store' ∧
      metas = outputMetasFrom io store.manager.dataDir targetLevel store.manager.nextFileNumber outs ∧
      outs.flatMap SSTable.entries =
        (mergedEntries pf fileData).filter (kept (targetLevel = store.manager.maxLevel - 1)) := by
  obtain ⟨fileData, read, started, drained, between, flushed, reads, outputs, draining, flushing, rfl, rfl⟩ :=
    mergeFiles_parts merged
  obtain ⟨-, files, present⟩ := readInputs_ok reads
  obtain ⟨outs, written, metas, entries⟩ := mergeFiles_writes outputs draining flushing
  exact ⟨fileData, outs, files, present, written, metas, entries⟩

theorem mergeFiles_ok {inputs metas : List SSTableMeta} {targetLevel : Int} {stats stats' : CompactionStats}
    {store store' : Store} (ranks : (inputs.map SSTableMeta.sequenceNumber).Nodup)
    (merged : mergeFiles pf io inputs targetLevel stats store = .ok (metas, stats') store') :
    ∃ fileData outs, fileData.map Prod.fst = inputs ∧
      (∀ input ∈ fileData, store.tables input.1.filepath = some (.complete input.2)) ∧
      Outputs io store targetLevel outs store' ∧
      metas = outputMetasFrom io store.manager.dataDir targetLevel store.manager.nextFileNumber outs ∧
      MergedOutputs fileData (targetLevel = store.manager.maxLevel - 1) outs := by
  obtain ⟨fileData, outs, files, present, written, metas, entries⟩ := mergeFiles_outputs merged
  have mergeable : Mergeable BlockEntry.key [] (seedHeap fileData) :=
    seedHeap_mergeable (by rw [← files, List.map_map] at ranks; exact ranks)
  exact ⟨fileData, outs, files, present, written, metas,
    mergedOutputs_of_merged (mergeRuns_merged _ _ _ mergeable le_rfl) entries⟩

theorem flushOutput_succeeds (silent : io.Silent) (locals : MergeLocals) (store : Store) :
    Action.Succeeds (flushOutput pf io locals) store := by
  rw [flushOutput]
  split
  next => exact Action.succeeds_pure _ _
  next filled =>
    refine Action.Succeeds.bind ?_ fun _ store' _ => ⟨_, _, rfl⟩
    have nonempty : ((MemTable.new pf).applyAll pf (locals.outputEntries.map toMutation)).entries ≠ [] := by
      rw [MemTable.entries_applyAll_new, ne_eq, replay_eq_nil]
      simpa using filled
    rw [writeVectorToSSTable, if_neg filled]
    exact Action.Succeeds.zoom ⟨(), _, writeTable_written (silent.created _) (silent.written _) nonempty store.tables⟩

theorem consume_succeeds (silent : io.Silent) (locals : MergeLocals) (entry : BlockEntry) (store : Store) :
    Action.Succeeds (consume pf io locals entry) store := by
  rw [consume]
  split
  next => exact Action.succeeds_pure _ _
  next =>
    dsimp only
    split
    next => exact Action.succeeds_pure _ _
    next =>
      split
      next => exact flushOutput_succeeds silent _ store
      next => exact Action.succeeds_pure _ _

theorem drain_succeeds (silent : io.Silent) (fuel : Nat) (heap : List (Run BlockEntry)) (locals : MergeLocals) (store : Store) :
    Action.Succeeds (drain pf io fuel heap locals) store := by
  induction fuel generalizing heap locals store with
  | zero => exact Action.succeeds_pure _ _
  | succ fuel ih =>
    rw [drain]
    split
    next => exact Action.succeeds_pure _ _
    next top rest _ => exact (consume_succeeds silent locals top.head store).bind fun next between _ => ih _ next between

theorem mergeFiles_succeeds (silent : io.Silent) {inputs : List SSTableMeta} {store : Store} (targetLevel : Int) (stats : CompactionStats)
    (present : ∀ file ∈ inputs, ∃ table, store.tables file.filepath = some (.complete table)) :
    Action.Succeeds (mergeFiles pf io inputs targetLevel stats) store := by
  refine (readInputs_succeeds silent stats present).bind fun (fileData, stats) between _ => ?_
  refine Action.Succeeds.bind ⟨_, _, Action.get_eq between⟩ fun _ _ _ => ?_
  refine Action.Succeeds.bind ⟨_, _, rfl⟩ fun path store₁ _ => ?_
  refine (drain_succeeds silent _ _ _ store₁).bind fun locals store₂ _ => ?_
  exact (flushOutput_succeeds silent locals store₂).bind fun _ _ _ => Action.succeeds_pure _ _

end CompactionManager

end VectorDb.Storage
