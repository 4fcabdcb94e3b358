import VectorDb.Compaction.MergeResults
import VectorDb.SSTable.SizeLimits

namespace VectorDb.Storage
open Lib Common

structure SSTable.Modest (table : SSTable) : Prop where
  entry : ∀ e ∈ table.entries, e.encodedSize ≤ 2 ^ 29
  all : dataSize table.entries ≤ 2 ^ 30

def ModestFiles (store : Store) : Prop :=
  ∀ file ∈ store.manager.files, ∀ table, store.tables file.filepath = some (.complete table) → table.Modest

theorem SSTable.roundTrips_of_dataSize {table : SSTable} (small : dataSize table.entries ≤ 2 ^ 30) :
    RoundTrips table.entries table.entries.length :=
  (roundTrips_iff_intact table.nonempty table.ascending (withinLimits_of_dataSize small)).mpr
    (filterIntact_of_dataSize small)

theorem ModestFiles.congr {store store' : Store} (modest : ModestFiles store)
    (files : store'.manager.files = store.manager.files)
    (tables : ∀ file ∈ store.manager.files, store'.tables file.filepath = store.tables file.filepath) :
    ModestFiles store' := by
  intro file member table is
  rw [files] at member
  exact modest file member table ((tables file member).symm.trans is)

theorem ModestFiles.register {store : Store} (modest : ModestFiles store) (file : SSTableMeta) {table : SSTable}
    (new : table.Modest) : ModestFiles (CompactionManager.withFiles { store with
      tables := Function.update store.tables file.filepath (some (.complete table)) } [file]) := by
  intro other member found is
  dsimp only [CompactionManager.withFiles] at is member
  by_cases same : other.filepath = file.filepath
  · rw [same, Function.update_self] at is
    cases is
    exact new
  · rw [Function.update_of_ne same] at is
    rcases List.mem_append.mp member with old | new
    · exact modest other old found is
    · exact absurd (congrArg SSTableMeta.filepath (List.mem_singleton.mp new)) same

namespace CompactionManager

variable {pf : Platform} {io : Faults} {start store store' : Store} {level : Int} {bottom : Bool} {outs : List SSTable}
  {locals locals' : MergeLocals}

def pushEntry (chunks : Chunks BlockEntry) (entry : BlockEntry) : Chunks BlockEntry :=
  chunks.push BlockEntry.encodedSize kMaxOutputBytes entry

structure Chunked (chunks : Chunks BlockEntry) (outs : List SSTable) (locals : MergeLocals) : Prop where
  closed : outs.map SSTable.entries = chunks.closed
  current : locals.outputEntries = chunks.current
  estimate : locals.outBytesEstimate = dataSize chunks.current

variable {chunks : Chunks BlockEntry}

theorem consume_chunks {entry : BlockEntry} (progressed : Progressed io start level bottom outs locals store)
    (chunked : Chunked chunks outs locals)
    (ascending : Ascending BlockEntry.key (chunks.current ++ passed bottom locals.lastEmittedKey entry))
    (cleared : Cleared (chunks.current ++ passed bottom locals.lastEmittedKey entry))
    (consumed : consume pf io locals entry store = .ok locals' store') :
    ∃ outs', Progressed io start level bottom outs' locals' store' ∧ locals'.lastEmittedKey = entry.key ∧
      Chunked ((passed bottom locals.lastEmittedKey entry).foldl pushEntry chunks) outs' locals' := by
  obtain ⟨closed, current, estimate⟩ := chunked
  unfold consume at consumed
  unfold passed at ascending cleared ⊢
  split at consumed
  next same =>
    cases consumed
    rw [if_pos same]
    exact ⟨outs, { progressed with }, same.symm, closed, current, estimate⟩
  next fresh =>
    simp only [fresh, if_false] at ascending cleared ⊢
    dsimp only at consumed
    split at consumed
    next dropped =>
      cases consumed
      rw [progressed.isBottomLevel] at dropped
      have drops : kept bottom entry = false := by simp [kept, dropped]
      rw [drops]
      exact ⟨outs, { progressed with }, rfl, closed, current, estimate⟩
    next stays =>
      have keeps : kept bottom entry = true := by
        rw [progressed.isBottomLevel, Bool.not_eq_true] at stays
        simp [kept, stays]
      have before : Progressed io start level bottom outs { locals with
          lastEmittedKey := entry.key
          outBytesEstimate := locals.outBytesEstimate + entry.encodedSize
          outputEntries := locals.outputEntries ++ [entry] } store := { progressed with }
      have size : locals.outBytesEstimate + entry.encodedSize = dataSize (chunks.current ++ [entry]) := by
        simp [estimate]
      simp only [keeps, if_true, List.foldl_cons, List.foldl_nil] at ascending cleared ⊢
      rw [pushEntry, Chunks.push]
      rw [size] at consumed before
      rw [current] at consumed before
      split at consumed
      next full =>
        rw [if_pos full]
        rcases flushOutput_appends before ascending cleared consumed with
          ⟨empty, -, -⟩ | ⟨-, table, entries, progressed', emptied, reset, last⟩
        · simp at empty
        · exact ⟨_, progressed', last, by simp [closed, entries], emptied, reset⟩
      next room =>
        rw [if_neg room]
        cases consumed
        exact ⟨outs, before, rfl, closed, rfl, rfl⟩

theorem drain_chunks (fuel : Nat) (heap : List (Run BlockEntry)) (chunks : Chunks BlockEntry) {all : List BlockEntry}
    (progressed : Progressed io start level bottom outs locals store) (chunked : Chunked chunks outs locals)
    (allEq : all = chunks.contents ++
      (mergeRuns BlockEntry.key pf.toStdAlgorithms fuel locals.lastEmittedKey heap).filter (kept bottom))
    (ascending : Ascending BlockEntry.key all) (cleared : Cleared all)
    (drained : drain pf io fuel heap locals store = .ok locals' store') :
    ∃ outs', Progressed io start level bottom outs' locals' store' ∧
      Chunked (((mergeRuns BlockEntry.key pf.toStdAlgorithms fuel locals.lastEmittedKey heap).filter
        (kept bottom)).foldl pushEntry chunks) outs' locals' := by
  induction fuel generalizing heap locals store outs chunks with
  | zero =>
    cases drained
    exact ⟨outs, progressed, chunked⟩
  | succ fuel ih =>
    rw [drain] at drained
    cases pop : pf.popHeap (Run.comesAfter BlockEntry.key) heap with
    | none =>
      rw [pop] at drained
      cases drained
      rw [mergeRuns, pop]
      exact ⟨outs, progressed, chunked⟩
    | some pair =>
      obtain ⟨top, rest⟩ := pair
      rw [mergeRuns_passed bottom pop] at allEq ⊢
      rw [pop] at drained
      obtain ⟨next, between, consumed, drained⟩ := Action.bind_ok.mp drained
      have part : (chunks.current ++ passed bottom locals.lastEmittedKey top.head).Sublist all := by
        rw [allEq, Chunks.contents, List.append_assoc, ← List.append_assoc chunks.current]
        exact (List.sublist_append_left _ _).trans (List.sublist_append_right _ _)
      obtain ⟨outs', progressed', last, chunked'⟩ := consume_chunks progressed chunked (ascending.sublist part)
        (fun e member => cleared e (part.subset member)) consumed
      rw [List.foldl_append, ← last]
      refine ih (top.refill rest) _ progressed' chunked' ?_ drained
      rw [allEq, last, ← List.append_assoc]
      congr 1
      exact (Chunks.contents_pushAll _ _ _ _).symm

theorem chunks_contents (entries : List BlockEntry) : (entries.foldl pushEntry .start).contents = entries :=
  (Chunks.contents_pushAll BlockEntry.encodedSize kMaxOutputBytes .start entries).trans (List.nil_append _)

theorem chunks_greedy (entries : List BlockEntry) :
    Chunks.Greedy BlockEntry.encodedSize kMaxOutputBytes (entries.foldl pushEntry .start) :=
  (Chunks.greedy_start (by decide)).pushAll entries

theorem mergeFiles_chunks {inputs metas : List SSTableMeta} {targetLevel : Int} {stats stats' : CompactionStats}
    (merged : mergeFiles pf io inputs targetLevel stats store = .ok (metas, stats') store') :
    ∃ fileData outs, OnDisk store.tables inputs fileData ∧ Outputs io store targetLevel outs store' ∧
      metas = outputMetasFrom io store.manager.dataDir targetLevel store.manager.nextFileNumber outs ∧
      outs.map SSTable.entries = (((mergedEntries pf fileData).filter
        (kept (targetLevel = store.manager.maxLevel - 1))).foldl pushEntry .start).parts := by
  obtain ⟨fileData, read, started, drained, between, flushed, reads, outputs, draining, flushing, rfl, rfl⟩ :=
    mergeFiles_parts merged
  obtain ⟨-, files, present⟩ := readInputs_ok reads
  set all := (mergedEntries pf fileData).filter (kept (decide (targetLevel = store.manager.maxLevel - 1))) with def_all
  have ascending : Ascending BlockEntry.key all := (mergedEntries_ascending pf fileData).filter _
  have cleared : Cleared all := fun e member => mergedEntries_cleared pf fileData e (List.mem_filter.mp member).1
  obtain ⟨outs, progressed, chunked⟩ : ∃ outs, Progressed io store targetLevel _ outs drained between ∧
      Chunked (all.foldl pushEntry .start) outs drained :=
    drain_chunks _ _ .start ⟨outputs, rfl, rfl, rfl, rfl⟩ ⟨rfl, rfl, rfl⟩ (by rfl) ascending cleared draining
  have part : drained.outputEntries.Sublist all := by
    conv_rhs => rw [← chunks_contents all, Chunks.contents]
    rw [chunked.current]
    exact List.sublist_append_right _ _
  have parts : (all.foldl pushEntry .start).parts = if drained.outputEntries = [] then outs.map SSTable.entries
      else outs.map SSTable.entries ++ [drained.outputEntries] := by
    rw [Chunks.parts, ← chunked.closed, ← chunked.current]
  rcases flushOutput_appends progressed (ascending.sublist part) (fun e member => cleared e (part.subset member))
    flushing with ⟨empty, rfl, rfl⟩ | ⟨filled, table, entries, progressed', -⟩
  · refine ⟨fileData, outs, ⟨files, present⟩, progressed.toOutputs, progressed.metas, ?_⟩
    rw [parts, if_pos empty]
  · refine ⟨fileData, outs ++ [table], ⟨files, present⟩, progressed'.toOutputs, progressed'.metas, ?_⟩
    rw [parts, if_neg filled, List.map_append, List.map_singleton, entries]

/-- Every output but the last has its 64 MiB of entries, and none has them before its last entry. -/
theorem merge_splits (lossless : io.Lossless) {inputs metas : List SSTableMeta} {targetLevel : Int}
    {stats stats' : CompactionStats}
    (merged : mergeFiles pf io inputs targetLevel stats store = .ok (metas, stats') store') :
    ∃ wrote, OnDisk store'.tables metas wrote ∧
      (∀ output ∈ wrote.dropLast, kMaxOutputBytes ≤ dataSize output.2.entries) ∧
      ∀ output ∈ wrote, dataSize output.2.entries.dropLast < kMaxOutputBytes := by
  obtain ⟨fileData, outs, -, outputs, rfl, parts⟩ := mergeFiles_chunks merged
  have greedy := chunks_greedy
    ((mergedEntries pf fileData).filter (kept (decide (targetLevel = store.manager.maxLevel - 1))))
  have onDisk := outputs.onDisk lossless
  have tables : ((outputMetasFrom io store.manager.dataDir targetLevel store.manager.nextFileNumber outs).zip outs).map
      Prod.snd = outs := zip_tables _ _ _
  generalize (outputMetasFrom io store.manager.dataDir targetLevel store.manager.nextFileNumber outs).zip outs = wrote
    at onDisk tables
  rw [← tables, List.map_map] at parts
  refine ⟨wrote, onDisk, fun output member => greedy.parts_full _ ?_, fun output member => greedy.parts_below _ ?_⟩
  · rw [← parts, ← List.map_dropLast]
    exact List.mem_map_of_mem member
  · rw [← parts]
    exact List.mem_map_of_mem member

def largeThenSmall (value : Bytes) : Store := flushTables [] 7 [oneEntry [97] value, oneEntry [98] [1]]

theorem largeThenSmall_entries (value : Bytes) {metas : List SSTableMeta} {stats stats' : CompactionStats}
    (merged : mergeFiles .reference .none (largeThenSmall value).manager.files 1 stats (largeThenSmall value) =
      .ok (metas, stats') store') {wrote : List (SSTableMeta × SSTable)} (writes : OnDisk store'.tables metas wrote) :
    entriesOf wrote = [⟨[97], value, false⟩, ⟨[98], [1], false⟩] := by
  obtain ⟨read, outs, files, present, outputs, rfl, entries⟩ := mergeFiles_outputs merged
  obtain rfl : read = [(flushMeta [] (oneEntry [97] value) 1, oneEntry [97] value),
      (flushMeta [] (oneEntry [98] [1]) 2, oneEntry [98] [1])] :=
    OnDisk.unique ⟨files, present⟩ (flushTables_onDisk _ _)
  rw [writes.unique (outputs.onDisk Faults.lossless_none), entriesOf_eq, zip_tables, entries]
  rfl

theorem merge_splits_large_value : ∃ value metas stats store', value.length = kMaxOutputBytes ∧
    mergeFiles .reference .none (largeThenSmall value).manager.files 1 ⟨0, 1, 2, 0, 0, 0, 0, 0, 0⟩
      (largeThenSmall value) = .ok (metas, stats) store' ∧
    ∃ wrote, OnDisk store'.tables metas wrote ∧ wrote.dropLast ≠ [] ∧
      (∀ output ∈ wrote.dropLast, kMaxOutputBytes ≤ dataSize output.2.entries) ∧
      ∀ output ∈ wrote, dataSize output.2.entries.dropLast < kMaxOutputBytes := by
  obtain ⟨value, length⟩ : ∃ value : Bytes, value.length = kMaxOutputBytes :=
    ⟨List.replicate _ 0, List.length_replicate⟩
  obtain ⟨⟨metas, stats⟩, store', merged⟩ := flushTables_merges .reference Faults.silent_none []
    [oneEntry [97] value, oneEntry [98] [1]] 1 ⟨0, 1, 2, 0, 0, 0, 0, 0, 0⟩
  obtain ⟨wrote, onDisk, full, below⟩ := merge_splits Faults.lossless_none merged
  refine ⟨value, metas, stats, store', length, merged, wrote, onDisk, fun single => ?_, full, below⟩
  have entries := largeThenSmall_entries value merged onDisk
  -- One output of both entries would have the 64 MiB before its last entry.
  rcases wrote with _ | ⟨output, _ | ⟨second, rest⟩⟩
  · simp [entriesOf] at entries
  · have early := below output (by simp)
    rw [entriesOf, List.flatMap_cons, List.flatMap_nil, List.append_nil] at entries
    rw [entries] at early
    simp only [List.dropLast_cons_cons, List.dropLast_singleton, load, List.map_cons, List.map_nil, List.sum_cons,
      List.sum_nil, BlockEntry.encodedSize, length] at early
    omega
  · simp at single

theorem mem_mergedEntries {fileData : List (SSTableMeta × SSTable)} {e : BlockEntry}
    (member : e ∈ mergedEntries pf fileData) : ∃ input ∈ fileData, e ∈ input.2.entries := by
  obtain ⟨run, inHeap, inRun⟩ := mem_mergeRuns member
  obtain ⟨⟨file, table⟩, inData, rfl⟩ := List.mem_map.mp inHeap
  rw [Run.records, List.cons_head_tail] at inRun
  exact ⟨_, inData, inRun⟩

theorem mergeFiles_modest {inputs metas : List SSTableMeta} {targetLevel : Int} {stats stats' : CompactionStats}
    (modest : ∀ input ∈ inputs, ∀ table, store.tables input.filepath = some (.complete table) → table.Modest)
    (merged : mergeFiles pf io inputs targetLevel stats store = .ok (metas, stats') store') :
    ∃ outs, Outputs io store targetLevel outs store' ∧
      metas = outputMetasFrom io store.manager.dataDir targetLevel store.manager.nextFileNumber outs ∧
      ∀ table ∈ outs, table.Modest := by
  obtain ⟨fileData, outs, reads, outputs, rfl, parts⟩ := mergeFiles_chunks merged
  set all := (mergedEntries pf fileData).filter (kept (decide (targetLevel = store.manager.maxLevel - 1))) with def_all
  have entry : ∀ e ∈ all, e.encodedSize ≤ 2 ^ 29 := by
    intro e member
    obtain ⟨input, inData, inTable⟩ := mem_mergedEntries (List.mem_filter.mp member).1
    exact (modest _ (reads.files ▸ List.mem_map_of_mem inData) _ (reads.complete input inData)).entry e inTable
  refine ⟨outs, outputs, rfl, fun table member => ?_⟩
  have part : table.entries ∈ (all.foldl pushEntry .start).parts := parts ▸ List.mem_map_of_mem member
  have entries : ∀ e ∈ table.entries, e.encodedSize ≤ 2 ^ 29 := by
    intro e inTable
    apply entry
    rw [← chunks_contents all, ← Chunks.parts_flatten]
    exact List.mem_flatten.mpr ⟨_, part, inTable⟩
  have below : dataSize table.entries.dropLast < kMaxOutputBytes := (chunks_greedy all).parts_below _ part
  have last : dataSize table.entries ≤ dataSize table.entries.dropLast + 2 ^ 29 := load_le_dropLast entries
  rw [kMaxOutputBytes] at below
  exact ⟨entries, by omega⟩

theorem runCompaction_modest {stats : CompactionStats} (modest : ModestFiles store)
    (ran : runCompaction pf io store = .ok stats store') : ModestFiles store' := by
  obtain ⟨newFiles, inputs, merged, merges, levels, rfl⟩ := runCompaction_merged ran
  obtain ⟨level, sources, targets, -, -, -, -, merging, isInputs⟩ := mergeSelected_merges merges
  have listed : ∀ path ∈ inputs, path ∈ store.manager.files.map SSTableMeta.filepath := by
    obtain ⟨_, _, _, _, _, run, rfl, rfl⟩ := mergeSelected_ok merges
    exact fun path => (run.compaction levels).input_listed
  obtain ⟨outs, outputs, rfl, small⟩ := mergeFiles_modest (fun input member table is => by
    obtain ⟨file, inFiles, same⟩ := List.mem_map.mp (listed _ (isInputs ▸ List.mem_map_of_mem member))
    exact modest file inFiles table (same ▸ is)) merging
  intro file member table is
  rw [dropFiles_tables] at is
  split_ifs at is
  by_cases output : ∃ j < outs.length,
      file.filepath = outputPath store.manager.dataDir (level + 1) (store.manager.nextFileNumber + j)
  · obtain ⟨j, bound, same⟩ := output
    rw [withFiles, same, outputs.written j bound, Option.some.injEq] at is
    rw [Faults.leaves_complete is]
    exact small _ (List.getElem_mem bound)
  · rw [dropFiles_manager, withFiles] at member
    rw [withFiles, outputs.others _ fun j bound same => output ⟨j, bound, same⟩] at is
    rcases List.mem_append.mp (List.mem_filter.mp member).1 with old | new
    · rw [outputs.manager] at old
      exact modest file old table is
    · obtain ⟨j, bound, rfl⟩ := mem_outputMetasFrom.mp new
      exact absurd ⟨j, bound, rfl⟩ output

end CompactionManager

end VectorDb.Storage
