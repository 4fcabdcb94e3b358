import VectorDb.Compaction.MergeResults

namespace VectorDb.Storage
open Lib Common

namespace CompactionManager

structure Accounted (stats : CompactionStats) (read wrote : List (SSTableMeta × SSTable)) : Prop where
  entries : stats.keysMerged = (entriesOf read).length
  exits : stats.keysMerged = (entriesOf wrote).length + stats.duplicateKeysDropped + stats.tombstonesDropped
  files : stats.filesWritten = wrote.length
  nonempty : ∀ output ∈ wrote, output.2.entries ≠ []

def MergeLocals.dropped (locals : MergeLocals) : Nat :=
  locals.stats.duplicateKeysDropped + locals.stats.tombstonesDropped

def MergeLocals.FilesCounted (locals : MergeLocals) : Prop := locals.stats.filesWritten = locals.outputMetas.length

structure Took (bottom : Bool) (count emitted : Nat) (before after : MergeLocals) : Prop where
  isBottomLevel : after.isBottomLevel = bottom
  merged : after.stats.keysMerged = before.stats.keysMerged
  exits : emitted + after.dropped = before.dropped + count
  files : before.FilesCounted → after.FilesCounted

theorem Took.trans {bottom : Bool} {count count' emitted emitted' : Nat} {first second third : MergeLocals}
    (took : Took bottom count emitted first second) (took' : Took bottom count' emitted' second third) :
    Took bottom (count' + count) (emitted + emitted') first third where
  isBottomLevel := took'.isBottomLevel
  merged := took'.merged.trans took.merged
  exits := by
    have := took.exits
    have := took'.exits
    omega
  files := took'.files ∘ took.files

variable {pf : Platform} {io : Faults} {store store' : Store} {locals locals' : MergeLocals} {bottom : Bool}

theorem flushOutput_took (isBottom : locals.isBottomLevel = bottom)
    (flushed : flushOutput pf io locals store = .ok locals' store') :
    Took bottom 0 0 locals locals' ∧ locals'.lastEmittedKey = locals.lastEmittedKey := by
  unfold flushOutput at flushed
  split at flushed
  next =>
    cases flushed
    exact ⟨⟨isBottom, rfl, Nat.zero_add _, id⟩, rfl⟩
  next =>
    obtain ⟨⟨⟩, written, -, flushed⟩ := Action.bind_ok.mp flushed
    cases flushed
    refine ⟨⟨isBottom, rfl, Nat.zero_add _, fun counted => ?_⟩, rfl⟩
    rw [MergeLocals.FilesCounted] at counted
    simp [MergeLocals.FilesCounted, counted]

theorem consume_took {entry : BlockEntry} (isBottom : locals.isBottomLevel = bottom)
    (consumed : consume pf io locals entry store = .ok locals' store') :
    Took bottom 1 (passed bottom locals.lastEmittedKey entry).length locals locals' ∧
      locals'.lastEmittedKey = entry.key := by
  subst isBottom
  unfold consume at consumed
  split at consumed
  next same =>
    cases consumed
    refine ⟨⟨rfl, rfl, ?_, id⟩, same.symm⟩
    simp [passed, same, MergeLocals.dropped]
    omega
  next fresh =>
    dsimp only at consumed
    split at consumed
    next drops =>
      cases consumed
      refine ⟨⟨rfl, rfl, ?_, id⟩, rfl⟩
      simp [passed, fresh, kept, drops, MergeLocals.dropped]
      omega
    next stays =>
      rw [Bool.not_eq_true] at stays
      have emits : Took locals.isBottomLevel 1 (passed locals.isBottomLevel locals.lastEmittedKey entry).length locals
          { locals with
            lastEmittedKey := entry.key
            outBytesEstimate := locals.outBytesEstimate + entry.encodedSize
            outputEntries := locals.outputEntries ++ [entry] } := by
        refine ⟨rfl, rfl, ?_, id⟩
        simp [passed, fresh, kept, stays, MergeLocals.dropped]
        omega
      split at consumed
      next =>
        obtain ⟨took, last⟩ := flushOutput_took rfl consumed
        exact ⟨by simpa using emits.trans took, last⟩
      next =>
        cases consumed
        exact ⟨emits, rfl⟩

theorem drain_took (fuel : Nat) (heap : List (Run BlockEntry)) (enough : Run.size heap ≤ fuel)
    (isBottom : locals.isBottomLevel = bottom) (drained : drain pf io fuel heap locals store = .ok locals' store') :
    Took bottom (Run.size heap) ((mergeRuns BlockEntry.key pf.toStdAlgorithms fuel locals.lastEmittedKey heap).filter
      (kept bottom)).length locals locals' := by
  induction fuel generalizing heap locals store with
  | zero =>
    cases drained
    obtain rfl := Run.size_eq_zero heap (by omega)
    exact ⟨isBottom, rfl, by simp [mergeRuns, Run.size], id⟩
  | succ fuel ih =>
    rw [drain] at drained
    cases pop : pf.popHeap (Run.comesAfter BlockEntry.key) heap with
    | none =>
      obtain rfl := pf.popHeap_none _ heap pop
      rw [pop] at drained
      cases drained
      exact ⟨isBottom, rfl, by simp [mergeRuns, pop, Run.size], id⟩
    | some pair =>
      obtain ⟨top, rest⟩ := pair
      rw [pop] at drained
      obtain ⟨next, between, consumed, drained⟩ := Action.bind_ok.mp drained
      have size := (popped_of_popHeap pop).size_eq
      obtain ⟨took, last⟩ := consume_took isBottom consumed
      have rest := ih (top.refill rest) (by omega) took.isBottomLevel drained
      rw [last] at rest
      rw [mergeRuns_passed bottom pop, List.length_append, size]
      exact took.trans rest

theorem seedHeap_size (fileData : List (SSTableMeta × SSTable)) :
    Run.size (seedHeap fileData) = (entriesOf fileData).length := by
  have records : ∀ table : SSTable, table.entries.tail.length + 1 = table.entries.length := fun table => by
    rw [← List.length_cons (a := table.entries.head table.nonempty), List.cons_head_tail]
  simp only [Run.size, seedHeap, List.map_map, Function.comp_def, Run.records, List.length_cons, records, entriesOf,
    List.length_flatMap]

theorem readInputs_counts {inputs : List SSTableMeta} {stats read : CompactionStats}
    {fileData : List (SSTableMeta × SSTable)}
    (reads : readInputs io inputs stats store = .ok (fileData, read) store') :
    read.keysMerged = stats.keysMerged + (entriesOf fileData).length ∧
      read.duplicateKeysDropped = stats.duplicateKeysDropped ∧ read.tombstonesDropped = stats.tombstonesDropped ∧
      read.filesWritten = stats.filesWritten := by
  obtain ⟨data, between, -, result⟩ := Action.bind_ok.mp reads
  cases result
  simp [entriesOf, List.length_flatMap]

variable {inputs metas : List SSTableMeta} {sourceLevel targetLevel : Int} {filesRead : Nat} {stats : CompactionStats}

end CompactionManager

end VectorDb.Storage
