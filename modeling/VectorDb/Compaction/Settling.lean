import VectorDb.Compaction.LevelInvariant

namespace VectorDb.Storage
open Lib Common

namespace CompactionManager

def entryCount (tables : Tables) (path : Path) : Nat :=
  match tables path with
  | some (.complete table) => table.entries.length
  | _ => 0

def descent (store : Store) (file : SSTableMeta) : Nat :=
  (store.manager.maxLevel - file.level).toNat * entryCount store.tables file.filepath

def remaining (store : Store) : Nat := (store.manager.files.map (descent store)).sum

inductive Compactions (pf : Platform) (io : Faults) : Store → Nat → Store → Prop
  | none {store : Store} : Compactions pf io store 0 store
  | next {store between after : Store} {n : Nat} {stats : CompactionStats} :
      runCompaction pf io store = .ok stats between → Compactions pf io between n after →
      Compactions pf io store (n + 1) after

section Measure
variable {pf : Platform} {io : Faults} {store store' : Store} {level : Int} {sources targets : List SSTableMeta}
  {fileData : List (SSTableMeta × SSTable)} {outs : List SSTable}

theorem entryCount_complete {tables : Tables} {path : Path} {table : SSTable}
    (stored : tables path = some (.complete table)) : entryCount tables path = table.entries.length := by
  simp only [entryCount, stored]

theorem entryCount_leaves {tables : Tables} {path : Path} {table : SSTable}
    (stored : tables path = some (io.leaves path table)) : entryCount tables path ≤ table.entries.length := by
  rw [entryCount, stored]
  cases left : io.leaves path table with
  | complete other =>
    obtain rfl := Faults.leaves_complete left
    exact le_rfl
  | torn bytes => exact Nat.zero_le _

theorem MergedOutputs.length_le {bottom : Bool} (merged : MergedOutputs fileData bottom outs) :
    (outs.map fun table => table.entries.length).sum ≤ (fileData.map fun input => input.2.entries.length).sum := by
  have distinct : (outs.flatMap SSTable.entries).Nodup := by
    refine (merged.ascending.imp fun less => ?_ : List.Pairwise (· ≠ ·) _)
    exact fun same => absurd (same ▸ less) (lt_irrefl _)
  have inside : outs.flatMap SSTable.entries ⊆ fileData.flatMap fun input => input.2.entries := by
    intro entry member
    obtain ⟨-, -, input, read, version, -⟩ :=
      (merged.latest entry.key entry).mp (find_mem _ merged.ascending member)
    exact List.mem_flatMap.mpr ⟨input, read, (find_some _ version).1⟩
  have shorter := (List.Nodup.subperm distinct inside).length_le
  rwa [List.length_flatMap, List.length_flatMap] at shorter

theorem Selection.inputs_nodup {lo hi : Bytes} (selection : store.manager.Selection pf level sources targets lo hi)
    (distinct : store.manager.files.Nodup) : (sources ++ targets).Nodup := by
  have atLevel : ∀ level, (store.manager.getFilesAtLevel pf level).Nodup := fun level =>
    (pf.sort_perm _ _).nodup_iff.mpr (distinct.filter _)
  refine List.Nodup.append ?_ ?_ fun file source target => ?_
  · by_cases zero : level = 0
    · rw [selection.whole zero]
      exact atLevel 0
    · obtain ⟨file, rfl⟩ := selection.single zero
      exact List.nodup_singleton file
  · rw [selection.target]
    exact (atLevel _).filter _
  · have := (selection.source file source).2
    have := (selection.target_mem.mp target).2.1
    omega

theorem sum_descent_at {inputs : List SSTableMeta} {depth : Int} (atDepth : ∀ file ∈ inputs, file.level = depth) :
    (inputs.map (descent store)).sum = (store.manager.maxLevel - depth).toNat *
      (inputs.map fun file => entryCount store.tables file.filepath).sum := by
  rw [← List.sum_map_mul_left]
  congr 1
  apply List.map_congr_left
  intro file member
  rw [descent, atDepth file member]

theorem Filed.remaining_ge (filed : Filed store) {lo hi : Bytes}
    (selection : store.manager.Selection pf level sources targets lo hi) :
    ((store.manager.files.filter fun file => file ∉ sources ++ targets).map (descent store)).sum +
      ((sources.map (descent store)).sum + (targets.map (descent store)).sum) ≤ remaining store := by
  have distinct : store.manager.files.Nodup := .of_map _ filed.paths
  have apart : ((store.manager.files.filter fun file => file ∉ sources ++ targets) ++ (sources ++ targets)).Nodup := by
    refine List.Nodup.append (distinct.filter _) (selection.inputs_nodup distinct) fun file kept input => ?_
    exact of_decide_eq_true (List.mem_filter.mp kept).2 input
  have inside : (store.manager.files.filter fun file => file ∉ sources ++ targets) ++ (sources ++ targets) ⊆
      store.manager.files :=
    List.append_subset.mpr ⟨List.filter_sublist.subset, fun _ => selection.input_mem⟩
  obtain ⟨listed, same, part⟩ := List.Nodup.subperm apart inside
  rw [← List.sum_append, ← List.sum_append, ← List.map_append, ← List.map_append, ← (same.map _).sum_eq]
  exact (part.map _).sum_le_sum fun _ _ => Nat.zero_le _

section Compact
variable (run : CompactionRun pf io store store' level sources targets fileData outs)
include run

theorem CompactionRun.sum_inputs :
    (fileData.map fun input => input.2.entries.length).sum =
      ((sources ++ targets).map fun file => entryCount store.tables file.filepath).sum := by
  have paths : (fileData.map Prod.fst).map SSTableMeta.filepath = (sources ++ targets).map SSTableMeta.filepath := by
    rw [run.inputs, numberInputs_paths]
  have counts : (fileData.map fun input => input.2.entries.length) =
      ((fileData.map Prod.fst).map SSTableMeta.filepath).map (entryCount store.tables) := by
    simp only [List.map_map]
    apply List.map_congr_left
    intro input member
    exact (entryCount_complete (run.read input member)).symm
  rw [counts, paths, List.map_map]
  rfl

theorem CompactionRun.sources_filled : 0 < (sources.map fun file => entryCount store.tables file.filepath).sum := by
  obtain ⟨first, others, isCons⟩ := List.exists_cons_of_ne_nil run.nonempty
  have path : first.filepath ∈ (fileData.map Prod.fst).map SSTableMeta.filepath := by
    rw [run.inputs, numberInputs_paths, isCons]
    simp
  rw [List.map_map] at path
  obtain ⟨input, read, same⟩ := List.mem_map.mp path
  have filled := List.length_pos_of_ne_nil input.2.nonempty
  have stored := run.read input read
  rw [isCons, List.map_cons, List.sum_cons, ← same, Function.comp_apply, entryCount_complete stored]
  omega

variable (filed : Filed store)
include filed

theorem CompactionRun.descent_kept {file : SSTableMeta} (member : file ∈ store.manager.files)
    (left : file ∉ sources ++ targets) : descent store' file = descent store file := by
  rw [descent, descent, entryCount, run.kept_table filed member left, run.manager]
  rfl

theorem CompactionRun.descent_outputs :
    ((outputMetasFrom io store.manager.dataDir (level + 1) store.manager.nextFileNumber outs).map (descent store')).sum ≤
      (store.manager.maxLevel - (level + 1)).toNat * (outs.map fun table => table.entries.length).sum := by
  have lengths : (outs.map fun table => table.entries.length) =
      (outs.zipIdx store.manager.nextFileNumber).map fun numbered => numbered.1.entries.length := by
    conv_lhs => rw [← List.zipIdx_map_fst store.manager.nextFileNumber outs, List.map_map]
    rfl
  rw [lengths, ← List.sum_map_mul_left, outputMetasFrom, List.map_map]
  apply List.sum_le_sum
  rintro ⟨table, number⟩ member
  obtain ⟨later, bound, isOutput⟩ := List.mem_zipIdx member
  obtain ⟨j, rfl⟩ := Nat.exists_eq_add_of_le later
  have inside : j < outs.length := by omega
  obtain rfl : table = outs[j] := by simpa using isOutput
  simp only [Function.comp_apply, outputMetaOf, descent, run.manager]
  apply Nat.mul_le_mul_left
  exact entryCount_leaves (run.output_table filed inside)

theorem CompactionRun.remaining_after : remaining store' ≤
    ((store.manager.files.filter fun file => file ∉ sources ++ targets).map (descent store)).sum +
      (store.manager.maxLevel - (level + 1)).toNat * (outs.map fun table => table.entries.length).sum := by
  have kept : store.manager.files.filter (fun file => file.filepath ∉ (sources ++ targets).map SSTableMeta.filepath) =
      store.manager.files.filter fun file => file ∉ sources ++ targets := by
    apply List.filter_congr
    intro file member
    rw [decide_eq_decide, not_iff_not]
    exact run.kept_path filed member
  have same : (store.manager.files.filter fun file => file ∉ sources ++ targets).map (descent store') =
      (store.manager.files.filter fun file => file ∉ sources ++ targets).map (descent store) := by
    apply List.map_congr_left
    intro file member
    obtain ⟨inside, left⟩ := List.mem_filter.mp member
    exact run.descent_kept filed inside (of_decide_eq_true left)
  have outputs := run.descent_outputs filed
  rw [remaining]
  conv_lhs => rw [run.manager]
  dsimp only
  rw [List.filter_append, List.map_append, List.sum_append, kept, same]
  exact Nat.add_le_add_left (((List.filter_sublist.map _).sum_le_sum fun _ _ => Nat.zero_le _).trans outputs) _

theorem CompactionRun.remaining_lt (levels : 2 ≤ store.manager.maxLevel) : remaining store' < remaining store := by
  obtain ⟨lo, hi, selection⟩ := run.selection
  have after := run.remaining_after filed
  have before := filed.remaining_ge selection
  have filled := run.sources_filled
  have fewer := run.merged.length_le
  rw [run.sum_inputs, List.map_append, List.sum_append] at fewer
  rw [sum_descent_at fun file source => (selection.source file source).2,
    sum_descent_at fun file target => (selection.target_mem.mp target).2.1] at before
  have deeper : (store.manager.maxLevel - level).toNat = (store.manager.maxLevel - (level + 1)).toNat + 1 := by
    have picked := pickCompactionLevel_cases store.manager
    rw [run.picked] at picked
    have := run.needed
    omega
  rw [deeper, Nat.add_mul, Nat.one_mul] at before
  have moved := Nat.mul_le_mul_left (store.manager.maxLevel - (level + 1)).toNat fewer
  rw [Nat.mul_add] at moved
  omega

end Compact

end Measure

section Runs
variable {pf : Platform} {io : Faults} {store store' : Store} {stats : CompactionStats}

theorem Filed.runCompaction (filed : Filed store) (levels : 2 ≤ store.manager.maxLevel)
    (ran : runCompaction pf io store = .ok stats store') :
    Filed store' ∧ 2 ≤ store'.manager.maxLevel ∧ remaining store' < remaining store := by
  obtain ⟨level, sources, targets, fileData, outs, run⟩ := runCompaction_ok ran
  refine ⟨filed.compact run, ?_, run.remaining_lt filed levels⟩
  rw [run.manager]
  exact levels

theorem Filed.descends {stores : Nat → Store} (filed : Filed (stores 0)) (levels : 2 ≤ (stores 0).manager.maxLevel)
    (ran : ∀ n, ∃ io stats, CompactionManager.runCompaction pf io (stores n) = .ok stats (stores (n + 1))) (n : Nat) :
    Filed (stores n) ∧ 2 ≤ (stores n).manager.maxLevel ∧ n + remaining (stores n) ≤ remaining (stores 0) := by
  induction n with
  | zero => exact ⟨filed, levels, by omega⟩
  | succ n ih =>
    obtain ⟨before, enough, descended⟩ := ih
    obtain ⟨io, stats, ran⟩ := ran n
    obtain ⟨after, still, less⟩ := before.runCompaction enough ran
    exact ⟨after, still, by omega⟩

theorem Registered.settles (registered : Registered store) (levels : 2 ≤ store.manager.maxLevel) :
    ∃ n settled, Compactions pf .none store n settled ∧ settled.manager.needsCompaction = false := by
  induction measured : remaining store using Nat.strong_induction_on generalizing store with
  | _ size ih =>
    cases needed : store.manager.needsCompaction with
    | false => exact ⟨0, store, .none, needed⟩
    | true =>
      have present : ∀ file ∈ store.manager.files, ∃ table, store.tables file.filepath = some (.complete table) :=
        fun file member => (registered.recorded file member).imp fun _ recorded => recorded.1
      obtain ⟨stats, between, ran⟩ : Action.Succeeds (CompactionManager.runCompaction pf .none) store :=
        runCompaction_succeeds Faults.silent_none needed levels present
      obtain ⟨-, still, less⟩ := registered.toFiled.runCompaction levels ran
      obtain ⟨level, sources, targets, fileData, outs, run⟩ := runCompaction_ok ran
      have after := registered.compact Faults.lossless_none run
      obtain ⟨n, settled, compactions, done⟩ := ih _ (measured ▸ less) after still rfl
      exact ⟨n + 1, settled, .next ran compactions, done⟩

end Runs

end CompactionManager

end VectorDb.Storage
