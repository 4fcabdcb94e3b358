import VectorDb.Compaction.Meaning

namespace VectorDb.Storage
open Lib Common CompactionManager StorageEngine

/-- The store with another number for the next output. No lookup reads it. -/
def Store.renumbered (store : Store) (number : Nat) : Store :=
  { store with manager := { store.manager with nextFileNumber := number } }

structure Compacted (store store' : Store) (level : Int) (inputs : List SSTableMeta)
    (taken : Bytes → BlockEntry → Prop) : Prop where
  kept : ∀ file ∈ store.manager.files, file ∉ inputs →
    file ∈ store'.manager.files ∧ store'.tables file.filepath = store.tables file.filepath
  files : ∀ file ∈ store'.manager.files, (file ∈ store.manager.files ∧ file ∉ inputs) ∨
    (file ∉ store.manager.files ∧ file.level = level + 1 ∧
      ∀ key entry, versionAt store'.tables key file.filepath = some entry → taken key entry)
  made : ∀ key entry, taken key entry → ∃ file ∈ store'.manager.files, file ∉ store.manager.files ∧
    file.level = level + 1 ∧ versionAt store'.tables key file.filepath = some entry

namespace Compacted

variable {pf : Platform} {store first second : Store} {level : Int} {inputs : List SSTableMeta}
  {taken : Bytes → BlockEntry → Prop} {key : Bytes}

theorem renumbered (compacted : Compacted store first level inputs taken) (number number' : Nat) :
    Compacted (store.renumbered number) (first.renumbered number') level inputs taken :=
  ⟨compacted.kept, compacted.files, compacted.made⟩

theorem version_kept (compacted : Compacted store first level inputs taken) {file : SSTableMeta}
    (member : file ∈ store.manager.files) (left : file ∉ inputs) :
    versionAt first.tables key file.filepath = versionAt store.tables key file.filepath := by
  rw [versionAt, (compacted.kept file member left).2, versionAt]

theorem newer_level (searchable : Searchable first) (deep : 0 ≤ level) {a b : SSTableMeta}
    (inA : a ∈ first.manager.files) (inB : b ∈ first.manager.files) (distinct : b ≠ a)
    (target : a.level = level + 1 ∨ b.level = level + 1)
    (heldA : (versionAt first.tables key a.filepath).isSome) (heldB : (versionAt first.tables key b.filepath).isSome)
    (order : b = a ∨ Newer a b) : a.level < b.level := by
  rcases order.resolve_left distinct with less | ⟨same, -⟩
  · exact less
  · exact absurd (searchable.holder_unique inA inB (by omega) same heldA heldB).symm distinct

theorem newest_imp (one : Compacted store first level inputs taken) (two : Compacted store second level inputs taken)
    (searchable : Searchable first) (searchable' : Searchable second) (deep : 0 ≤ level) {entry : BlockEntry}
    (newest : newestEntry pf first key = some entry) : newestEntry pf second key = some entry := by
  simp only [searchable.newestEntry_eq_some pf, searchable'.newestEntry_eq_some pf, FirstHit] at newest ⊢
  obtain ⟨file, member, found, front⟩ := newest
  have held : (versionAt first.tables key file.filepath).isSome := by rw [found]; rfl
  rcases one.files file member with ⟨old, left⟩ | ⟨new, atTarget, takes⟩
  · refine ⟨file, (two.kept file old left).1, ?_, fun other inside holds => ?_⟩
    · rw [two.version_kept old left, ← one.version_kept old left, found]
    rcases two.files other inside with ⟨old', left'⟩ | ⟨-, atTarget', takes'⟩
    · rw [two.version_kept old' left', ← one.version_kept old' left'] at holds
      exact front other (one.kept other old' left').1 holds
    · -- The first store has a new file with the same version, and it is behind the file found there.
      obtain ⟨version, isVersion⟩ := Option.isSome_iff_exists.mp holds
      obtain ⟨twin, inTwin, newTwin, twinLevel, twinVersion⟩ := one.made key version (takes' key version isVersion)
      have heldTwin : (versionAt first.tables key twin.filepath).isSome := by rw [twinVersion]; rfl
      have distinct : twin ≠ file := fun same => newTwin (same ▸ old)
      have above := newer_level searchable deep member inTwin distinct (.inr twinLevel) held heldTwin
        (front twin inTwin heldTwin)
      exact .inr (.inl (by omega))
  · obtain ⟨twin, inTwin, newTwin, twinLevel, twinVersion⟩ := two.made key entry (takes key entry found)
    refine ⟨twin, inTwin, twinVersion, fun other inside holds => ?_⟩
    have heldTwin : (versionAt second.tables key twin.filepath).isSome := by rw [twinVersion]; rfl
    rcases two.files other inside with ⟨old', left'⟩ | ⟨-, atTarget', -⟩
    · rw [two.version_kept old' left', ← one.version_kept old' left'] at holds
      have inFirst := (one.kept other old' left').1
      have distinct : other ≠ file := fun same => new (same ▸ old')
      have above := newer_level searchable deep member inFirst distinct (.inl atTarget) held holds
        (front other inFirst holds)
      exact .inr (.inl (by omega))
    · exact .inl (searchable'.holder_unique inside inTwin (by omega) (by omega) holds heldTwin)

theorem newest_eq (one : Compacted store first level inputs taken) (two : Compacted store second level inputs taken)
    (searchable : Searchable first) (searchable' : Searchable second) (deep : 0 ≤ level) :
    newestEntry pf first key = newestEntry pf second key :=
  Option.ext fun _ => ⟨newest_imp one two searchable searchable' deep, newest_imp two one searchable' searchable deep⟩

end Compacted

namespace CompactionManager.CompactionRun

variable {pf : Platform} {io : Faults} {store store' : Store} {level : Int} {sources targets : List SSTableMeta}
  {fileData : List (SSTableMeta × SSTable)} {outs : List SSTable}

def Unlisted (store : Store) (level : Int) (outs : List SSTable) : Prop :=
  ∀ j < outs.length, outputPath store.manager.dataDir (level + 1) (store.manager.nextFileNumber + j) ∉
    store.manager.files.map SSTableMeta.filepath

section
variable (run : CompactionRun pf io store store' level sources targets fileData outs)
  (lossless : io.Lossless) (paths : (store.manager.files.map SSTableMeta.filepath).Nodup)
  (unlisted : Unlisted store level outs)
include run

include paths in
theorem input_iff {file : SSTableMeta} (member : file ∈ store.manager.files) :
    file.filepath ∈ (sources ++ targets).map SSTableMeta.filepath ↔ file ∈ sources ++ targets := by
  refine ⟨fun path => ?_, fun input => List.mem_map_of_mem input⟩
  obtain ⟨lo, hi, selection⟩ := run.selection
  obtain ⟨other, inputs, same⟩ := List.mem_map.mp path
  rwa [← List.inj_on_of_nodup_map paths (selection.input_mem inputs) member same]

include lossless unlisted in
theorem output_written {j : Nat} (bound : j < outs.length) :
    store'.tables (outputPath store.manager.dataDir (level + 1) (store.manager.nextFileNumber + j)) =
      some (.complete outs[j]) := by
  rw [run.written j bound fun input => unlisted j bound (run.input_listed input), lossless.leaves]

include paths unlisted in
theorem files_iff (file : SSTableMeta) : file ∈ store'.manager.files ↔
    (file ∈ store.manager.files ∧ file ∉ sources ++ targets) ∨
      ∃ (j : Nat) (bound : j < outs.length), file =
        outputMetaOf io store.manager.dataDir (level + 1) outs[j] (store.manager.nextFileNumber + j) := by
  rw [run.manager]
  simp only [List.mem_filter, decide_eq_true_eq]
  rw [List.mem_append, mem_outputMetasFrom]
  constructor
  · rintro ⟨old | output, path⟩
    · exact .inl ⟨old, fun input => path ((run.input_iff paths old).mpr input)⟩
    · exact .inr output
  · rintro (⟨old, left⟩ | ⟨j, bound, rfl⟩)
    · exact ⟨.inl old, fun path => left ((run.input_iff paths old).mp path)⟩
    · exact ⟨.inr ⟨j, bound, rfl⟩, fun input => unlisted j bound (run.input_listed input)⟩

include paths unlisted in
theorem table_kept {file : SSTableMeta} (member : file ∈ store.manager.files) (left : file ∉ sources ++ targets) :
    store'.tables file.filepath = store.tables file.filepath :=
  run.others _ (fun path => left ((run.input_iff paths member).mp path)) fun j bound same =>
    unlisted j bound (same ▸ List.mem_map_of_mem member)

include lossless paths unlisted in
theorem compacted : Compacted store store' level (sources ++ targets) fun key entry =>
    key ≠ [] ∧ CompactionManager.kept (level + 1 = store.manager.maxLevel - 1) entry = true ∧
      latestInput store.tables sources targets key = some entry := by
  have version : ∀ (j : Nat) (bound : j < outs.length) (key : Bytes), versionAt store'.tables key
      (outputPath store.manager.dataDir (level + 1) (store.manager.nextFileNumber + j)) = outs[j].lookup key := by
    intro j bound key
    rw [versionAt, run.output_written lossless unlisted bound]
  have new : ∀ (j : Nat) (bound : j < outs.length), outputMetaOf io store.manager.dataDir (level + 1) outs[j]
      (store.manager.nextFileNumber + j) ∉ store.manager.files := fun j bound member =>
    unlisted j bound (List.mem_map_of_mem (f := SSTableMeta.filepath) member)
  refine ⟨fun file member left => ⟨?_, run.table_kept paths unlisted member left⟩, fun file member => ?_,
    fun key entry takes => ?_⟩
  · exact (run.files_iff paths unlisted file).mpr (.inl ⟨member, left⟩)
  · refine ((run.files_iff paths unlisted file).mp member).imp id ?_
    rintro ⟨j, bound, rfl⟩
    refine ⟨new j bound, rfl, fun key entry found => ?_⟩
    exact run.output_holds.mp ⟨outs[j], List.getElem_mem bound, (version j bound key).symm.trans found⟩
  · obtain ⟨table, output, found⟩ := run.output_holds.mpr takes
    obtain ⟨j, bound, rfl⟩ := List.getElem_of_mem output
    exact ⟨_, (run.files_iff paths unlisted _).mpr (.inr ⟨j, bound, rfl⟩), new j bound, rfl,
      (version j bound key).trans found⟩

end

theorem renumbered (run : CompactionRun pf io store store' level sources targets fileData outs) (number : Nat) :
    ∃ again, CompactionRun pf io (store.renumbered number) again level sources targets fileData outs := by
  -- The same tables, placed one after the other from another number on.
  have placed : ∀ outs : List SSTable, ∃ merged, Outputs io (store.renumbered number) (level + 1) outs merged := by
    intro outs
    induction outs using List.reverseRecOn with
    | nil =>
      exact ⟨⟨store.tables, { store.manager with nextFileNumber := number + 1 }⟩, rfl, fun _ bound => absurd bound (by simp),
        fun _ _ => rfl⟩
    | append_singleton outs table ih =>
      obtain ⟨merged, outputs⟩ := ih
      exact ⟨_, outputs.place table⟩
  obtain ⟨merged, outputs⟩ := placed outs
  have again : MergeRun pf io (store.renumbered number) merged level sources targets fileData outs :=
    ⟨run.picked, run.needed, run.selected, run.nonempty, run.inputs, run.read, outputs, run.merged⟩
  refine ⟨_, again.compaction fun file member => ?_⟩
  rw [outputMetasFrom_level member, outputs.manager]
  refine run.room ?_
  rintro rfl
  cases member

theorem searchable_after (run : CompactionRun pf io store store' level sources targets fileData outs)
    (lossless : io.Lossless) {number : Nat} (searchable : Searchable (store.renumbered number)) (unlisted : Unlisted store level outs) :
    Searchable (store'.renumbered (max number store'.manager.nextFileNumber)) := by
  have files := run.files_iff searchable.paths unlisted
  have valid := run.valid
  obtain ⟨again, rerun⟩ := run.renumbered number
  have directory : store'.manager.dataDir = store.manager.dataDir := by rw [run.manager]
  have levels : store'.manager.maxLevel = store.manager.maxLevel := by rw [run.manager]
  have next : store'.manager.nextFileNumber = store.manager.nextFileNumber + outs.length + 1 := by rw [run.manager]
  refine ⟨⟨fun file member => ?_, run.paths searchable.paths unlisted, fun file member target deep drawn later same => ?_,
    fun file member => ?_, fun a inA b inB distinct same deep => ?_, fun file member deep => ?_⟩,
    fun a inA b inB zeroA zeroB => ?_⟩
  · rcases (files file).mp member with ⟨old, left⟩ | ⟨j, bound, rfl⟩
    · obtain ⟨table, recorded⟩ := searchable.recorded file old
      exact ⟨table, (run.table_kept searchable.paths unlisted old left).trans recorded.1, recorded.2⟩
    · exact ⟨outs[j], run.output_written lossless unlisted bound, rfl, rfl⟩
  · have later : max number store'.manager.nextFileNumber ≤ drawn := later
    have same : file.filepath = outputPath store.manager.dataDir target drawn := directory ▸ same
    rcases (files file).mp member with ⟨old, left⟩ | ⟨j, bound, rfl⟩
    · exact searchable.ungenerated file old target deep drawn ((le_max_left _ _).trans later) same
    · have number := (outputPath_inj same).2
      omega
  · change 0 ≤ file.level ∧ file.level < store'.manager.maxLevel
    rw [levels]
    rcases (files file).mp member with ⟨old, left⟩ | ⟨j, bound, rfl⟩
    · exact searchable.levels file old
    · exact run.room (List.ne_nil_of_length_pos (by omega))
  · rcases (files a).mp inA with ⟨oldA, leftA⟩ | ⟨i, boundI, rfl⟩
    · rcases (files b).mp inB with ⟨oldB, leftB⟩ | ⟨j, boundJ, rfl⟩
      · exact searchable.apart a oldA b oldB distinct same deep
      · exact rerun.output_apart searchable.toLevelled oldA leftA same (List.getElem_mem boundJ) _
    · rcases (files b).mp inB with ⟨oldB, leftB⟩ | ⟨j, boundJ, rfl⟩
      · exact (rerun.output_apart searchable.toLevelled oldB leftB same.symm (List.getElem_mem boundI) _).symm
      · have ordered := List.pairwise_iff_getElem.mp run.merged.ordered
        rcases lt_trichotomy i j with less | rfl | more
        · exact .inl (ordered i j boundI boundJ less)
        · exact absurd rfl distinct
        · exact .inr (ordered j i boundJ boundI more)
  · rcases (files file).mp member with ⟨old, left⟩ | ⟨j, bound, rfl⟩
    · exact searchable.named file old deep
    · obtain ⟨first, inTable, same⟩ := outs[j].head_mem
      have named := (rerun.output_key searchable.toLevelled.registered (List.getElem_mem bound) inTable).1
      exact fun empty => named (same.trans empty)
  · have old : ∀ file ∈ store'.manager.files, file.level = 0 → file ∈ store.manager.files := by
      intro file member zero
      rcases (files file).mp member with ⟨old, -⟩ | ⟨j, bound, rfl⟩
      · exact old
      · simp only [outputMetaOf] at zero
        omega
    exact searchable.stamps a (old a inA zeroA) b (old b inB zeroB) zeroA zeroB

theorem visible_renumbered (run : CompactionRun pf io store store' level sources targets fileData outs)
    (lossless : io.Lossless) {number : Nat} (searchable : Searchable (store.renumbered number)) (unlisted : Unlisted store level outs) {key : Bytes}
    (takes : level = 0 → MergeTakesNewest pf store key) :
    (newestEntry pf store' key).bind BlockEntry.visible = (newestEntry pf store key).bind BlockEntry.visible := by
  obtain ⟨again, rerun⟩ := run.renumbered number
  have valid := run.valid
  have unlisted' : Unlisted (store.renumbered number) level outs := fun j _ =>
    rerun.output_unlisted searchable.toLevelled.filed j
  have before : Searchable ((store.renumbered number).renumbered number) := searchable
  have after : Searchable again :=
    ⟨searchable.toLevelled.compact lossless rerun, (rerun.searchable_after lossless before unlisted').stamps⟩
  have same : newestEntry pf (store'.renumbered (max number store'.manager.nextFileNumber)) key =
      newestEntry pf again key :=
    Compacted.newest_eq ((run.compacted lossless searchable.paths unlisted).renumbered number _)
      (rerun.compacted lossless searchable.paths unlisted') (run.searchable_after lossless searchable unlisted) after valid
  rw [show newestEntry pf store' key = newestEntry pf again key from same]
  by_cases deep : 1 ≤ level
  · exact rerun.visible_deep lossless searchable after deep key
  · obtain rfl : level = 0 := by omega
    exact (rerun.visible_level0 lossless searchable after key).mpr (takes rfl)

end CompactionManager.CompactionRun

end VectorDb.Storage
