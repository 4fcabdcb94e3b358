import VectorDb.Engine.FileLookup

namespace VectorDb.Storage
open Lib Common CompactionManager StorageEngine

def latestInput (tables : Tables) (sources targets : List SSTableMeta) (key : Bytes) : Option BlockEntry :=
  (sources ++ targets.reverse).findSome? fun file => versionAt tables key file.filepath

namespace CompactionManager.CompactionRun

variable {pf : Platform} {io : Faults} {store store' : Store} {level : Int} {sources targets : List SSTableMeta}
  {fileData : List (SSTableMeta × SSTable)} {outs : List SSTable} {key : Bytes} {entry : BlockEntry}

private theorem ranked_latest (tables : Tables) :
    latestInput tables sources targets key =
      (rankedInputs sources targets).findSome? fun file => versionAt tables key file.filepath := by
  have mapped : ∀ files : List SSTableMeta, (files.findSome? fun file => versionAt tables key file.filepath) =
      (files.map SSTableMeta.filepath).findSome? (versionAt tables key) := fun files => by
    rw [List.findSome?_map]
    rfl
  rw [latestInput, mapped, mapped, rankedInputs_paths]

theorem latest_iff (run : CompactionRun pf io store store' level sources targets fileData outs) :
    LatestInput fileData key entry ↔ latestInput store.tables sources targets key = some entry := by
  have version : ∀ input ∈ fileData, input.2.lookup key = versionAt store.tables key input.1.filepath := by
    intro input member
    rw [versionAt, run.read input member]
  have files : ∀ file, file ∈ rankedInputs sources targets ↔ ∃ input ∈ fileData, input.1 = file := by
    intro file
    rw [(rankedInputs_perm sources targets).mem_iff, ← run.inputs, List.mem_map]
  rw [ranked_latest, findSome_ranked (rankedInputs_ordered sources targets)]
  simp only [files, exists_exists_and_eq_and, forall_exists_index, and_imp, forall_apply_eq_imp_iff₂]
  constructor
  · rintro ⟨input, member, found, highest⟩
    exact ⟨input, member, (version input member).symm.trans found,
      fun other inside held => highest other inside (version other inside ▸ held)⟩
  · rintro ⟨input, member, found, highest⟩
    exact ⟨input, member, (version input member).trans found,
      fun other inside held => highest other inside (version other inside ▸ held)⟩

theorem output_holds (run : CompactionRun pf io store store' level sources targets fileData outs) :
    (∃ table ∈ outs, table.lookup key = some entry) ↔ key ≠ [] ∧
      kept (level + 1 = store.manager.maxLevel - 1) entry = true ∧
        latestInput store.tables sources targets key = some entry := by
  rw [← run.latest_iff, ← run.merged.latest, find_eq_some _ run.merged.ascending]
  simp only [SSTable.lookup, List.mem_flatMap]
  constructor
  · rintro ⟨table, output, found⟩
    obtain ⟨member, same⟩ := find_some _ found
    exact ⟨⟨table, output, member⟩, same⟩
  · rintro ⟨⟨table, output, member⟩, rfl⟩
    exact ⟨table, output, find_mem _ table.ascending member⟩

theorem holds_after (run : CompactionRun pf io store store' level sources targets fileData outs)
    (lossless : io.Lossless) (levelled : Levelled store) (file : SSTableMeta) :
    (file ∈ store'.manager.files ∧ versionAt store'.tables key file.filepath = some entry) ↔
      (file ∈ store.manager.files ∧ file ∉ sources ++ targets ∧
        versionAt store.tables key file.filepath = some entry) ∨
      ∃ (j : Nat) (bound : j < outs.length), file = outputMetaOf io store.manager.dataDir (level + 1) outs[j]
        (store.manager.nextFileNumber + j) ∧ outs[j].lookup key = some entry := by
  rw [run.mem_files levelled.filed]
  have keptVersion : ∀ file ∈ store.manager.files, file ∉ sources ++ targets →
      versionAt store'.tables key file.filepath = versionAt store.tables key file.filepath := fun file member left => by
    rw [versionAt, run.kept_table levelled.filed member left, versionAt]
  have output : ∀ (j : Nat) (bound : j < outs.length), versionAt store'.tables key (outputMetaOf io store.manager.dataDir
      (level + 1) outs[j] (store.manager.nextFileNumber + j)).filepath = outs[j].lookup key := fun j bound => by
    simp only [versionAt, outputMetaOf, run.output_table levelled.filed bound, lossless.leaves]
  constructor
  · rintro ⟨⟨member, left⟩ | ⟨j, bound, rfl⟩, version⟩
    · exact .inl ⟨member, left, (keptVersion file member left).symm.trans version⟩
    · exact .inr ⟨j, bound, rfl, (output j bound).symm.trans version⟩
  · rintro (⟨member, left, version⟩ | ⟨j, bound, rfl, version⟩)
    · exact ⟨.inl ⟨member, left⟩, (keptVersion file member left).trans version⟩
    · exact ⟨.inr ⟨j, bound, rfl⟩, (output j bound).trans version⟩

theorem latestInput_eq_none : latestInput store.tables sources targets key = none ↔
    ∀ file ∈ sources ++ targets, versionAt store.tables key file.filepath = none := by
  simp [latestInput, List.findSome?_eq_none_iff, or_imp, forall_and]

section
variable (run : CompactionRun pf io store store' level sources targets fileData outs) (lossless : io.Lossless)
  (before : Searchable store) (after : Searchable store')
include run before

include lossless after in
theorem newest_of_unread
    (unread : latestInput store.tables sources targets key = none) :
    newestEntry pf store' key = newestEntry pf store key := by
  refine Option.ext fun entry => ?_
  rw [after.newestEntry_eq_some, before.newestEntry_eq_some]
  refine FirstHit.congr_holders (fun file version => ?_) entry
  rw [run.holds_after lossless before.toLevelled]
  constructor
  · rintro (⟨member, -, found⟩ | ⟨j, bound, -, found⟩)
    · exact ⟨member, found⟩
    · have := (run.output_holds.mp ⟨_, List.getElem_mem bound, found⟩).2.2
      rw [unread] at this
      cases this
  · rintro ⟨member, found⟩
    refine .inl ⟨member, fun input => ?_, found⟩
    rw [latestInput_eq_none.mp unread file input] at found
    cases found

include lossless after in
theorem newest_of_above {above : SSTableMeta} (member : above ∈ store.manager.files)
    (left : above ∉ sources ++ targets) (held : (versionAt store.tables key above.filepath).isSome)
    (high : above.level ≤ level) : newestEntry pf store' key = newestEntry pf store key := by
  obtain ⟨lo, hi, selection⟩ := run.selection
  cases newest : newestEntry pf store key with
  | none => simp [(newestEntry_eq_none pf).mp newest above member] at held
  | some entry =>
    obtain ⟨first, inFiles, found, front⟩ := before.newestEntry_eq_some pf |>.mp newest
    have top : first.level ≤ above.level := by
      rcases front above member held with rfl | newer
      · exact le_rfl
      · rcases newer with less | same
        · exact less.le
        · exact same.1.le
    have unselected : first ∉ sources ++ targets := by
      intro input
      rcases List.mem_append.mp input with source | target
      · have atSource := (selection.source first source).2
        by_cases zero : level = 0
        · refine left (List.mem_append_left _ ?_)
          have := before.levels above member
          rw [selection.whole zero]
          exact mem_getFilesAtLevel.mpr ⟨member, by omega⟩
        · have valid := run.valid
          have same := before.holder_unique inFiles member (by omega) (by omega) (by simp [found]) held
          exact left (same ▸ input)
      · have := (selection.target_mem.mp target).2.1
        omega
    rw [after.newestEntry_eq_some]
    refine ⟨first, ((run.holds_after lossless before.toLevelled first).mpr (.inl ⟨inFiles, unselected, found⟩)).1,
      ((run.holds_after lossless before.toLevelled first).mpr (.inl ⟨inFiles, unselected, found⟩)).2, fun other inside holds => ?_⟩
    obtain ⟨version, isVersion⟩ := Option.isSome_iff_exists.mp holds
    rcases (run.holds_after lossless before.toLevelled other).mp ⟨inside, isVersion⟩ with ⟨old, -, same⟩ | ⟨j, bound, rfl, -⟩
    · exact front other old (by simp [same])
    · exact .inr (.inl (by simp only [outputMetaOf]; omega))

theorem below_target (latest : latestInput store.tables sources targets key = some entry)
    (exposed : ∀ file ∈ store.manager.files, file ∉ sources ++ targets →
      (versionAt store.tables key file.filepath).isSome → level < file.level)
    (file : SSTableMeta) (member : file ∈ store.manager.files) (left : file ∉ sources ++ targets)
    (held : (versionAt store.tables key file.filepath).isSome) : level + 1 < file.level := by
  obtain ⟨lo, hi, selection⟩ := run.selection
  have deeper := exposed file member left held
  by_contra shallow
  have unselected : file ∉ targets := fun target => left (List.mem_append_right _ target)
  obtain ⟨input, inputs, found⟩ := List.exists_of_findSome?_eq_some latest
  have inInputs : input ∈ sources ++ targets := by simpa using inputs
  obtain ⟨table, recorded⟩ := before.recorded file member
  obtain ⟨inputTable, inputRecorded⟩ := before.recorded input (selection.input_mem inInputs)
  obtain ⟨low, high⟩ := version_inside recorded held
  obtain ⟨inputLow, inputHigh⟩ := version_inside inputRecorded (Option.isSome_iff_exists.mpr ⟨entry, found⟩)
  rcases selection.beside before.toLevelled run.valid member (by omega) unselected with above | below
  · exact absurd (low.trans inputHigh) (not_le.mpr (above input inInputs))
  · exact absurd (inputLow.trans high) (not_le.mpr (below input inInputs))

omit run in
theorem key_named {file : SSTableMeta} (member : file ∈ store.manager.files) (deep : 1 ≤ file.level)
    (held : (versionAt store.tables key file.filepath).isSome) : key ≠ [] := by
  rintro rfl
  obtain ⟨table, recorded⟩ := before.recorded file member
  exact before.named file member deep (le_antisymm (version_inside recorded held).1 (nil_le _))

include lossless in
theorem newest_none (outputs : ∀ table ∈ outs, table.lookup key = none)
    (others : ∀ file ∈ store.manager.files, file ∉ sources ++ targets →
      ¬ (versionAt store.tables key file.filepath).isSome) : newestEntry pf store' key = none := by
  refine (newestEntry_eq_none pf).mpr fun file member => ?_
  by_contra held
  obtain ⟨version, found⟩ := Option.ne_none_iff_exists'.mp held
  rcases (run.holds_after lossless before.toLevelled file).mp ⟨member, found⟩ with ⟨old, left, same⟩ | ⟨j, bound, -, same⟩
  · exact others file old left (by simp [same])
  · simp [outputs _ (List.getElem_mem bound)] at same

include lossless after in
theorem newest_output {table : SSTable} (output : table ∈ outs) (found : table.lookup key = some entry)
    (below : ∀ file ∈ store.manager.files, file ∉ sources ++ targets →
      (versionAt store.tables key file.filepath).isSome → level + 1 < file.level) :
    newestEntry pf store' key = some entry := by
  have valid := run.valid
  obtain ⟨j, bound, rfl⟩ := List.getElem_of_mem output
  obtain ⟨inFiles, version⟩ := (run.holds_after lossless before.toLevelled _).mpr (.inr ⟨j, bound, rfl, found⟩)
  rw [after.newestEntry_eq_some]
  refine ⟨_, inFiles, version, fun other inside held => ?_⟩
  obtain ⟨otherVersion, isVersion⟩ := Option.isSome_iff_exists.mp held
  rcases (run.holds_after lossless before.toLevelled other).mp ⟨inside, isVersion⟩ with ⟨old, left, same⟩ | ⟨i, boundI, rfl, -⟩
  · exact .inr (.inl (below other old left (by simp [same])))
  · exact .inl (after.holder_unique inside inFiles (by simp only [outputMetaOf]; omega) rfl held (by simp [version]))

include lossless after in
theorem visible_after (latest : latestInput store.tables sources targets key = some entry)
    (exposed : ∀ file ∈ store.manager.files, file ∉ sources ++ targets →
      (versionAt store.tables key file.filepath).isSome → level < file.level) :
    (newestEntry pf store' key).bind BlockEntry.visible = if key = [] then none else entry.visible := by
  have valid := run.valid
  have below := below_target run before latest exposed
  have taken : ∀ table ∈ outs, ∀ version, table.lookup key = some version →
      key ≠ [] ∧ kept (level + 1 = store.manager.maxLevel - 1) version = true ∧ version = entry := by
    intro table output version found
    obtain ⟨named, keeps, latest'⟩ := run.output_holds.mp ⟨table, output, found⟩
    exact ⟨named, keeps, Option.some.inj (latest'.symm.trans latest)⟩
  split_ifs with empty
  · rw [newest_none run lossless before]
    · rfl
    · exact fun table output => Option.eq_none_iff_forall_ne_some.mpr fun version found =>
        (taken table output version found).1 empty
    · intro file member left held
      have := below file member left held
      exact key_named before member (by omega) held empty
  cases keeps : kept (level + 1 = store.manager.maxLevel - 1) entry with
  | true =>
    obtain ⟨table, output, found⟩ := run.output_holds.mpr ⟨empty, keeps, latest⟩
    rw [newest_output run lossless before after output found below]
    rfl
  | false =>
    obtain ⟨tombstone, bottom⟩ : entry.isTombstone = true ∧ level + 1 = store.manager.maxLevel - 1 := by
      simpa [kept] using keeps
    rw [newest_none run lossless before]
    · simp [BlockEntry.visible, tombstone]
    · refine fun table output => Option.eq_none_iff_forall_ne_some.mpr fun version found => ?_
      obtain ⟨-, keeps', rfl⟩ := taken table output version found
      rw [keeps] at keeps'
      cases keeps'
    · intro file member left held
      have := below file member left held
      have := before.levels file member
      omega

theorem newest_before (latest : latestInput store.tables sources targets key = some entry)
    (exposed : ∀ file ∈ store.manager.files, file ∉ sources ++ targets →
      (versionAt store.tables key file.filepath).isSome → level < file.level)
    (single : level ≠ 0 ∨ (sources.findSome? fun file => versionAt store.tables key file.filepath) = none) :
    newestEntry pf store key = some entry := by
  have valid := run.valid
  have below := below_target run before latest exposed
  obtain ⟨lo, hi, selection⟩ := run.selection
  have order : ∀ file ∈ sources ++ targets, versionAt store.tables key file.filepath = some entry →
      (∀ other ∈ sources ++ targets, (versionAt store.tables key other.filepath).isSome →
        other = file ∨ Newer file other) → file.level ≤ level + 1 → newestEntry pf store key = some entry := by
    intro file input found front shallow
    rw [before.newestEntry_eq_some]
    refine ⟨file, selection.input_mem input, found, fun other member held => ?_⟩
    by_cases inputs : other ∈ sources ++ targets
    · exact front other inputs held
    · exact .inr (.inl (shallow.trans_lt (below other member inputs held)))
  rw [latestInput, List.findSome?_append] at latest
  cases source : sources.findSome? fun file => versionAt store.tables key file.filepath with
  | some version =>
    rw [source] at latest single
    obtain ⟨file, rfl⟩ := selection.single (single.resolve_right (by simp))
    obtain rfl : version = entry := Option.some.inj latest
    have atSource := (selection.source file (by simp)).2
    refine order file (by simp) (by simpa using source) (fun other input _ => ?_) (by omega)
    rcases List.mem_append.mp input with source | target
    · exact .inl (List.mem_singleton.mp source)
    · have := (selection.target_mem.mp target).2.1
      exact .inr (.inl (by omega))
  | none =>
    rw [source, Option.none_or] at latest
    obtain ⟨file, inTargets, found⟩ := List.exists_of_findSome?_eq_some latest
    rw [List.mem_reverse] at inTargets
    obtain ⟨inFiles, atTarget, -⟩ := selection.target_mem.mp inTargets
    refine order file (List.mem_append_right _ inTargets) found (fun other input held => ?_) (by omega)
    rcases List.mem_append.mp input with inSources | target
    · rw [List.findSome?_eq_none_iff.mp source other inSources] at held
      cases held
    · obtain ⟨otherFiles, otherTarget, -⟩ := selection.target_mem.mp target
      exact .inl (before.holder_unique otherFiles inFiles (by omega) (by omega) held (by simp [found]))

include lossless after in
theorem visible_deep (deep : 1 ≤ level) (key : Bytes) :
    (newestEntry pf store' key).bind BlockEntry.visible = (newestEntry pf store key).bind BlockEntry.visible := by
  obtain ⟨lo, hi, selection⟩ := run.selection
  by_cases exposed : ∀ file ∈ store.manager.files, file ∉ sources ++ targets →
      (versionAt store.tables key file.filepath).isSome → level < file.level
  · cases latest : latestInput store.tables sources targets key with
    | none => rw [newest_of_unread run lossless before after latest]
    | some entry =>
      obtain ⟨input, inputs, found⟩ := List.exists_of_findSome?_eq_some latest
      have named : key ≠ [] := by
        have inInputs : input ∈ sources ++ targets := by simpa using inputs
        refine key_named before (selection.input_mem inInputs) ?_ (by simp [found])
        rcases List.mem_append.mp inInputs with source | target
        · exact (selection.source input source).2 ▸ deep
        · have := (selection.target_mem.mp target).2.1
          omega
      rw [visible_after run lossless before after latest exposed, if_neg named,
        newest_before run before latest exposed (.inl (by omega))]
      rfl
  · simp only [not_forall, not_lt] at exposed
    obtain ⟨above, member, left, held, high⟩ := exposed
    rw [newest_of_above run lossless before after member left held high]

end

end CompactionManager.CompactionRun

section Level0
variable (pf : Platform) (store : Store) (key : Bytes)

def newestFlushed : Option BlockEntry :=
  (pf.sort searchedBefore (store.manager.filesAt 0)).findSome? fun file => versionAt store.tables key file.filepath

/-- The version in the first file of level 0 that holds the key, in the order of `GetFilesAtLevel`. -/
def firstFlushed : Option BlockEntry :=
  (store.manager.getFilesAtLevel pf 0).findSome? fun file => versionAt store.tables key file.filepath

def MergeTakesNewest : Prop :=
  (if key = [] then none else (firstFlushed pf store key).bind BlockEntry.visible) =
    (newestFlushed pf store key).bind BlockEntry.visible

instance : Decidable (MergeTakesNewest pf store key) := inferInstanceAs (Decidable (_ = _))

variable {pf store key}

theorem firstFlushed_eq_none : firstFlushed pf store key = none ↔ newestFlushed pf store key = none := by
  simp only [firstFlushed, newestFlushed, List.findSome?_eq_none_iff, mem_getFilesAtLevel, pf.mem_sort, mem_filesAt]

theorem newestEntry_of_flushed (searchable : Searchable store) {entry : BlockEntry}
    (newest : newestFlushed pf store key = some entry) : newestEntry pf store key = some entry := by
  obtain ⟨file, member, found, front⟩ := (searchable.search_eq_some pf List.filter_sublist.subset).mp newest
  obtain ⟨inFiles, zero⟩ := mem_filesAt.mp member
  rw [searchable.newestEntry_eq_some]
  refine ⟨file, inFiles, found, fun other inside held => ?_⟩
  have := (searchable.levels other inside).1
  by_cases flushed : other.level = 0
  · exact front other (mem_filesAt.mpr ⟨inside, flushed⟩) held
  · exact .inr (.inl (by omega))

theorem CompactionManager.CompactionRun.visible_level0 {store' : Store} {sources targets : List SSTableMeta}
    {fileData : List (SSTableMeta × SSTable)} {outs : List SSTable} {io : Faults}
    (run : CompactionRun pf io store store' 0 sources targets fileData outs) (lossless : io.Lossless)
    (before : Searchable store) (after : Searchable store') (key : Bytes) :
    (newestEntry pf store' key).bind BlockEntry.visible = (newestEntry pf store key).bind BlockEntry.visible ↔
      MergeTakesNewest pf store key := by
  obtain ⟨lo, hi, selection⟩ := run.selection
  have exposed : ∀ file ∈ store.manager.files, file ∉ sources ++ targets →
      (versionAt store.tables key file.filepath).isSome → 0 < file.level := by
    intro file member left _
    have := (before.levels file member).1
    by_contra low
    refine left (List.mem_append_left _ ?_)
    rw [selection.whole rfl]
    exact mem_getFilesAtLevel.mpr ⟨member, by omega⟩
  have sourced : (sources.findSome? fun file => versionAt store.tables key file.filepath) =
      firstFlushed pf store key := by
    rw [selection.whole rfl, firstFlushed]
  cases first : firstFlushed pf store key with
  | none =>
    have newest := firstFlushed_eq_none.mp first
    have takes : MergeTakesNewest pf store key := by simp [MergeTakesNewest, first, newest]
    refine iff_of_true ?_ takes
    cases latest : latestInput store.tables sources targets key with
    | none => rw [newest_of_unread run lossless before after latest]
    | some entry =>
      rw [← sourced] at first
      have target : (targets.reverse.findSome? fun file => versionAt store.tables key file.filepath) = some entry := by
        rwa [latestInput, List.findSome?_append, first, Option.none_or] at latest
      obtain ⟨file, inTargets, found⟩ := List.exists_of_findSome?_eq_some target
      obtain ⟨inFiles, atTarget, -⟩ := selection.target_mem.mp (List.mem_reverse.mp inTargets)
      have named : key ≠ [] := key_named before inFiles (by omega) (by simp [found])
      rw [visible_after run lossless before after latest exposed, if_neg named,
        newest_before run before latest exposed (.inr first)]
      rfl
  | some entry =>
    have held : newestFlushed pf store key ≠ none := by
      rw [ne_eq, ← firstFlushed_eq_none, first]
      simp
    obtain ⟨newest, isNewest⟩ := Option.ne_none_iff_exists'.mp held
    have latest : latestInput store.tables sources targets key = some entry := by
      rw [latestInput, List.findSome?_append, sourced, first, Option.some_or]
    rw [visible_after run lossless before after latest exposed, newestEntry_of_flushed before isNewest, MergeTakesNewest, first,
      isNewest]
    rfl

end Level0

section Preservation
variable {pf : Platform} {io : Faults} {dataDir : Path} {maxLevel : Int} {store store' : Store} {stats : CompactionStats}

/-- A compaction of level 0 changes no lookup in the bytes exactly if the first file in key order has, for every
key but the empty one, what the latest flushed file has, and the empty key is not live there. -/
theorem level0_compaction_preserves_iff (reachable : Reachable pf InFlushOrder dataDir maxLevel store)
    (modest : ModestFiles store) (lossless : io.Lossless) (level0 : store.manager.pickCompactionLevel = 0)
    (ran : runCompaction pf io store = .ok stats store') :
    (∀ key, getFromFiles pf (diskFiles store'.tables) store'.manager.files key =
        getFromFiles pf (diskFiles store.tables) store.manager.files key) ↔
      ∀ key, MergeTakesNewest pf store key := by
  have before := reachable.searchable
  have after := (Reachable.compact reachable lossless ran).searchable
  have modest' := runCompaction_modest modest ran
  obtain ⟨level, sources, targets, fileData, outs, run⟩ := runCompaction_ok ran
  obtain rfl : level = 0 := run.picked.symm.trans level0
  refine forall_congr' fun key => ?_
  rw [(modest'.readable after.recorded).getFromFiles_eq (storedAsBytes_diskFiles _),
    (modest.readable before.recorded).getFromFiles_eq (storedAsBytes_diskFiles _), getFromSSTables_eq pf after.toLevelled,
    getFromSSTables_eq pf before.toLevelled, Option.some.injEq, Except.ok.injEq]
  exact run.visible_level0 lossless before after key

end Preservation

theorem flushTables_version {table : SSTable} {n : Nat} {file : SSTableMeta}
    (member : file ∈ (flushTables [] 7 (List.replicate n table)).manager.files) (key : Bytes) :
    versionAt (flushTables [] 7 (List.replicate n table)).tables key file.filepath = table.lookup key := by
  rw [flushTables_manager] at member
  obtain ⟨⟨flushed, seq⟩, inZip, rfl⟩ := List.mem_map.mp member
  have : flushed = table := List.eq_of_mem_replicate (List.fst_mem_of_mem_zipIdx inZip)
  subst this
  simp only [versionAt, flushMeta, flushTables_table flushed seq inZip]

theorem mergeTakesNewest_same {pf : Platform} {table : SSTable} (named : table.lookup [] = none) (n : Nat) (key : Bytes) :
    MergeTakesNewest pf (flushTables [] 7 (List.replicate n table)) key := by
  cases first : firstFlushed pf (flushTables [] 7 (List.replicate n table)) key with
  | none => simp [MergeTakesNewest, first, firstFlushed_eq_none.mp first]
  | some entry =>
    have held : newestFlushed pf (flushTables [] 7 (List.replicate n table)) key ≠ none := by
      rw [ne_eq, ← firstFlushed_eq_none, first]
      simp
    obtain ⟨newest, isNewest⟩ := Option.ne_none_iff_exists'.mp held
    obtain ⟨file, member, found⟩ := List.exists_of_findSome?_eq_some first
    obtain ⟨other, inside, found'⟩ := List.exists_of_findSome?_eq_some isNewest
    rw [flushTables_version (mem_getFilesAtLevel.mp member).1] at found
    rw [flushTables_version (mem_filesAt.mp ((pf.mem_sort _ _ _).mp inside)).1, found] at found'
    have filled : key ≠ [] := by
      rintro rfl
      rw [named] at found
      cases found
    rw [MergeTakesNewest, if_neg filled, first, isNewest, found']

theorem level0_compaction_preserves_same_keys : ∃ stats store',
    runCompaction Platform.reference .none fourFlushes = .ok stats store' ∧
    ∀ key, getFromFiles Platform.reference (diskFiles store'.tables) store'.manager.files key =
      getFromFiles Platform.reference (diskFiles fourFlushes.tables) fourFlushes.manager.files key := by
  obtain ⟨stats, store', ran⟩ := fourFlushes_compacts
  refine ⟨stats, store', ran, ?_⟩
  refine (level0_compaction_preserves_iff fourFlushes_reachable ?_ Faults.lossless_none (flushTables_pick (by simp))
    ran).mpr fun key => mergeTakesNewest_same rfl 4 key
  intro file member table stored
  obtain rfl := List.eq_of_mem_replicate (flushTables_complete stored)
  exact ⟨by decide, by decide⟩

def reorderedFlushes : List SSTable :=
  [⟨[⟨[97], [1], false⟩, ⟨[98], [1], false⟩], by simp, by decide, by simp⟩, oneEntry [98] [2], oneEntry [99] [3],
    oneEntry [100] [4]]

theorem reorderedFlushes_lost :
    ¬ MergeTakesNewest Platform.reference (flushTables [] 7 reorderedFlushes) [98] := by
  decide +kernel

theorem level0_compaction_changes_lookup :
    ¬ ∀ (pf : Platform) (io : Faults) (dataDir : Path) (maxLevel : Int) (store store' : Store) (stats : CompactionStats),
      Reachable pf InFlushOrder dataDir maxLevel store → store.manager.pickCompactionLevel = 0 →
      runCompaction pf io store = .ok stats store' →
      ∀ key, getFromSSTables pf .none store' key = getFromSSTables pf .none store key := by
  intro preserved
  have reached : Reachable Platform.reference InFlushOrder [] 7 (flushTables [] 7 reorderedFlushes) :=
    flushTables_reachable _ _ (by decide) _
  obtain ⟨stats, store', ran⟩ : Action.Succeeds (runCompaction Platform.reference .none)
      (flushTables [] 7 reorderedFlushes) := flushTables_compacts _ _ (by decide) (by simp [reorderedFlushes])
  have picked : (flushTables [] 7 reorderedFlushes).manager.pickCompactionLevel = 0 :=
    flushTables_pick (by simp [reorderedFlushes])
  have same := preserved _ _ _ _ _ _ _ reached picked ran [98]
  have before := reached.searchable
  have after := (Reachable.compact reached Faults.lossless_none ran).searchable
  obtain ⟨level, sources, targets, fileData, outs, run⟩ := runCompaction_ok ran
  obtain rfl : level = 0 := run.picked.symm.trans picked
  rw [getFromSSTables_eq _ after.toLevelled, getFromSSTables_eq _ before.toLevelled, Except.ok.injEq] at same
  exact reorderedFlushes_lost ((run.visible_level0 Faults.lossless_none before after [98]).mp same)

section LargeValue
open SSTableWriter

theorem sizeBytes_oneEntry (key value : Bytes) :
    (oneEntry key value).sizeBytes = 97 + 2 * key.length + value.length := by
  have blocks : dataBlocks [⟨key, value, false⟩] =
      ⟨[⟨[⟨key, value, false⟩], 4 + BlockEntry.encodedSize ⟨key, value, false⟩⟩],
        Block.serialize ⟨[⟨key, value, false⟩], 4 + BlockEntry.encodedSize ⟨key, value, false⟩⟩,
        [⟨key, 0, (Block.serialize ⟨[⟨key, value, false⟩], 4 + BlockEntry.encodedSize ⟨key, value, false⟩⟩).length % 2 ^ 32⟩],
        Block.empty,
        (Block.serialize ⟨[⟨key, value, false⟩], 4 + BlockEntry.encodedSize ⟨key, value, false⟩⟩).length, 1⟩ := by
    simp [dataBlocks, Progress.addEntry, Block.add, Block.empty, Progress.start, Progress.flushBlock, Block.lastKey]
  have sized := (BloomFilter.addAll_holds [key] (BloomFilter.new_sized 1 10)).1.bytes
  rw [(BloomFilter.addAll_numBits _ _).1] at sized
  have bits : ((BloomFilter.new 1 10).addAll [key]).bits.length = 8 := by
    have : (BloomFilter.new 1 10).numBits = 64 := by decide
    omega
  have bloom : (bloomBlock (bloomFilter [⟨key, value, false⟩])).length = 16 := by
    simp [bloomBlock, bloomFilter, BinarySerializer.writeUint32, bits, littleEndian_length]
  simp only [SSTable.sizeBytes, SSTable.bytes, oneEntry, SSTableWriter.write, List.cons_ne_nil, if_false, blocks, List.length_append, bloom]
  simp [footer, indexBlock, writeIndexEntry, Block.serialize_eq, Block.encode_length, BlockEntry.encodedSize,
    BinarySerializer.writeUint32, BinarySerializer.writeUint64, littleEndian_length]
  omega

variable {pf : Platform} {io : Faults} {table : SSTable} {store' : Store} {sources targets : List SSTableMeta}
  {fileData : List (SSTableMeta × SSTable)} {outs : List SSTable}

theorem merge_same_tables {store : Store} {level : Int}
    (run : CompactionRun pf io store store' level sources targets fileData outs)
    (versions : ∀ file ∈ sources ++ targets, ∀ key, versionAt store.tables key file.filepath = table.lookup key)
    (above : level + 1 ≠ store.manager.maxLevel - 1) (named : table.lookup [] = none) :
    outs.flatMap SSTable.entries = table.entries := by
  refine ascending_ext _ run.merged.ascending table.ascending fun key => Option.ext fun entry => ?_
  have latest : latestInput store.tables sources targets key = table.lookup key := by
    cases found : table.lookup key with
    | none => exact CompactionRun.latestInput_eq_none.mpr fun file member => (versions file member key).trans found
    | some version =>
      obtain ⟨first, rest, rfl⟩ := List.exists_cons_of_ne_nil run.nonempty
      rw [latestInput, List.cons_append, List.findSome?_cons, versions first (by simp), found]
  rw [run.merged.latest, run.latest_iff, latest]
  simp only [kept, SSTable.lookup] at named ⊢
  constructor
  · exact fun found => found.2.2
  · refine fun found => ⟨?_, by simp [above], found⟩
    rintro rfl
    rw [named] at found
    cases found

theorem merge_one_entry {store : Store} {level : Int} {key value : Bytes}
    (run : CompactionRun pf io store store' level sources targets fileData outs)
    (versions : ∀ file ∈ sources ++ targets, ∀ other, versionAt store.tables other file.filepath =
      (oneEntry key value).lookup other)
    (above : level + 1 ≠ store.manager.maxLevel - 1) (named : key ≠ []) : outs = [oneEntry key value] := by
  have entries := merge_same_tables run versions above (by simp [SSTable.lookup, oneEntry, find_cons, named])
  obtain ⟨merged, rfl⟩ : ∃ merged, outs = [merged] := by
    rcases outs with _ | ⟨first, _ | ⟨second, rest⟩⟩
    · simp [oneEntry] at entries
    · exact ⟨first, rfl⟩
    · have := congrArg List.length entries
      have := List.length_pos_iff.mpr first.nonempty
      have := List.length_pos_iff.mpr second.nonempty
      simp [oneEntry] at *
      omega
  rw [show merged = oneEntry key value from SSTable.ext (by simpa using entries)]

theorem compacted_files {n : Nat}
    (run : CompactionRun pf io (flushTables [] 7 (List.replicate n table)) store' 0 sources targets fileData outs) :
    store'.manager.files = outputMetasFrom io [] 1 1 outs := by
  have levelled := (flushTables_reachable [] pf (by decide : (1 : Int) ≤ 7) (List.replicate n table)).levelled
  obtain ⟨lo, hi, selection⟩ := run.selection
  have merged : ∀ file ∈ (flushTables [] 7 (List.replicate n table)).manager.files,
      file.filepath ∈ (sources ++ targets).map SSTableMeta.filepath := by
    intro file member
    refine List.mem_map_of_mem (List.mem_append_left _ ?_)
    rw [selection.whole rfl, mem_getFilesAtLevel]
    refine ⟨member, ?_⟩
    rw [flushTables_manager] at member
    obtain ⟨pair, -, rfl⟩ := List.mem_map.mp member
    rfl
  have fresh : ∀ file ∈ outputMetasFrom io [] 1 1 outs, file.filepath ∉ (sources ++ targets).map SSTableMeta.filepath := by
    intro file member
    obtain ⟨j, bound, rfl⟩ := mem_outputMetasFrom.mp member
    have := run.output_fresh levelled.filed j
    rwa [flushTables_manager] at this
  rw [run.manager]
  dsimp only
  rw [List.filter_append, List.filter_eq_nil_iff.mpr fun file member => ?_, List.nil_append, flushTables_manager]
  · exact List.filter_eq_self.mpr fun file member => decide_eq_true (fresh file member)
  · rw [decide_eq_true_eq, not_not]
    exact merged file member

theorem large_value_files {value : Bytes} (run : CompactionRun pf .none (flushTables [] 7
      (List.replicate 4 (oneEntry [97] value))) store' 0 sources targets fileData outs) :
    outs = [oneEntry [97] value] ∧ store'.manager.files = [outputMetaOf .none [] 1 (oneEntry [97] value) 1] := by
  obtain ⟨lo, hi, selection⟩ := run.selection
  obtain rfl := merge_one_entry run (fun file member => flushTables_version (selection.input_mem member))
    (by simp [flushTables_manager]) (by simp)
  exact ⟨rfl, compacted_files run⟩

theorem large_value_picked {value : Bytes} (length : value.length = 11 * 1024 * 1024) (manager : CompactionManager)
    (files : manager.files = [outputMetaOf .none [] 1 (oneEntry [97] value) 1]) (max : manager.maxLevel = 7) :
    manager.pickCompactionLevel = 1 := by
  have size := sizeBytes_oneEntry [97] value
  rw [length, List.length_singleton] at size
  have total : manager.totalBytesAtLevel 1 = (oneEntry [97] value).sizeBytes := by
    have whole : (oneEntry [97] value).sizeBytes % 2 ^ 64 = (oneEntry [97] value).sizeBytes := by omega
    rw [totalBytesAtLevel, filesAt, files]
    simp only [outputMetaOf, decide_true, List.filter_cons_of_pos, List.filter_nil, List.foldl_cons, List.foldl_nil,
      Nat.zero_add]
    exact whole
  have levels : manager.sizedLevels = 1 :: [2, 3, 4, 5] := by
    rw [sizedLevels, max]
    decide
  have few : ¬ manager.level0FileCount ≥ leveled.kLevel0CompactionTrigger := by
    rw [level0FileCount, files]
    simp [outputMetaOf, leveled.kLevel0CompactionTrigger]
  have large : leveled.maxBytesForLevel 1 < manager.totalBytesAtLevel 1 := by
    rw [total, size]
    simp [leveled.maxBytesForLevel, leveled.kLevel1MaxBytes]
  rw [pickCompactionLevel, if_neg few, levels, List.find?_cons_of_pos (by simpa using large)]
  rfl

theorem large_value_compacted : ∃ value store file, value.length = 11 * 1024 * 1024 ∧ Reachable Platform.reference InFlushOrder [] 7 store ∧
    store.manager.pickCompactionLevel = 1 ∧ (∀ io : Faults, io.Silent → Action.Succeeds (runCompaction .reference io) store) ∧
    store.manager.files = [file] ∧ store.tables file.filepath = some (.complete (oneEntry [97] value)) := by
  obtain ⟨value, length⟩ : ∃ value : Bytes, value.length = 11 * 1024 * 1024 :=
    ⟨List.replicate _ 0, List.length_replicate⟩
  have flushed : Reachable Platform.reference InFlushOrder [] 7
      (flushTables [] 7 (List.replicate 4 (oneEntry [97] value))) := flushTables_reachable _ _ (by decide) _
  obtain ⟨stats, store, ran⟩ : Action.Succeeds (runCompaction Platform.reference .none)
      (flushTables [] 7 (List.replicate 4 (oneEntry [97] value))) := flushTables_compacts _ _ (by decide) (by simp)
  have reached := Reachable.compact flushed Faults.lossless_none ran
  obtain ⟨level, sources, targets, fileData, outs, run⟩ := runCompaction_ok ran
  obtain rfl : level = 0 := run.picked.symm.trans (flushTables_pick (by simp))
  obtain ⟨rfl, files⟩ := large_value_files run
  have max : store.manager.maxLevel = 7 := reached.manager.2
  have picked := large_value_picked length store.manager files max
  refine ⟨value, store, _, length, reached, picked, fun io silent => ?_, files, ?_⟩
  · refine runCompaction_succeeds silent (by simp [needsCompaction, picked]) (by omega) fun file member => ?_
    obtain ⟨table, recorded⟩ := reached.levelled.recorded file member
    exact ⟨table, recorded.1⟩
  · have stored := run.output_table flushed.levelled.filed (j := 0) (by simp)
    rwa [flushTables_manager] at stored

end LargeValue

end VectorDb.Storage
