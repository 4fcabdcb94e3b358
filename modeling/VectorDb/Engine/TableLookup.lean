import VectorDb.Compaction.LevelInvariant

namespace VectorDb.Storage
open Lib Common CompactionManager

def versionAt (tables : Tables) (key : Bytes) (path : Path) : Option BlockEntry :=
  match tables path with
  | some (.complete table) => table.lookup key
  | _ => none

namespace StorageEngine

variable (pf : Platform) (io : Faults)

/-- The comparator of `GetFromSSTables`. -/
def searchedBefore (a b : SSTableMeta) : Bool :=
  if a.level ≠ b.level then decide (a.level < b.level) else decide (a.sequenceNumber > b.sequenceNumber)

def searchTables (tables : Tables) (key : Bytes) : List SSTableMeta → ErrorOr (Option Bytes)
  | [] => .ok none
  | file :: files =>
    if key < file.smallestKey ∨ key > file.largestKey then searchTables tables key files
    else do
      let table ← openTable io tables file.filepath
      match table.lookup key with
      | some entry => if entry.isTombstone then .ok none else .ok (some entry.value)
      | none => searchTables tables key files

def getFromSSTables (store : Store) (key : Bytes) : ErrorOr (Option Bytes) :=
  searchTables io store.tables key (pf.sort searchedBefore store.manager.files)

/-- The entry `GetFromSSTables` stops at. -/
def newestEntry (store : Store) (key : Bytes) : Option BlockEntry :=
  (pf.sort searchedBefore store.manager.files).findSome? fun file => versionAt store.tables key file.filepath

theorem newestEntry_congr {store store' : Store} (files : store'.manager.files = store.manager.files)
    (tables : ∀ file ∈ store.manager.files, store'.tables file.filepath = store.tables file.filepath) (key : Bytes) :
    newestEntry pf store' key = newestEntry pf store key := by
  rw [newestEntry, newestEntry, files]
  apply findSome_congr
  intro file member
  rw [versionAt, versionAt, tables file ((pf.sort_perm _ _).mem_iff.mp member)]

def Newer (a b : SSTableMeta) : Prop :=
  a.level < b.level ∨ a.level = b.level ∧ b.sequenceNumber < a.sequenceNumber

theorem searchedBefore_iff (a b : SSTableMeta) : searchedBefore a b = true ↔ Newer a b := by
  by_cases same : a.level = b.level <;> simp [searchedBefore, Newer, same]

theorem newer_asymm (a b : SSTableMeta) (newer : Newer a b) : ¬ Newer b a := by
  unfold Newer at *
  omega

theorem searchedBefore_strictWeakOrder : StrictWeakOrder searchedBefore := by
  constructor
  · intro a b before
    rw [← Bool.not_eq_true, searchedBefore_iff]
    exact newer_asymm a b ((searchedBefore_iff a b).mp before)
  · intro a b c
    simp only [searchedBefore_iff, Newer]
    omega

theorem sorted_not_newer (files : List SSTableMeta) :
    (pf.sort searchedBefore files).Pairwise fun a b => ¬ Newer b a := by
  refine (pf.sort_sorted _ searchedBefore_strictWeakOrder _).imp fun {a b} order => ?_
  rw [← searchedBefore_iff, order]
  simp

theorem versionAt_recorded {tables : Tables} {file : SSTableMeta} {table : SSTable}
    (recorded : Recorded tables file table) (key : Bytes) : versionAt tables key file.filepath = table.lookup key := by
  rw [versionAt, recorded.1]

theorem version_inside {tables : Tables} {file : SSTableMeta} {table : SSTable} (recorded : Recorded tables file table)
    {key : Bytes} (held : (versionAt tables key file.filepath).isSome) :
    file.smallestKey ≤ key ∧ key ≤ file.largestKey := by
  rw [versionAt_recorded recorded] at held
  obtain ⟨entry, found⟩ := Option.isSome_iff_exists.mp held
  obtain ⟨member, rfl⟩ := find_some _ found
  exact recorded.inside member

/-- The version of a key that a lookup sees in a file, which it skips outside the recorded range. -/
def entryIn (tables : Tables) (key : Bytes) (file : SSTableMeta) : Option BlockEntry :=
  if key < file.smallestKey ∨ key > file.largestKey then none else versionAt tables key file.filepath

theorem entryIn_recorded {tables : Tables} {file : SSTableMeta} {table : SSTable} (recorded : Recorded tables file table)
    (key : Bytes) : entryIn tables key file = versionAt tables key file.filepath := by
  rw [entryIn]
  split
  next outside =>
    by_contra held
    have inside := version_inside recorded (Option.isSome_iff_ne_none.mpr (Ne.symm held))
    rcases outside with low | high
    · exact absurd low (not_lt.mpr inside.1)
    · exact absurd high (not_lt.mpr inside.2)
  next => rfl

def catalogueEntry (store : Store) (key : Bytes) : Option BlockEntry :=
  (pf.sort searchedBefore store.manager.files).findSome? (entryIn store.tables key)

theorem searchTables_entryIn {tables : Tables} {key : Bytes} (files : List SSTableMeta)
    (present : ∀ file ∈ files, ∃ table, tables file.filepath = some (.complete table)) :
    searchTables .none tables key files = .ok ((files.findSome? (entryIn tables key)).bind BlockEntry.visible) := by
  induction files with
  | nil => rfl
  | cons file files ih =>
    obtain ⟨table, here⟩ := present file (by simp)
    have rest := ih fun other member => present other (by simp [member])
    rw [searchTables, List.findSome?_cons, entryIn]
    split_ifs with outside
    · exact rest
    · rw [openTable_none here, versionAt, here]
      cases found : table.lookup key with
      | none => simpa [bind, Except.bind, found] using rest
      | some entry =>
        cases tombstone : entry.isTombstone <;>
          simp [bind, Except.bind, found, BlockEntry.visible, tombstone]

theorem searchTables_eq {tables : Tables} {key : Bytes} (files : List SSTableMeta)
    (recorded : ∀ file ∈ files, ∃ table, Recorded tables file table) :
    searchTables .none tables key files =
      .ok ((files.findSome? fun file => versionAt tables key file.filepath).bind BlockEntry.visible) := by
  have entries : ∀ file ∈ files, entryIn tables key file = versionAt tables key file.filepath := by
    intro file member
    obtain ⟨table, recorded⟩ := recorded file member
    exact entryIn_recorded recorded key
  rw [searchTables_entryIn _ fun file member => (recorded file member).imp fun _ here => here.1,
    findSome_congr entries]

theorem searchTables_torn {tables : Tables} {key : Bytes} (files : List SSTableMeta)
    (torn : ∀ file ∈ files, ∃ bytes, tables file.filepath = some (.torn bytes)) (value : Bytes) :
    searchTables .none tables key files ≠ .ok (some value) := by
  induction files with
  | nil => simp [searchTables]
  | cons file files ih =>
    obtain ⟨bytes, here⟩ := torn file (by simp)
    rw [searchTables]
    split_ifs with outside
    · exact ih fun other member => torn other (by simp [member])
    · have refused : ∃ status, openTable .none tables file.filepath = .error status := by
        simp only [openTable, here]
        split_ifs <;> exact ⟨_, rfl⟩
      obtain ⟨status, refused⟩ := refused
      simp [refused, bind, Except.bind]

theorem getFromSSTables_present {store : Store}
    (present : ∀ file ∈ store.manager.files, ∃ table, store.tables file.filepath = some (.complete table))
    (key : Bytes) : getFromSSTables pf .none store key = .ok ((catalogueEntry pf store key).bind BlockEntry.visible) :=
  searchTables_entryIn _ fun file member => present file ((pf.mem_sort _ _ _).mp member)

theorem catalogueEntry_recorded {store : Store}
    (recorded : ∀ file ∈ store.manager.files, ∃ table, Recorded store.tables file table) (key : Bytes) :
    catalogueEntry pf store key = newestEntry pf store key := by
  apply findSome_congr
  intro file member
  obtain ⟨table, recorded⟩ := recorded file ((pf.mem_sort _ _ _).mp member)
  exact entryIn_recorded recorded key

theorem getFromSSTables_recorded {store : Store}
    (recorded : ∀ file ∈ store.manager.files, ∃ table, Recorded store.tables file table) (key : Bytes) :
    getFromSSTables pf .none store key = .ok ((newestEntry pf store key).bind BlockEntry.visible) :=
  searchTables_eq _ fun file member => recorded file ((pf.mem_sort _ _ _).mp member)

theorem getFromSSTables_eq {store : Store} (levelled : Levelled store) (key : Bytes) :
    getFromSSTables pf .none store key = .ok ((newestEntry pf store key).bind BlockEntry.visible) :=
  getFromSSTables_recorded pf levelled.recorded key

theorem entryIn_update {tables : Tables} {path : Path} {file : SSTableMeta} (unused : file.filepath ≠ path)
    (content : Option TableFile) (key : Bytes) :
    entryIn (Function.update tables path content) key file = entryIn tables key file := by
  rw [entryIn, entryIn, versionAt, versionAt, Function.update_of_ne unused]

variable {pf} in
theorem catalogueEntry_update {store : Store} {path : Path}
    (unused : ∀ file ∈ store.manager.files, file.filepath ≠ path) (content : Option TableFile) (key : Bytes) :
    catalogueEntry pf { store with tables := Function.update store.tables path content } key =
      catalogueEntry pf store key :=
  findSome_congr fun file member => entryIn_update (unused file ((pf.mem_sort _ _ _).mp member)) content key

variable {pf} in
theorem catalogueEntry_register {store : Store} {file : SSTableMeta} {key : Bytes}
    (unused : ∀ other ∈ store.manager.files, other.filepath ≠ file.filepath)
    (front : ∀ other ∈ store.manager.files, Newer file other)
    (comparable : ∀ a ∈ store.manager.files, ∀ b ∈ store.manager.files, (entryIn store.tables key a).isSome →
      (entryIn store.tables key b).isSome → a ≠ b → Newer a b ∨ Newer b a) (content : Option TableFile) :
    catalogueEntry pf (withFiles { store with tables := Function.update store.tables file.filepath content } [file]) key =
      (entryIn (Function.update store.tables file.filepath content) key file).or (catalogueEntry pf store key) := by
  rw [← catalogueEntry_update unused content]
  refine findSome_newcomer newer_asymm (sorted_not_newer pf _) (sorted_not_newer pf _) (fun a inA b inB => ?_)
    (fun other => ?_) fun other member => front other ((pf.mem_sort _ _ _).mp member)
  · have inA := (pf.mem_sort _ _ _).mp inA
    have inB := (pf.mem_sort _ _ _).mp inB
    rw [withFiles, entryIn_update (unused a inA), entryIn_update (unused b inB)]
    exact comparable a inA b inB
  · rw [pf.mem_sort, pf.mem_sort]
    simp [withFiles]

theorem newestEntry_eq_none {store : Store} {key : Bytes} : newestEntry pf store key = none ↔
    ∀ file ∈ store.manager.files, versionAt store.tables key file.filepath = none := by
  simp only [newestEntry, List.findSome?_eq_none_iff, pf.mem_sort]

end StorageEngine

open StorageEngine

structure Searchable (store : Store) : Prop extends Levelled store where
  stamps : ∀ a ∈ store.manager.files, ∀ b ∈ store.manager.files, a.level = 0 → b.level = 0 →
    a.sequenceNumber = b.sequenceNumber → a = b

namespace Searchable

variable {store : Store}

theorem holder_unique (searchable : Searchable store) {key : Bytes} {a b : SSTableMeta} (inA : a ∈ store.manager.files)
    (inB : b ∈ store.manager.files) (deep : 1 ≤ a.level) (same : a.level = b.level)
    (heldA : (versionAt store.tables key a.filepath).isSome) (heldB : (versionAt store.tables key b.filepath).isSome) :
    a = b := by
  by_contra distinct
  obtain ⟨tableA, recordedA⟩ := searchable.recorded a inA
  obtain ⟨tableB, recordedB⟩ := searchable.recorded b inB
  obtain ⟨lowA, highA⟩ := version_inside recordedA heldA
  obtain ⟨lowB, highB⟩ := version_inside recordedB heldB
  rcases searchable.apart a inA b inB distinct same deep with before | after
  · exact absurd (lowB.trans highA) (not_le.mpr before)
  · exact absurd (lowA.trans highB) (not_le.mpr after)

theorem holders_comparable (searchable : Searchable store) {key : Bytes} (a : SSTableMeta)
    (inA : a ∈ store.manager.files) (b : SSTableMeta) (inB : b ∈ store.manager.files)
    (heldA : (versionAt store.tables key a.filepath).isSome) (heldB : (versionAt store.tables key b.filepath).isSome)
    (distinct : a ≠ b) : Newer a b ∨ Newer b a := by
  unfold Newer
  by_cases same : a.level = b.level
  · by_cases deep : 1 ≤ a.level
    · exact absurd (searchable.holder_unique inA inB deep same heldA heldB) distinct
    · have := (searchable.levels a inA).1
      have stamps : a.sequenceNumber ≠ b.sequenceNumber := fun stamp =>
        distinct (searchable.stamps a inA b inB (by omega) (by omega) stamp)
      omega
  · omega

theorem entries_comparable (searchable : Searchable store) {key : Bytes} (a : SSTableMeta)
    (inA : a ∈ store.manager.files) (b : SSTableMeta) (inB : b ∈ store.manager.files) :
    (entryIn store.tables key a).isSome → (entryIn store.tables key b).isSome → a ≠ b → Newer a b ∨ Newer b a := by
  obtain ⟨tableA, recordedA⟩ := searchable.recorded a inA
  obtain ⟨tableB, recordedB⟩ := searchable.recorded b inB
  rw [entryIn_recorded recordedA, entryIn_recorded recordedB]
  exact searchable.holders_comparable a inA b inB

theorem search_eq_some (searchable : Searchable store) (pf : Platform) {key : Bytes} {entry : BlockEntry}
    {files : List SSTableMeta} (within : files ⊆ store.manager.files) :
    ((pf.sort searchedBefore files).findSome? fun file => versionAt store.tables key file.filepath) = some entry ↔
      FirstHit (fun file => versionAt store.tables key file.filepath) Newer files entry := by
  rw [findSome_eq_some_iff newer_asymm (sorted_not_newer pf files)]
  · exact FirstHit.congr (fun file => pf.mem_sort _ _ file) entry
  · intro a inA b inB
    exact searchable.holders_comparable a (within ((pf.mem_sort _ _ _).mp inA)) b (within ((pf.mem_sort _ _ _).mp inB))

theorem newestEntry_eq_some (searchable : Searchable store) (pf : Platform) {key : Bytes} {entry : BlockEntry} :
    newestEntry pf store key = some entry ↔
      FirstHit (fun file => versionAt store.tables key file.filepath) Newer store.manager.files entry :=
  searchable.search_eq_some pf (List.Subset.refl _)

theorem register {file : SSTableMeta} {table : SSTable} (searchable : Searchable store)
    (flushed : Flushed store file table) (order : InFlushOrder store.manager file) (levels : 0 < store.manager.maxLevel) :
    Searchable (withFiles { store with
      tables := Function.update store.tables file.filepath (some (.complete table)) } [file]) := by
  refine ⟨searchable.toLevelled.register flushed (registerFile_ok.mpr ⟨?_, rfl⟩), ?_⟩
  · rw [flushed.level]
    exact ⟨le_rfl, levels⟩
  have files : ∀ other ∈ store.manager.files ++ [file], other ∈ store.manager.files ∨ other = file := by simp
  intro a inA b inB zeroA zeroB stamp
  rcases files a inA with oldA | rfl <;> rcases files b inB with oldB | rfl
  · exact searchable.stamps a oldA b oldB zeroA zeroB stamp
  · exact absurd stamp (order a oldA zeroA).ne
  · exact absurd stamp (order b oldB zeroB).ne'
  · rfl

end Searchable

theorem CompactionManager.Reachable.searchable {pf : Platform} {dataDir : Path} {maxLevel : Int} {store : Store}
    (reachable : Reachable pf InFlushOrder dataDir maxLevel store) : Searchable store := by
  refine ⟨reachable.levelled, ?_⟩
  induction reachable with
  | empty tables => simp [CompactionManager.new]
  | @register store store' file table reached flushed order registered ih =>
    obtain ⟨valid, rfl⟩ := registerFile_ok.mp registered
    exact (Searchable.register ⟨reached.levelled, ih⟩ flushed order (valid.1.trans_lt valid.2)).stamps
  | @compact store store' io stats reached lossless ran ih =>
    obtain ⟨level, sources, targets, fileData, outs, run⟩ := runCompaction_ok ran
    have valid := run.valid
    have old : ∀ file ∈ store'.manager.files, file.level = 0 → file ∈ store.manager.files := by
      intro file member zero
      rcases (run.mem_files reached.levelled.filed file).mp member with kept | ⟨j, bound, rfl⟩
      · exact kept.1
      · simp only [outputMetaOf] at zero
        omega
    intro a inA b inB zeroA zeroB stamp
    exact ih a (old a inA zeroA) b (old b inB zeroB) zeroA zeroB stamp

theorem newestEntry_register {pf : Platform} {store : Store} {file : SSTableMeta} {table : SSTable}
    (before : Searchable store) (flushed : Flushed store file table) (order : InFlushOrder store.manager file)
    (after : Searchable (withFiles { store with
      tables := Function.update store.tables file.filepath (some (.complete table)) } [file])) (key : Bytes) :
    newestEntry pf (withFiles { store with
      tables := Function.update store.tables file.filepath (some (.complete table)) } [file]) key =
        (table.lookup key).or (newestEntry pf store key) := by
  have unused : ∀ other ∈ store.manager.files, other.filepath ≠ file.filepath := fun other member same =>
    flushed.uncatalogued (same ▸ List.mem_map_of_mem member)
  have front : ∀ other ∈ store.manager.files, Newer file other := by
    intro other member
    have := (before.levels other member).1
    have := flushed.level
    have := order other member
    unfold Newer
    omega
  have recorded : Recorded (Function.update store.tables file.filepath (some (.complete table))) file table :=
    ⟨Function.update_self .., flushed.smallestKey, flushed.largestKey⟩
  rw [← catalogueEntry_recorded pf after.recorded, ← catalogueEntry_recorded pf before.recorded,
    catalogueEntry_register unused front before.entries_comparable, entryIn_recorded recorded,
    versionAt_recorded recorded]

end VectorDb.Storage
