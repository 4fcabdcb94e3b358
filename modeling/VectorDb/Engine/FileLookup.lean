import VectorDb.Compaction.OutputSizes
import VectorDb.Engine.TableLookup

namespace VectorDb.Storage
open Lib Common CompactionManager

abbrev Files := Path → Option Bytes

namespace StorageEngine

variable (pf : Platform) (disk : Files)

/-- The body of the loop of `GetFromSSTables` up to the entry. -/
def lookIn (file : SSTableMeta) (key : Bytes) : Option (ErrorOr (Option BlockEntry)) :=
  if key < file.smallestKey ∨ key > file.largestKey then some (.ok none)
  else
    match SSTableReader.open file.filepath (disk file.filepath) with
    | .error status => some (.error status)
    | .ok reader => reader.get key

def searchFiles (key : Bytes) : List SSTableMeta → Option (ErrorOr (Option Bytes))
  | [] => some (.ok none)
  | file :: files => do
    match ← lookIn disk file key with
    | .error status => return .error status
    | .ok none => searchFiles key files
    | .ok (some entry) => return .ok (if entry.isTombstone then none else some entry.value)

/-- `GetFromSSTables` on the bytes of the files. `none` is undefined behaviour in a Bloom filter. -/
def getFromFiles (files : List SSTableMeta) (key : Bytes) : Option (ErrorOr (Option Bytes)) :=
  searchFiles disk key (pf.sort searchedBefore files)

variable {pf disk} {contents : SSTableMeta → SSTable} {files : List SSTableMeta}

def held (contents : SSTableMeta → SSTable) (key : Bytes) (file : SSTableMeta) : Option BlockEntry :=
  (contents file).lookup key

/-- A catalogue of written tables with their exact ranges, in which files of one level that share a key
can be told apart by age. -/
structure WrittenCatalogue (disk : Files) (contents : SSTableMeta → SSTable) (files : List SSTableMeta) : Prop where
  written : ∀ file ∈ files, ∃ bytes,
    SSTableWriter.write (contents file).entries = .ok bytes ∧ disk file.filepath = some bytes
  smallestKey : ∀ file ∈ files, file.smallestKey = (contents file).smallestKey
  largestKey : ∀ file ∈ files, file.largestKey = (contents file).largestKey
  stamps : ∀ a ∈ files, ∀ b ∈ files, a ≠ b → a.level = b.level →
    (∃ key, (held contents key a).isSome ∧ (held contents key b).isSome) → a.sequenceNumber ≠ b.sequenceNumber

structure NewestWins (pf : Platform) (disk : Files) (contents : SSTableMeta → SSTable) (files : List SSTableMeta) :
    Prop where
  lookup : ∀ key, (∃ entry, FirstHit (held contents key) Newer files entry ∧
      getFromFiles pf disk files key = some (.ok (if entry.isTombstone then none else some entry.value))) ∨
    ((∀ file ∈ files, held contents key file = none) ∧ getFromFiles pf disk files key = some (.ok none))
  pruning : ∀ file ∈ files, ∀ key, lookIn disk file key = some (.ok (held contents key file))

def Answers (disk : Files) (contents : SSTableMeta → SSTable) (file : SSTableMeta) : Prop :=
  ∃ reader, SSTableReader.open file.filepath (disk file.filepath) = .ok reader ∧
    ∀ key, file.smallestKey ≤ key → key ≤ file.largestKey → reader.get key = some (.ok (held contents key file))

theorem searchFiles_eq {key : Bytes} {version : SSTableMeta → Option BlockEntry} {files : List SSTableMeta}
    (looks : ∀ file ∈ files, lookIn disk file key = some (.ok (version file))) :
    searchFiles disk key files = some (.ok ((files.findSome? version).bind BlockEntry.visible)) := by
  induction files with
  | nil => rfl
  | cons file files ih =>
    have rest := ih fun other member => looks other (by simp [member])
    rw [searchFiles, looks file (by simp), List.findSome?_cons]
    cases here : version file with
    | none => simpa [here] using rest
    | some entry => simp [BlockEntry.visible]

namespace WrittenCatalogue

variable (catalogued : WrittenCatalogue disk contents files)
include catalogued

theorem outside {file : SSTableMeta} (member : file ∈ files) {key : Bytes}
    (outside : key < file.smallestKey ∨ key > file.largestKey) : held contents key file = none := by
  rw [catalogued.smallestKey file member, catalogued.largestKey file member] at outside
  refine (find_eq_none _).mpr fun entry holds same => ?_
  rw [← same] at outside
  rcases outside with below | above
  · exact absurd below (not_lt.mpr ((contents file).smallestKey_le holds))
  · exact absurd above (not_lt.mpr ((contents file).le_largestKey holds))

theorem lookIn_eq {file : SSTableMeta} (member : file ∈ files) (answers : Answers disk contents file) (key : Bytes) :
    lookIn disk file key = some (.ok (held contents key file)) := by
  obtain ⟨reader, opened, get⟩ := answers
  rw [lookIn]
  split
  next outside => rw [catalogued.outside member outside]
  next inside =>
    rw [opened]
    exact get key (not_lt.mp fun below => inside (.inl below)) (not_lt.mp fun above => inside (.inr above))

theorem comparable {key : Bytes} (a : SSTableMeta) (inA : a ∈ files) (b : SSTableMeta) (inB : b ∈ files)
    (heldA : (held contents key a).isSome) (heldB : (held contents key b).isSome) (distinct : a ≠ b) :
    Newer a b ∨ Newer b a := by
  unfold Newer
  by_cases same : a.level = b.level
  · have := catalogued.stamps a inA b inB distinct same ⟨key, heldA, heldB⟩
    omega
  · omega

theorem first_iff {key : Bytes} {entry : BlockEntry} :
    (pf.sort searchedBefore files).findSome? (held contents key) = some entry ↔
      FirstHit (held contents key) Newer files entry := by
  rw [findSome_eq_some_iff newer_asymm (sorted_not_newer pf files)]
  · exact FirstHit.congr (fun file => pf.mem_sort _ _ file) entry
  · exact fun a inA b inB => catalogued.comparable a ((pf.mem_sort _ _ _).mp inA) b ((pf.mem_sort _ _ _).mp inB)

theorem newestWins (answers : ∀ file ∈ files, Answers disk contents file) : NewestWins pf disk contents files := by
  have looks := fun file member => catalogued.lookIn_eq member (answers file member)
  refine ⟨fun key => ?_, looks⟩
  have result : getFromFiles pf disk files key =
      some (.ok (((pf.sort searchedBefore files).findSome? (held contents key)).bind BlockEntry.visible)) :=
    searchFiles_eq fun file member => looks file ((pf.mem_sort _ _ _).mp member) key
  cases found : (pf.sort searchedBefore files).findSome? (held contents key) with
  | some entry =>
    refine .inl ⟨entry, catalogued.first_iff.mp found, ?_⟩
    rw [result, found, Option.bind_some, BlockEntry.visible]
  | none =>
    refine .inr ⟨fun file member => ?_, by rw [result, found, Option.bind_none]⟩
    exact List.findSome?_eq_none_iff.mp found file ((pf.mem_sort _ _ _).mpr member)

theorem answers_of_pruning {file : SSTableMeta} (member : file ∈ files)
    (pruning : ∀ key, lookIn disk file key = some (.ok (held contents key file))) : Answers disk contents file := by
  have within : ∀ key, file.smallestKey ≤ key → key ≤ file.largestKey →
      ¬ (key < file.smallestKey ∨ key > file.largestKey) := fun key low high outside =>
    outside.elim (fun below => absurd below (not_lt.mpr low)) fun above => absurd above (not_lt.mpr high)
  have range : file.smallestKey ≤ file.largestKey := by
    rw [catalogued.smallestKey file member, catalogued.largestKey file member]
    exact (contents file).smallestKey_le_largestKey
  cases opened : SSTableReader.open file.filepath (disk file.filepath) with
  | error status =>
    have first := pruning file.smallestKey
    rw [lookIn, if_neg (within _ le_rfl range), opened] at first
    cases first
  | ok reader =>
    refine ⟨reader, opened, fun key low high => ?_⟩
    have look := pruning key
    rwa [lookIn, if_neg (within key low high), opened] at look

theorem answers_iff_intact {file : SSTableMeta} (member : file ∈ files)
    (limits : WithinLimits (contents file).entries) :
    Answers disk contents file ↔ FilterIntact (contents file).entries := by
  obtain ⟨bytes, wrote, stored⟩ := catalogued.written file member
  obtain ⟨back, wrote', opened⟩ := SSTableReader.open_write (contents file).nonempty limits file.filepath
  cases wrote.symm.trans wrote'
  rw [Answers, stored, opened]
  constructor
  · rintro ⟨reader, same, get⟩
    cases same
    refine intact_of_get (contents file).nonempty fun entry holds => (get entry.key ?_ ?_).trans ?_
    · exact catalogued.smallestKey file member ▸ (contents file).smallestKey_le holds
    · exact catalogued.largestKey file member ▸ (contents file).le_largestKey holds
    · rw [held, SSTable.lookup, find_mem _ (contents file).ascending holds]
  · intro intact
    exact ⟨_, rfl, fun key _ _ => written_get (contents file).ascending limits intact back key⟩

end WrittenCatalogue

def StoredAsBytes (files : Files) (tables : Tables) : Prop :=
  ∀ path table, tables path = some (.complete table) →
    ∃ bytes, SSTableWriter.write table.entries = .ok bytes ∧ files path = some bytes

def diskFiles (tables : Tables) : Files := fun path => (tables path).map TableFile.bytes

theorem storedAsBytes_diskFiles (tables : Tables) : StoredAsBytes (diskFiles tables) tables := by
  intro path table stored
  refine ⟨table.bytes, ?_, by rw [diskFiles, stored]; rfl⟩
  rw [SSTable.bytes, SSTableWriter.write, if_neg table.nonempty]

/-- Newest wins exactly if every file answers for itself, which a file within the limits does exactly if
its Bloom filter survives being stored. -/
theorem newestWins_iff_answers (pf : Platform) (catalogued : WrittenCatalogue disk contents files) :
    (NewestWins pf disk contents files ↔ ∀ file ∈ files, Answers disk contents file) ∧
      ∀ file ∈ files, WithinLimits (contents file).entries →
        (Answers disk contents file ↔ FilterIntact (contents file).entries) :=
  ⟨⟨fun wins file member => catalogued.answers_of_pruning member (wins.pruning file member), catalogued.newestWins⟩,
    fun _ member => catalogued.answers_iff_intact member⟩

section Versions

def versionTable (seq : Nat) : SSTable :=
  if seq = 1 then oneEntry [97] [1] else ⟨[⟨[97], [], true⟩], by simp, by simp [Ascending], by simp⟩

def versionFiles : List SSTableMeta := [flushMeta [] (versionTable 1) 1, flushMeta [] (versionTable 2) 2]

def versionDisk : Files := fun path =>
  (SSTableWriter.write (versionTable (if path = flushPath [] 1 then 1 else 2)).entries).toOption

theorem newestWins_two_versions :
    NewestWins .reference versionDisk (fun file => versionTable file.sequenceNumber) versionFiles := by
  have tables : ∀ file ∈ versionFiles, ∃ seq, (seq = 1 ∨ seq = 2) ∧ file = flushMeta [] (versionTable seq) seq := by
    simp [versionFiles]
  have limits : ∀ seq, seq = 1 ∨ seq = 2 → WithinLimits (versionTable seq).entries := by
    rintro seq (rfl | rfl) <;> constructor <;> decide +kernel
  have intact : ∀ seq, seq = 1 ∨ seq = 2 → FilterIntact (versionTable seq).entries := by
    rintro seq (rfl | rfl) <;> exact .inl (by decide +kernel)
  have paths : flushPath [] 2 ≠ flushPath [] 1 := fun same => absurd (flushPath_inj same) (by decide)
  have catalogued : WrittenCatalogue versionDisk (fun file => versionTable file.sequenceNumber) versionFiles := by
    refine ⟨fun file member => ?_, fun file member => ?_, fun file member => ?_,
      fun a inA b inB distinct _ _ same => ?_⟩
    · obtain ⟨seq, isSeq, rfl⟩ := tables file member
      obtain ⟨back, wrote, -⟩ := SSTableReader.open_write (versionTable seq).nonempty (limits seq isSeq) []
      refine ⟨_, wrote, ?_⟩
      rcases isSeq with rfl | rfl <;> simp [versionDisk, flushMeta, paths, wrote, Except.toOption]
    · obtain ⟨seq, -, rfl⟩ := tables file member
      rfl
    · obtain ⟨seq, -, rfl⟩ := tables file member
      rfl
    · obtain ⟨seq, -, rfl⟩ := tables a inA
      obtain ⟨seq', -, rfl⟩ := tables b inB
      exact distinct (by rw [show seq = seq' from same])
  obtain ⟨wins, alone⟩ := newestWins_iff_answers .reference catalogued
  refine wins.mpr fun file member => ?_
  obtain ⟨seq, isSeq, rfl⟩ := tables file member
  exact (alone _ member (limits seq isSeq)).mpr (intact seq isSeq)

end Versions

theorem many_keys_not_found : ¬ ∀ (pf : Platform) (disk : Files) (contents : SSTableMeta → SSTable)
    (files : List SSTableMeta), WrittenCatalogue disk contents files → NewestWins pf disk contents files := by
  intro always
  obtain ⟨n, many⟩ : ∃ n, n = 429496729 := ⟨_, rfl⟩
  have nonempty : fourByteEntries n ≠ [] := by simp [fourByteEntries, many]
  have cleared : ∀ e ∈ fourByteEntries n, e.isTombstone = true → e.value = [] := by simp [fourByteEntries]
  let table : SSTable := ⟨fourByteEntries n, nonempty, fourByteEntries_ascending (by omega), cleared⟩
  obtain ⟨bytes, wrote⟩ : ∃ bytes, SSTableWriter.write (fourByteEntries n) = .ok bytes := by
    rw [SSTableWriter.write, if_neg nonempty]
    exact ⟨_, rfl⟩
  have catalogued : WrittenCatalogue (fun _ => some bytes) (fun _ => table) [flushMeta [] table 1] := by
    refine ⟨fun file _ => ⟨_, wrote, rfl⟩, ?_, ?_, ?_⟩ <;> simp [flushMeta]
  have answers := catalogued.answers_of_pruning (List.mem_singleton_self _)
    ((always .reference _ _ _ catalogued).pruning _ (List.mem_singleton_self _))
  exact fourByteEntries_not_intact many
    ((catalogued.answers_iff_intact (List.mem_singleton_self _) (fourByteEntries_limits many)).mp answers)

end StorageEngine

open StorageEngine

/-- Every file of the catalogue has its recorded range, and its bytes read back as its entries. -/
def Readable (store : Store) : Prop :=
  ∀ file ∈ store.manager.files, ∃ table, Recorded store.tables file table ∧
    RoundTrips table.entries table.entries.length

theorem Readable.recorded {store : Store} (readable : Readable store) :
    ∀ file ∈ store.manager.files, ∃ table, Recorded store.tables file table := by
  intro file member
  obtain ⟨table, recorded, -⟩ := readable file member
  exact ⟨table, recorded⟩

theorem Readable.congr {store store' : Store} (readable : Readable store)
    (files : store'.manager.files = store.manager.files)
    (tables : ∀ file ∈ store.manager.files, store'.tables file.filepath = store.tables file.filepath) :
    Readable store' := by
  intro file member
  rw [files] at member
  obtain ⟨table, recorded, roundTrips⟩ := readable file member
  exact ⟨table, ⟨(tables file member).trans recorded.1, recorded.2⟩, roundTrips⟩

theorem Readable.register {store : Store} {table : SSTable} (readable : Readable store) (file : SSTableMeta)
    (unused : ∀ other ∈ store.manager.files, other.filepath ≠ file.filepath)
    (ranges : file.smallestKey = table.smallestKey ∧ file.largestKey = table.largestKey)
    (small : dataSize table.entries ≤ 2 ^ 30) :
    Readable (withFiles { store with
      tables := Function.update store.tables file.filepath (some (.complete table)) } [file]) := by
  intro other member
  rcases List.mem_append.mp member with old | new
  · obtain ⟨table, recorded, roundTrips⟩ := readable other old
    exact ⟨table, ⟨(Function.update_of_ne (unused other old) _ _).trans recorded.1, recorded.2⟩, roundTrips⟩
  · obtain rfl := List.mem_singleton.mp new
    exact ⟨table, ⟨Function.update_self .., ranges⟩, SSTable.roundTrips_of_dataSize small⟩

theorem ModestFiles.readable {store : Store} (modest : ModestFiles store)
    (recorded : ∀ file ∈ store.manager.files, ∃ table, Recorded store.tables file table) : Readable store := by
  intro file member
  obtain ⟨table, recorded⟩ := recorded file member
  exact ⟨table, recorded, SSTable.roundTrips_of_dataSize (modest file member table recorded.1).all⟩

theorem lookIn_recorded {files : Files} {tables : Tables} {file : SSTableMeta} {table : SSTable}
    (stored : StoredAsBytes files tables) (recorded : Recorded tables file table)
    (roundTrips : RoundTrips table.entries table.entries.length) (key : Bytes) :
    lookIn files file key = some (.ok (versionAt tables key file.filepath)) := by
  rw [lookIn]
  split
  next outside => rw [← entryIn_recorded recorded, entryIn, if_pos outside]
  next =>
    obtain ⟨bytes, wrote, there⟩ := stored _ _ recorded.1
    obtain ⟨bytes', reader, wrote', opened, -, -, get⟩ := roundTrips.2 file.filepath
    cases wrote.symm.trans wrote'
    rw [there, opened, versionAt_recorded recorded]
    exact get key

theorem Readable.getFromFiles_eq {pf : Platform} {store : Store} {files : Files} (readable : Readable store)
    (stored : StoredAsBytes files store.tables) (key : Bytes) :
    getFromFiles pf files store.manager.files key = some (getFromSSTables pf .none store key) := by
  have recorded : ∀ file ∈ store.manager.files, ∃ table, Recorded store.tables file table := fun file member =>
    (readable file member).imp fun _ => And.left
  rw [getFromSSTables_recorded pf recorded, newestEntry]
  refine searchFiles_eq fun file member => ?_
  obtain ⟨table, recorded, roundTrips⟩ := readable file ((pf.mem_sort _ _ _).mp member)
  exact lookIn_recorded stored recorded roundTrips key

end VectorDb.Storage
