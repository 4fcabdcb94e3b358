import VectorDb.Lib.Action
import VectorDb.MemTable.MemTable
import VectorDb.SSTable.SSTableWriter

namespace VectorDb.Storage
open Lib Common

abbrev Path := Bytes

/-- A complete table file, by the entries that reading it back gives. -/
@[ext] structure SSTable where
  entries : List BlockEntry
  nonempty : entries ≠ []
  ascending : Ascending BlockEntry.key entries
  cleared : ∀ e ∈ entries, e.isTombstone = true → e.value = []

namespace SSTable

def smallestKey (table : SSTable) : Bytes := (table.entries.head table.nonempty).key

def largestKey (table : SSTable) : Bytes := (table.entries.getLast table.nonempty).key

def bytes (table : SSTable) : Bytes :=
  match SSTableWriter.write table.entries with
  | .ok bytes => bytes
  | .error _ => []

def sizeBytes (table : SSTable) : Nat := table.bytes.length

def lookup (table : SSTable) (key : Bytes) : Option BlockEntry := find BlockEntry.key table.entries key

theorem head?_key (table : SSTable) :
    (table.entries.head?.map BlockEntry.key).getD [] = table.smallestKey := by
  simp [smallestKey, List.head?_eq_some_head table.nonempty]

theorem getLast?_key (table : SSTable) :
    (table.entries.getLast?.map BlockEntry.key).getD [] = table.largestKey := by
  simp [largestKey, List.getLast?_eq_some_getLast table.nonempty]

theorem smallestKey_le (table : SSTable) {e : BlockEntry} (member : e ∈ table.entries) :
    table.smallestKey ≤ e.key := by
  have ascending := table.ascending
  rw [← List.cons_head_tail table.nonempty] at member ascending
  rcases List.mem_cons.mp member with rfl | behind
  · exact le_rfl
  · exact ((List.pairwise_cons.mp ascending).1 e behind).le

theorem le_largestKey (table : SSTable) {e : BlockEntry} (member : e ∈ table.entries) :
    e.key ≤ table.largestKey := by
  have ascending := table.ascending
  rw [← List.dropLast_append_getLast table.nonempty] at member ascending
  rcases List.mem_append.mp member with front | last
  · exact ((List.pairwise_append.mp ascending).2.2 e front _ (by simp)).le
  · rw [List.mem_singleton.mp last]
    exact le_rfl

theorem head_mem (table : SSTable) : ∃ e ∈ table.entries, e.key = table.smallestKey :=
  ⟨_, List.head_mem table.nonempty, rfl⟩

theorem last_mem (table : SSTable) : ∃ e ∈ table.entries, e.key = table.largestKey :=
  ⟨_, List.getLast_mem table.nonempty, rfl⟩

theorem smallestKey_le_largestKey (table : SSTable) : table.smallestKey ≤ table.largestKey :=
  table.smallestKey_le (List.getLast_mem table.nonempty)

end SSTable

inductive TableFile where
  | complete (table : SSTable)
  | torn (bytes : Bytes)

namespace TableFile

def bytes : TableFile → Bytes
  | complete table => table.bytes
  | torn bytes => bytes

/-- `std::filesystem::file_size`. -/
def size (file : TableFile) : Nat := file.bytes.length

@[simp] theorem size_complete (table : SSTable) : (complete table).size = table.sizeBytes := rfl

end TableFile

abbrev Tables := Path → Option TableFile

/-- The writes of `SSTableWriter::Write` that it checks. -/
inductive CheckedWrite where
  | block
  | bloom
  | index
  | footer

def CheckedWrite.failed : CheckedWrite → Status
  | block => ioError "SSTable block write failed"
  | bloom => ioError "SSTable bloom write failed"
  | index => ioError "SSTable index write failed"
  | footer => ioError "SSTable footer write failed"

/-- What goes wrong in one call. A file that was written whole opens with its entries unless it is refused;
that the reader refuses none within the size limits of the format is `SSTable.roundTrips_of_dataSize`. -/
structure Faults where
  readTable : Path → Bool
  refuses : SSTable → Option Status
  createTable : Path → Bool
  writeTable : Path → Option (CheckedWrite × Nat)
  /-- What the last `flush()` of `Write` gets into the file when it fails. `Write` does not check it. -/
  lastFlush : Path → Option Nat
  openTemp : Bool
  writeTemp : Bool
  rename : Bool

namespace Faults

def none : Faults where
  readTable _ := false
  refuses _ := .none
  createTable _ := false
  writeTable _ := .none
  lastFlush _ := .none
  openTemp := false
  writeTemp := false
  rename := false

/-- No file loses the end of its contents behind the back of `Write`. -/
def Lossless (io : Faults) : Prop := ∀ path, io.lastFlush path = .none

theorem lossless_none : none.Lossless := fun _ => rfl

/-- No file operation reports a failure. -/
structure Silent (io : Faults) : Prop where
  read : ∀ path, io.readTable path = false
  accepted : ∀ table, io.refuses table = .none
  created : ∀ path, io.createTable path = false
  written : ∀ path, io.writeTable path = .none

theorem silent_none : none.Silent := ⟨fun _ => rfl, fun _ => rfl, fun _ => rfl, fun _ => rfl⟩

end Faults

def SSTable.cut (table : SSTable) (kept : Nat) : TableFile :=
  if kept < table.sizeBytes then .torn (table.bytes.take kept) else .complete table

/-- What `Write` leaves at the path when it returns `Ok`. -/
def Faults.leaves (io : Faults) (path : Path) (table : SSTable) : TableFile :=
  match io.lastFlush path with
  | .none => .complete table
  | some kept => table.cut kept

/-- A full disk: a small file is in the stream's buffer until the last flush, and none of it is written. -/
def Faults.fullDisk : Faults := { Faults.none with lastFlush := fun _ => some 0 }

/-- A disk that fills up under what the stream still holds at the last flush. -/
def Faults.fullBehind (kept : Nat) : Faults := { Faults.none with lastFlush := fun _ => some kept }

theorem Faults.silent_fullDisk : Faults.fullDisk.Silent := { Faults.silent_none with }

theorem Faults.silent_fullBehind (kept : Nat) : (Faults.fullBehind kept).Silent := { Faults.silent_none with }

theorem SSTable.sizeBytes_pos (table : SSTable) : 0 < table.sizeBytes := by
  rw [sizeBytes, bytes, SSTableWriter.write, if_neg table.nonempty]
  simp only [List.length_append, SSTableWriter.footer, BinarySerializer.writeUint64, littleEndian_length]
  omega

theorem Faults.leaves_fullDisk (path : Path) (table : SSTable) : Faults.fullDisk.leaves path table = .torn [] :=
  if_pos table.sizeBytes_pos

theorem Faults.Lossless.leaves {io : Faults} (lossless : io.Lossless) (path : Path) (table : SSTable) :
    io.leaves path table = .complete table := by
  rw [Faults.leaves, lossless path]

theorem Faults.leaves_complete {io : Faults} {path : Path} {table other : SSTable}
    (left : io.leaves path table = .complete other) : other = table := by
  unfold Faults.leaves SSTable.cut at left
  split at left
  next =>
    cases left
    rfl
  next =>
    split_ifs at left
    cases left
    rfl

def openTable (io : Faults) (tables : Tables) (path : Path) : ErrorOr SSTable :=
  match tables path with
  | none => .error ⟨.kStorageIoError, text "SSTable file not found: " ++ path⟩
  | some file =>
    if io.readTable path then .error ⟨.kStorageIoError, text "Cannot open SSTable: " ++ path⟩ else
    match file with
    | .torn bytes =>
      if bytes.length < SSTableWriter.kFooterSize then
        .error ⟨.kStorageCorruption, text "SSTable too small for footer: " ++ path⟩
      else .error ⟨.kStorageCorruption, text "Invalid SSTable magic number: " ++ path⟩
    | .complete table =>
      match io.refuses table with
      | some status => .error status
      | none => .ok table

def SSTable.ofMemTable (m : MemTable) (nonempty : m.entries ≠ []) : SSTable :=
  ⟨m.entries, nonempty, m.entries_ascending, m.entries_cleared⟩

/-- `SSTableWriter::Write` of a MemTable or a skip list to a path. -/
def writeTable (io : Faults) (path : Path) (m : MemTable) : Action Status Tables Unit := do
  if io.createTable path then throw ⟨.kStorageIoError, text "Cannot create SSTable: " ++ path⟩
  if nonempty : m.entries = [] then
    modify fun tables => Function.update tables path none
    throw ⟨.kInvalidArgument, text "Cannot write empty SSTable"⟩
  else
    match io.writeTable path with
    | some (write, kept) =>
      modify fun tables => Function.update tables path (some ((SSTable.ofMemTable m nonempty).cut kept))
      throw write.failed
    | none => modify fun tables => Function.update tables path (some (io.leaves path (.ofMemTable m nonempty)))

theorem openTable_ok {io : Faults} {tables : Tables} {path : Path} {table : SSTable}
    (opened : openTable io tables path = .ok table) : tables path = some (.complete table) := by
  unfold openTable at opened
  split at opened
  next => cases opened
  next file found =>
    split at opened
    next => cases opened
    next =>
      split at opened
      next => split at opened <;> cases opened
      next =>
        split at opened
        next => cases opened
        next =>
          cases opened
          exact found

theorem openTable_silent {io : Faults} (silent : io.Silent) {tables : Tables} {path : Path} {table : SSTable}
    (found : tables path = some (.complete table)) : openTable io tables path = .ok table := by
  simp [openTable, found, silent.read, silent.accepted]

theorem openTable_refused {io : Faults} {tables : Tables} {path : Path} {table : SSTable}
    (found : tables path = some (.complete table))
    (unread : ¬ (io.readTable path = false ∧ io.refuses table = none)) :
    ∃ status, openTable io tables path = .error status := by
  cases read : io.readTable path with
  | true => simp [openTable, found, read]
  | false =>
    obtain ⟨status, refused⟩ := Option.ne_none_iff_exists'.mp fun none => unread ⟨read, none⟩
    simp [openTable, found, read, refused]

theorem openTable_none {tables : Tables} {path : Path} {table : SSTable}
    (found : tables path = some (.complete table)) : openTable .none tables path = .ok table :=
  openTable_silent Faults.silent_none found

theorem writeTable_ok {io : Faults} {path : Path} {m : MemTable} {tables tables' : Tables}
    (wrote : writeTable io path m tables = .ok () tables') :
    ∃ nonempty, tables' = Function.update tables path (some (io.leaves path (.ofMemTable m nonempty))) := by
  by_cases create : io.createTable path = true
  · simp [writeTable, create, Action.bind_ok] at wrote
  by_cases nonempty : m.entries = []
  · simp [writeTable, create, nonempty, Action.bind_ok] at wrote
  cases fails : io.writeTable path with
  | some failure => simp [writeTable, create, nonempty, fails, Action.bind_ok] at wrote
  | none =>
    simp [writeTable, create, nonempty, fails] at wrote
    exact ⟨nonempty, wrote.symm⟩

theorem writeTable_written {io : Faults} {path : Path} {m : MemTable} (created : io.createTable path = false)
    (written : io.writeTable path = none) (nonempty : m.entries ≠ []) (tables : Tables) :
    writeTable io path m tables =
      .ok () (Function.update tables path (some (io.leaves path (.ofMemTable m nonempty)))) := by
  simp [writeTable, created, written, nonempty]

theorem writeTable_unwritten {io : Faults} {path : Path} {m : MemTable} (nonempty : m.entries ≠ [])
    (fails : io.createTable path = true ∨ io.writeTable path ≠ none) (tables : Tables) :
    ∃ status content, writeTable io path m tables = .error status (Function.update tables path content) := by
  by_cases created : io.createTable path = true
  · exact ⟨_, tables path, by simp [writeTable, created, Bind.bind, EStateM.bind]; rfl⟩
  · obtain ⟨⟨write, kept⟩, written⟩ := Option.ne_none_iff_exists'.mp (fails.resolve_left created)
    exact ⟨write.failed, some ((SSTable.ofMemTable m nonempty).cut kept),
      by simp [writeTable, created, written, nonempty, Bind.bind, EStateM.bind]⟩

theorem writeTable_others {io : Faults} (path : Path) (m : MemTable) (tables : Tables) {other : Path} (ne : other ≠ path) :
    (writeTable io path m).final tables other = tables other := by
  by_cases create : io.createTable path = true
  · simp [writeTable, create, Action.final, Bind.bind, EStateM.bind]
  by_cases empty : m.entries = []
  · simp [writeTable, create, empty, Action.final, Bind.bind, EStateM.bind, ne]
  cases fails : io.writeTable path with
  | some failure => simp [writeTable, create, empty, fails, Action.final, Bind.bind, EStateM.bind, ne]
  | none => simp [writeTable, create, empty, fails, Action.final, ne]

theorem writeTable_none {path : Path} {m : MemTable} (nonempty : m.entries ≠ []) (tables : Tables) :
    writeTable .none path m tables =
      .ok () (Function.update tables path (some (.complete (.ofMemTable m nonempty)))) :=
  writeTable_written rfl rfl nonempty tables

end VectorDb.Storage
