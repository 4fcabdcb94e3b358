import VectorDb.Engine.CrashSafety
import VectorDb.Engine.FailedFlush
import VectorDb.SSTable.IndexOverflow

namespace VectorDb.Storage
open Lib Common CompactionManager

/-- Nothing fails, and a file opens if `SSTableReader` takes the bytes that were written. -/
def Faults.asStored : Faults := { Faults.none with
  refuses := fun table =>
    match SSTableReader.open [] (some table.bytes) >>= SSTableReader.readAll with
    | .ok _ => Option.none
    | .error status => some status }

theorem Faults.asStored_refuses {table : SSTable} {status : Status}
    (unopened : SSTableReader.open [] (some table.bytes) = .error status) :
    Faults.asStored.refuses table = some status := by
  simp only [Faults.asStored, unopened, bind, Except.bind]

namespace StorageEngine

variable {pf : Platform} {config : StorageConfig} {io : Faults} {world started : World} {ms : List Mutation}

def fillBound (pf : Platform) (ms : List Mutation) : Nat :=
  pf.sizeofSkipList + (pf.sizeofSkipListNode + kMaxHeight * pf.sizeofPointer) * (ms.length + 1) + dataSize (effects ms)

theorem fillBound_le (pf : Platform) (ms : List Mutation) (m : Mutation) :
    fillBound pf ms ≤ fillBound pf (ms ++ [m]) := by
  have nodes : (pf.sizeofSkipListNode + kMaxHeight * pf.sizeofPointer) * (ms.length + 1) ≤
      (pf.sizeofSkipListNode + kMaxHeight * pf.sizeofPointer) * ((ms ++ [m]).length + 1) :=
    Nat.mul_le_mul_left _ (by simp)
  have data : dataSize (effects ms) ≤ dataSize (effects (ms ++ [m])) := by
    rw [effects_append, dataSize, dataSize, load_append]
    omega
  simp only [fillBound]
  omega

structure Filling (pf : Platform) (config : StorageConfig) (ms : List Mutation) (world : World) : Prop where
  serving : Serving pf config ms world
  logged : Logged [] ms world
  files : world.engine.compactionManager.files = []
  tracked : ∃ order, SkipList.Tracked pf world.engine.activeMemtable.table order

namespace Filling

theorem usage_le (filling : Filling pf config ms world) (addressable : fillBound pf ms < 2 ^ 64) :
    world.engine.activeMemtable.approximateMemoryUsage ≤ fillBound pf ms := by
  obtain ⟨order, tracked⟩ := filling.tracked
  have nodes := tracked.represents.footprint_le_nodes pf
  have contents : world.engine.activeMemtable.table.entries = replay BlockEntry.key (effects ms) [] :=
    filling.serving.active
  have data : dataSize world.engine.activeMemtable.table.entries ≤ dataSize (effects ms) := by
    rw [contents]
    exact (load_replay_le _ _ _ _).trans (by simp)
  have count : world.engine.activeMemtable.table.entries.length ≤ ms.length := by
    have grows := load_replay_le (fun _ : BlockEntry => 1) BlockEntry.key (effects ms) []
    rw [contents]
    simpa [load, effects, Function.comp_def] using grows
  have scaled := Nat.mul_le_mul_left (pf.sizeofSkipListNode + kMaxHeight * pf.sizeofPointer) (Nat.add_le_add_right count 1)
  have bounded : world.engine.activeMemtable.table.footprint pf ≤ fillBound pf ms := by
    rw [fillBound]
    omega
  rw [MemTable.approximateMemoryUsage, tracked.accounted.equal (by omega)]
  exact bounded

variable (io) in
theorem write (filling : Filling pf config ms world) {m : Mutation} (short : m.payloadSize ≤ kMaxPayload)
    (room : (logBytes (ms ++ [m])).length ≤ maxFileSize) (below : fillBound pf (ms ++ [m]) < config.memtableSizeBytes)
    (addressable : config.memtableSizeBytes ≤ 2 ^ 64) :
    ∃ world', (writeEntry pf io .faultless m).run world = .ok () world' ∧ Filling pf config (ms ++ [m]) world' := by
  obtain ⟨lsn, wal, file, appended⟩ := filling.logged.holds.append_room room
  have wrote : Wrote pf .faultless world [m] (afterWrite pf world m wal file) := .entry appended
  have filled : Filling pf config (ms ++ [m]) (afterWrite pf world m wal file) := by
    refine ⟨wrote.serving filling.serving, wrote.logged filling.logged, filling.files, ?_⟩
    obtain ⟨order, tracked⟩ := filling.tracked
    have size : m.effect.value.length < 2 ^ 64 := by
      have entry := m.encodedSize_effect_le
      rw [kMaxPayload] at short
      rw [BlockEntry.encodedSize] at entry
      omega
    cases m <;> exact tracked.apply size
  refine ⟨_, ?_, filled⟩
  rw [writeEntry_run appended, if_neg]
  have usage := filled.usage_le (by omega)
  rw [filling.serving.configured, not_le]
  exact usage.trans_lt below

end Filling

variable (pf config io) in
theorem fill_run {commands : List Command} (puts : ∀ command ∈ commands, ∃ key value, command = .put key value)
    (short : ∀ m ∈ written commands, m.payloadSize ≤ kMaxPayload)
    (room : (logBytes (written commands)).length ≤ maxFileSize)
    (below : fillBound pf (written commands) < config.memtableSizeBytes)
    (addressable : config.memtableSizeBytes ≤ 2 ^ 64) :
    ∃ world, (forM commands fun command => (Command.program pf io .faultless command).run : Action Status World Unit)
        (fresh pf config) = .ok () world ∧ Filling pf config (written commands) world := by
  induction commands using List.reverseRecOn with
  | nil => exact ⟨_, rfl, serving_fresh pf config, logged_fresh pf config, rfl, [], SkipList.tracked_empty pf⟩
  | append_singleton commands command ih =>
    obtain ⟨key, value, rfl⟩ := puts command (by simp)
    rw [written_concat] at short room below ⊢
    obtain ⟨between, ran, filling⟩ := ih (fun other member => puts other (by simp [member]))
      (fun m member => short m (by simp [member])) ((logBytes_length_le _ _).trans room)
      ((fillBound_le pf _ _).trans_lt below)
    obtain ⟨world, wrote, filled⟩ := filling.write io (short _ (by simp [Command.mutations])) room below addressable
    exact ⟨world, Action.forM_concat_ok.mpr ⟨between, ran, wrote⟩, filled⟩

variable (pf) in
theorem flushMemTable_asStored (nonempty : started.engine.activeMemtable.entries ≠ [])
    (levels : 0 < started.engine.compactionManager.maxLevel) :
    ∃ world, (flushMemTable pf .asStored).run started = .ok () world ∧ world.disk.log = started.disk.log ∧
      world.disk.tables = (writtenStore nonempty .asStored).tables ∧
      CheckpointManager.loadCheckpoint world.disk.checkpoints = .ok ⟨started.engine.wal.currentSequenceNumber,
        started.engine.compactionManager.files ++ [writtenMeta nonempty .asStored]⟩ := by
  have stored : flushStore .asStored started (drawn pf started).store =
      .ok () (withFiles (writtenStore nonempty .asStored) [writtenMeta nonempty .asStored]) := by
    have wrote : Action.zoom Store.tables (fun tables store => { store with tables })
        (writeTable .asStored (flushFile started) started.engine.activeMemtable) (drawn pf started).store =
        .ok () (writtenStore nonempty .asStored) :=
      Action.zoom_ok.mpr ⟨_, writeTable_written rfl rfl nonempty _, rfl⟩
    rw [flushStore, Action.bind_of_ok wrote, Action.bind_of_ok (Action.get_eq _), registerFile_ok]
    exact ⟨⟨le_rfl, levels⟩, rfl⟩
  have applied : onStore (flushStore .asStored started) (drawn pf started) = .ok () ((drawn pf started).withStore
      (withFiles (writtenStore nonempty .asStored) [writtenMeta nonempty .asStored])) :=
    Action.zoom_ok.mpr ⟨_, stored, rfl⟩
  rw [flushMemTable_filled fun empty => nonempty ((MemTable.isEmpty_iff _).mp empty), Action.bind_of_ok applied,
    Action.bind_of_ok (Action.get_eq _)]
  exact ⟨_, rfl, rfl, rfl, rfl⟩

theorem writtenMeta_refused {status : Status} (nonempty : started.engine.activeMemtable.entries ≠ [])
    (refused : Faults.asStored.refuses (flushedTable nonempty) = some status) :
    (writtenMeta nonempty .asStored).largestKey = [] := by
  have stored : (writtenStore nonempty .asStored).tables (flushFile started) =
      some (.complete (flushedTable nonempty)) := writtenStore_file .asStored nonempty
  obtain ⟨status, unread⟩ : ∃ status, openTable .asStored (writtenStore nonempty .asStored).tables (flushFile started) =
      .error status := openTable_refused stored (by simp [refused])
  simp [writtenMeta, flushedMeta, unread]

theorem refused_flush_loses (filling : Filling pf config ms started) (short : ∀ m ∈ ms, m.payloadSize ≤ kMaxPayload)
    (nonempty : started.engine.activeMemtable.entries ≠ [])
    {status : Status} (unread : ∀ path, ∃ file, SSTableWriter.write started.engine.activeMemtable.entries = .ok file ∧
      SSTableReader.open path (some file) = .error status) :
    ∃ world recovered : World, (flushMemTable pf .asStored).run started = .ok () world ∧
      «open» pf config world.disk = .ok recovered.engine recovered.disk ∧
      recovered.engine.activeMemtable.entries = [] ∧
      (∀ file ∈ recovered.engine.compactionManager.files,
        SSTableReader.open file.filepath (diskFiles recovered.disk.tables file.filepath) = .error status) ∧
      ∀ key ≠ [], getBytes pf recovered key = some (.ok none) := by
  have refused : ∀ path, SSTableReader.open path (some (flushedTable nonempty).bytes) = .error status := by
    intro path
    obtain ⟨file, wrote, refused⟩ := unread path
    simp only [SSTable.bytes, flushedTable, SSTable.ofMemTable, wrote, refused]
  obtain ⟨world, flushed, log, tables, checkpoint⟩ := flushMemTable_asStored pf nonempty filling.serving.levels
  rw [filling.files, List.nil_append, filling.logged.holds.currentSequenceNumber_eq] at checkpoint
  have opened : «open» pf config world.disk = _ := open_ok (filling.logged.holds.log short) torn_nil
    (by rw [log, filling.logged.log, List.append_nil]) checkpoint (by simp [writtenMeta, flushedMeta, leveled.kNumLevels])
  rw [List.nil_append, List.drop_length] at opened
  refine ⟨world, ⟨world.disk, _⟩, flushed, opened, MemTable.entries_new pf, ?_, fun key ne => ?_⟩
  · intro file member
    rw [List.mem_singleton.mp member, diskFiles, tables]
    rw [writtenMeta, flushedMeta, writtenStore_file .asStored nonempty]
    exact refused (flushFile started)
  · have outside : key > (writtenMeta nonempty .asStored).largestKey := by
      rw [writtenMeta_refused nonempty (Faults.asStored_refuses (refused []))]
      exact lt_of_le_of_ne (nil_le key) (Ne.symm ne)
    have alone : pf.sort searchedBefore [writtenMeta nonempty .asStored] = [writtenMeta nonempty .asStored] :=
      List.perm_singleton.mp (pf.sort_perm _ _)
    simp only [getBytes, getOnDisk, MemTable.applyAll, List.foldl_nil, MemTable.get_eq, MemTable.entries_new, find_nil]
    simp [getFromFiles, alone, searchFiles, lookIn, outside]

def wideKeys (count width : Nat) : List Bytes :=
  (List.range count).map fun i => Fin.ofNat 256 i :: List.replicate (width - 1) 0

def widePuts (count width : Nat) : List Command := (wideKeys count width).map fun key => .put key []

section WideKeys
variable (count width : Nat)

variable {count width} in
theorem wideKeys_length (positive : 0 < width) {key : Bytes} (member : key ∈ wideKeys count width) :
    key.length = width := by
  obtain ⟨i, -, rfl⟩ := List.mem_map.mp member
  simp
  omega

theorem written_widePuts : written (widePuts count width) = (wideKeys count width).map fun key => .put key [] := by
  simp [written, widePuts, Command.mutations, List.flatMap_map, ← List.map_eq_flatMap]

theorem effects_widePuts :
    effects (written (widePuts count width)) = (wideKeys count width).map fun key => ⟨key, [], false⟩ := by
  simp [written_widePuts, effects, Mutation.effect, Function.comp_def]

theorem effects_widePuts_ascending (small : count ≤ 256) :
    Ascending BlockEntry.key (effects (written (widePuts count width))) := by
  rw [effects_widePuts, wideKeys, List.map_map]
  refine List.pairwise_map.mpr (List.Pairwise.imp_of_mem ?_ List.pairwise_lt_range)
  intro i j _ inRange less
  have below := List.mem_range.mp inRange
  refine List.Lex.rel ?_
  simp [Fin.lt_def, Fin.ofNat]
  omega

theorem effects_widePuts_wide (positive : 0 < width) : Wide width (effects (written (widePuts count width))) := by
  rw [effects_widePuts]
  intro entry member
  obtain ⟨key, inKeys, rfl⟩ := List.mem_map.mp member
  exact ⟨wideKeys_length positive inKeys, rfl⟩

end WideKeys

/-- Sixty-five acknowledged puts within the limit of the log: the index block of their table takes 4362076099 bytes, its
stored size is 67108803, and after the flush and a crash the keys are neither in the MemTable nor in a file that opens. -/
theorem flush_loses_wide_keys : ∃ (keys : List Bytes) (start world recovered : World), keys.length = 65 ∧
    (∀ key ∈ keys, (Mutation.put key []).payloadSize = kMaxPayload) ∧
    «open» .reference { memtableSizeBytes := 2 ^ 33 } Disk.empty = .ok start.engine start.disk ∧
    (forM (keys.map (Command.put · []) ++ [.flush]) fun command =>
      (Command.program .reference .asStored .faultless command).run : Action Status World Unit) start = .ok () world ∧
    «open» .reference { memtableSizeBytes := 2 ^ 33 } world.disk = .ok recovered.engine recovered.disk ∧
    recovered.engine.activeMemtable.entries = [] ∧
    (∀ file ∈ recovered.engine.compactionManager.files,
      SSTableReader.open file.filepath (diskFiles recovered.disk.tables file.filepath) =
        .error (corruption "Index key extends past block")) ∧
    ∀ key ∈ keys, newest BlockEntry.key (effects (keys.map (Mutation.put · []))) key = some ⟨key, [], false⟩ ∧
      getBytes .reference recovered key = some (.ok none) := by
  obtain ⟨width, size⟩ : ∃ width, width = 67108847 := ⟨_, rfl⟩
  have wide := effects_widePuts_wide 65 width (by omega)
  have ascending := effects_widePuts_ascending 65 width (by decide)
  have short : ∀ m ∈ written (widePuts 65 width), m.payloadSize = kMaxPayload := by
    rw [written_widePuts]
    intro m member
    obtain ⟨key, inKeys, rfl⟩ := List.mem_map.mp member
    simp only [Mutation.payloadSize, wideKeys_length (by omega) inKeys, size, List.length_nil, kMaxPayload]
  have counted : (written (widePuts 65 width)).length = 65 := by simp [written_widePuts, wideKeys]
  have entries : (effects (written (widePuts 65 width))).length = 65 := by rw [effects, List.length_map, counted]
  have data := wide.dataSize_eq
  rw [entries] at data
  have room : (logBytes (written (widePuts 65 width))).length ≤ maxFileSize := by
    rw [logBytes_length, List.map_congr_left fun m member => by rw [short m member]]
    simp [counted, kWALHeaderSize, kMaxPayload, maxFileSize]
  obtain ⟨started, filled, filling⟩ := fill_run .reference { memtableSizeBytes := 2 ^ 33 } .asStored
    (by simp [widePuts]) (fun m member => (short m member).le) room
    (by rw [fillBound, counted, data, size]; decide) (by decide)
  have active : started.engine.activeMemtable.entries = effects (written (widePuts 65 width)) :=
    filling.serving.active.trans (replay_ascending_self _ ascending)
  have nonempty : started.engine.activeMemtable.entries ≠ [] := by
    intro empty
    simp [← active, empty] at entries
  obtain ⟨world, recovered, flushed, opened, emptied, unread, lost⟩ := refused_flush_loses filling
    (fun m member => (short m member).le) nonempty (active ▸ wide.open_refused entries size)
  refine ⟨wideKeys 65 width, _, world, recovered, by simp [wideKeys], ?_, open_empty _ _,
    Action.forM_concat_ok.mpr ⟨started, filled, flushed⟩, opened, emptied, unread, fun key member => ⟨?_, lost key ?_⟩⟩
  · exact fun key member => short (.put key []) (written_widePuts 65 width ▸ List.mem_map_of_mem member)
  · have stored : (⟨key, [], false⟩ : BlockEntry) ∈ effects (written (widePuts 65 width)) := by
      rw [effects_widePuts]
      exact List.mem_map_of_mem member
    have found := find_replay BlockEntry.key (effects (written (widePuts 65 width))) [] key
    rw [replay_ascending_self _ ascending, find_mem _ ascending stored, find_nil, Option.or_none] at found
    rw [← written_widePuts, ← found]
  · rintro rfl
    have := wideKeys_length (by omega) member
    simp at this
    omega

end StorageEngine

end VectorDb.Storage
