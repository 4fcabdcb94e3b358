import VectorDb.Engine.FileLookup
import VectorDb.Engine.Serving
import VectorDb.MemTable.MemoryUsage

namespace VectorDb.Storage
open Lib Common CompactionManager

/-- Object sizes of a real platform: a node is larger than the fixed part of an entry in a block, and nothing
comes near the 64 bits of `memory_usage_`. -/
structure OrdinarySizes (pf : Platform) : Prop where
  node : 9 ≤ pf.sizeofSkipListNode
  bounded : pf.sizeofSkipList + pf.sizeofSkipListNode + kMaxHeight * pf.sizeofPointer ≤ 2 ^ 30

theorem Mutation.encodedSize_effect_le (m : Mutation) : m.effect.encodedSize ≤ m.payloadSize := by
  cases m <;> simp only [BlockEntry.encodedSize, Mutation.effect, Mutation.payloadSize, List.length_nil] <;> omega

namespace SkipList

variable {pf : Platform} {s : SkipList} {order : List NodePtr}

theorem Represents.dataSize_le_footprint (rep : s.Represents order) (ordinary : OrdinarySizes pf) :
    dataSize s.entries ≤ s.footprint pf := by
  have node : load (fun n => (s.entryAt n).encodedSize) order ≤ load (s.nodeBytes pf) order := by
    apply load_le_load
    intro n _
    have := ordinary.node
    simp only [nodeBytes, BlockEntry.encodedSize, entryAt]
    omega
  rw [rep.entries_eq, rep.footprint_eq, dataSize, load, List.map_map]
  exact node.trans (Nat.le_add_left _ _)

theorem Represents.footprint_le_nodes (rep : s.Represents order) (pf : Platform) :
    s.footprint pf ≤ pf.sizeofSkipList + (pf.sizeofSkipListNode + kMaxHeight * pf.sizeofPointer) * (s.entries.length + 1) +
      dataSize s.entries := by
  have node : load (s.nodeBytes pf) order ≤
      load (fun n => pf.sizeofSkipListNode + kMaxHeight * pf.sizeofPointer + (s.entryAt n).encodedSize) order := by
    apply load_le_load
    intro n member
    have tall : s.height n * pf.sizeofPointer ≤ kMaxHeight * pf.sizeofPointer :=
      Nat.mul_le_mul_right _ ((rep.tall n member).2.trans rep.maxHeight.2)
    simp only [nodeBytes, BlockEntry.encodedSize, entryAt]
    omega
  have base : (empty pf).memoryUsage =
      pf.sizeofSkipList + (pf.sizeofSkipListNode + kMaxHeight * pf.sizeofPointer) := Nat.add_assoc _ _ _
  rw [load_add_const] at node
  rw [rep.entries_eq, rep.footprint_eq, base, dataSize, load, List.map_map, List.length_map, Nat.mul_succ]
  change _ + load (s.nodeBytes pf) order ≤ _ + load (fun n => (s.entryAt n).encodedSize) order
  omega

theorem Represents.footprint_le (rep : s.Represents order) (ordinary : OrdinarySizes pf) :
    s.footprint pf ≤ 2 ^ 30 + (2 ^ 30 + 1) * dataSize s.entries := by
  have bounded := ordinary.bounded
  have nodes := rep.footprint_le_nodes pf
  have count := length_le_dataSize s.entries
  have each : (pf.sizeofSkipListNode + kMaxHeight * pf.sizeofPointer) * s.entries.length ≤
      2 ^ 30 * dataSize s.entries := Nat.mul_le_mul (by omega) (by omega)
  rw [Nat.mul_succ] at nodes
  omega

theorem Tracked.dataSize_le (tracked : Tracked pf s order) (ordinary : OrdinarySizes pf)
    (small : dataSize s.entries ≤ 2 ^ 30) : dataSize s.entries ≤ s.memoryUsage := by
  have least := tracked.represents.dataSize_le_footprint ordinary
  have most := tracked.represents.footprint_le ordinary
  -- The counter has not wrapped around at 2^64.
  rw [tracked.accounted.equal (by omega)]
  exact least

end SkipList

namespace StorageEngine

variable {pf : Platform} {config : StorageConfig} {device : Device} {world world' between : World} {m : Mutation}
  {ms : List Mutation}

/-- Bounds under which no 32-bit field of a table file overflows. -/
structure Moderate (pf : Platform) (config : StorageConfig) (ms : List Mutation) : Prop where
  platform : OrdinarySizes pf
  threshold : config.memtableSizeBytes ≤ 2 ^ 29
  entry : ∀ m ∈ ms, m.effect.encodedSize ≤ 2 ^ 29

theorem Moderate.part {part : List Mutation} (moderate : Moderate pf config ms) (subset : part ⊆ ms) :
    Moderate pf config part :=
  ⟨moderate.platform, moderate.threshold, fun m member => moderate.entry m (subset member)⟩

theorem Moderate.fits (moderate : Moderate pf config ms) : ∀ m ∈ ms, m.payloadSize < 2 ^ 32 := by
  intro m member
  have entry := moderate.entry m member
  cases m <;> simp only [BlockEntry.encodedSize, Mutation.effect, Mutation.payloadSize] at entry ⊢ <;> omega

structure Ready (pf : Platform) (world : World) : Prop where
  tracked : ∃ order, SkipList.Tracked pf world.engine.activeMemtable.table order
  entry : ∀ e ∈ world.engine.activeMemtable.entries, e.encodedSize ≤ 2 ^ 29
  all : dataSize world.engine.activeMemtable.entries ≤ 2 ^ 30
  files : ModestFiles world.store

structure Sized (pf : Platform) (world : World) : Prop extends Ready pf world where
  active : dataSize world.engine.activeMemtable.entries ≤ world.engine.config.memtableSizeBytes

theorem sized_fresh (pf : Platform) (config : StorageConfig) : Sized pf (fresh pf config) where
  tracked := ⟨[], SkipList.tracked_empty pf⟩
  entry := by simp [fresh]
  all := by simp [fresh]
  files := by simp [ModestFiles, World.store, fresh, CompactionManager.new]
  active := by simp [fresh]

theorem Ready.afterFlush (ready : Ready pf world) (nonempty : world.engine.activeMemtable.entries ≠ []) :
    Sized pf (afterFlush pf world (.ofMemTable world.engine.activeMemtable nonempty)) where
  tracked := ⟨[], SkipList.tracked_empty pf⟩
  entry := by simp [StorageEngine.afterFlush]
  all := by simp [StorageEngine.afterFlush]
  files := ready.files.register (flushMeta world.engine.config.sstDir
    (.ofMemTable world.engine.activeMemtable nonempty) world.engine.nextSstSequence) ⟨ready.entry, ready.all⟩
  active := by simp [StorageEngine.afterFlush]

namespace Sized

theorem write (sized : Sized pf world) (threshold : world.engine.config.memtableSizeBytes ≤ 2 ^ 29)
    (small : m.effect.encodedSize ≤ 2 ^ 29) (wal : WAL) (file : Bytes) : Ready pf (afterWrite pf world m wal file) := by
  have entries := MemTable.entries_apply pf world.engine.activeMemtable m
  refine ⟨?_, fun e member => ?_, ?_, sized.files⟩
  · obtain ⟨order, tracked⟩ := sized.tracked
    have size : m.effect.value.length < 2 ^ 64 := by
      rw [BlockEntry.encodedSize] at small
      omega
    cases m <;> exact tracked.apply size
  · rw [afterWrite, entries] at member
    rcases mem_upsert _ member with rfl | old
    · exact small
    · exact sized.entry e old
  · have grows : dataSize (upsert BlockEntry.key m.effect world.engine.activeMemtable.entries) ≤
        dataSize world.engine.activeMemtable.entries + m.effect.encodedSize := load_upsert_le _ _ _ _
    have active := sized.active
    rw [afterWrite, entries]
    omega

theorem wrote (sized : Sized pf world) (threshold : world.engine.config.memtableSizeBytes ≤ 2 ^ 29)
    (small : ∀ m ∈ ms, m.effect.encodedSize ≤ 2 ^ 29) (wrote : Wrote pf device world ms between) : Ready pf between := by
  cases wrote with
  | nothing => exact sized.toReady
  | entry => exact sized.write threshold (small _ (by simp)) _ _

theorem writeEntry (sized : Sized pf world) (platform : OrdinarySizes pf)
    (threshold : world.engine.config.memtableSizeBytes ≤ 2 ^ 29) (levels : 0 < world.engine.compactionManager.maxLevel)
    (small : m.effect.encodedSize ≤ 2 ^ 29) (ran : (writeEntry pf .none device m).run world = .ok () world') :
    Sized pf world' := by
  obtain ⟨lsn, wal, file, appended, -⟩ := writeEntry_ok ran
  have ready := sized.write threshold small wal file
  rw [writeEntry_run appended] at ran
  split_ifs at ran with full
  · rcases flushMemTable_cases (by exact levels) ran with ⟨empty, -⟩ | ⟨nonempty, rfl⟩
    · exact absurd ((MemTable.entries_apply pf _ m).symm.trans empty) (upsert_ne_nil _ _ _)
    · exact ready.afterFlush nonempty
  · cases ran
    obtain ⟨order, tracked⟩ := ready.tracked
    exact ⟨ready, (tracked.dataSize_le platform ready.all).trans (not_le.mp full).le⟩

theorem command {command : Command} (sized : Sized pf world) (platform : OrdinarySizes pf)
    (threshold : world.engine.config.memtableSizeBytes ≤ 2 ^ 29) (levels : 0 < world.engine.compactionManager.maxLevel)
    (small : ∀ m ∈ command.mutations, m.effect.encodedSize ≤ 2 ^ 29)
    (ran : (command.program pf .none device).run world = .ok () world') : Sized pf world' := by
  cases command with
  | put key value => exact sized.writeEntry platform threshold levels (small _ (List.mem_singleton_self _)) ran
  | delete key => exact sized.writeEntry platform threshold levels (small _ (List.mem_singleton_self _)) ran
  | flush =>
    rcases flushMemTable_cases levels ran with ⟨-, rfl⟩ | ⟨nonempty, rfl⟩
    · exact sized
    · exact sized.toReady.afterFlush nonempty

end Sized

theorem runAll_sized {commands : List Command} (moderate : Moderate pf config (written commands))
    (ran : runAll pf device commands (fresh pf config) = .ok () world) :
    (∃ unflushed, Serving pf config unflushed world) ∧ Sized pf world := by
  refine runAll_induction (P := fun commands world => Moderate pf config (written commands) →
    (∃ unflushed, Serving pf config unflushed world) ∧ Sized pf world)
    (fun _ => ⟨⟨_, serving_fresh pf config⟩, sized_fresh pf config⟩) ?_ ran moderate
  intro commands command before after earlier last moderate
  rw [written_concat] at moderate
  obtain ⟨⟨unflushed, serving⟩, sized⟩ := earlier (moderate.part (by simp))
  exact ⟨serving.command last, sized.command moderate.platform (serving.configured ▸ moderate.threshold) serving.levels
    (fun m member => moderate.entry m (by simp [member])) last⟩

/-- `Get` with the tables read from the bytes at their paths. `none` is undefined behaviour in a Bloom filter. -/
def getOnDisk (pf : Platform) (files : Files) (engine : StorageEngine) (key : Bytes) : Option (ErrorOr (Option Bytes)) :=
  match engine.activeMemtable.get key with
  | some value => some (.ok (some value))
  | none =>
    match engine.immutableMemtable.bind fun immutable => immutable.get key with
    | some value => some (.ok (some value))
    | none => getFromFiles pf files engine.compactionManager.files key

def getBytes (pf : Platform) (world : World) (key : Bytes) : Option (ErrorOr (Option Bytes)) :=
  getOnDisk pf (diskFiles world.disk.tables) world.engine key

theorem getOnDisk_eq {files : Files} (readable : Readable world.store) (stored : StoredAsBytes files world.disk.tables)
    (key : Bytes) : getOnDisk pf files world.engine key = some (get pf .none world key) := by
  have tables : getFromFiles pf files world.engine.compactionManager.files key =
      some (getFromSSTables pf .none world.store key) := readable.getFromFiles_eq stored key
  rw [getOnDisk, get, tables]
  cases world.engine.activeMemtable.get key with
  | some value => rfl
  | none => cases world.engine.immutableMemtable.bind fun immutable => immutable.get key <;> rfl

theorem getBytes_eq (readable : Readable world.store) (key : Bytes) :
    getBytes pf world key = some (get pf .none world key) :=
  getOnDisk_eq readable (storedAsBytes_diskFiles _) key

theorem Ready.readable (ready : Ready pf world) (searchable : Searchable world.store) : Readable world.store :=
  ready.files.readable searchable.recorded

theorem NewFile.readable_afterFlush (new : NewFile world) (readable : Readable world.store) {table : SSTable}
    (small : dataSize table.entries ≤ 2 ^ 30) : Readable (afterFlush pf world table).store :=
  readable.register (flushMeta world.engine.config.sstDir table world.engine.nextSstSequence) new.unused ⟨rfl, rfl⟩ small

end StorageEngine

end VectorDb.Storage
