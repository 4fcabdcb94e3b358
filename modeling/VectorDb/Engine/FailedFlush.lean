import VectorDb.Engine.Serving

namespace VectorDb.Storage
open Lib Common CompactionManager

namespace StorageEngine

variable (pf : Platform) (io : Faults) (device : Device)

def pendingEntry (world : World) (key : Bytes) : Option BlockEntry :=
  (find BlockEntry.key world.engine.activeMemtable.entries key).or
    (world.engine.immutableMemtable.bind fun immutable => find BlockEntry.key immutable.entries key)

def engineEntry (world : World) (key : Bytes) : Option BlockEntry :=
  (pendingEntry world key).or (catalogueEntry pf world.store key)

inductive FailedFlush (started : World) (status : Status) (after : World) : Prop
  | flush : (flushMemTable pf io).run started = .error status after → FailedFlush started status after
  | write {world logged : World} {m : Mutation} : appendLog device m world = .ok () logged →
      applyMutation pf m logged = .ok true started → (writeEntry pf io device m).run world = .error status after →
      FailedFlush started status after

def flushStore (world : World) : Action Status Store Unit := do
  Action.zoom Store.tables (fun tables store => { store with tables })
    (writeTable io (flushFile world) world.engine.activeMemtable)
  registerFile (flushedMeta io (flushFile world) world.engine.nextSstSequence (← MonadState.get).tables)

structure Left (started after : World) : Prop where
  active : after.engine.activeMemtable.entries = []
  immutable : after.engine.immutableMemtable = none
  store : after.store = (flushStore io started).final started.store

variable {pf io device} {started after : World} {status : Status}

theorem Left.onCheckpoints (left : Left io started after) (x : Action Status CheckpointFiles Unit) :
    Action.Ensures (onCheckpoints x) after (fun _ => Left io started) (Left io started) := by
  apply Action.Ensures.of_final
  rw [StorageEngine.onCheckpoints, Action.final_zoom]
  exact ⟨left.active, left.immutable, left.store⟩

theorem Left.saveCheckpoint (left : Left io started after) (checkpoint : Checkpoint) :
    Action.Ensures (saveCheckpoint io checkpoint).run after (fun _ => Left io started) (Left io started) := by
  simp only [StorageEngine.saveCheckpoint, Program.run_bind, Program.run_atomic, Program.run_tearing]
  apply Action.Ensures.get_bind
  apply (left.onCheckpoints _).bind
  exact fun _ _ left => left.onCheckpoints _

variable (pf) in
def drawn (world : World) : World := { world with engine := { world.engine with
  activeMemtable := MemTable.new pf
  immutableMemtable := none
  nextSstSequence := world.engine.nextSstSequence + 1 } }

theorem onStore_bind {α β : Type} (x : Action Status Store α) (f : α → Action Status Store β) :
    onStore (x >>= f) = onStore x >>= fun a => onStore (f a) :=
  Action.zoom_bind World.store_withStore World.withStore_withStore x f

theorem flushMemTable_filled (filled : ¬ started.engine.activeMemtable.isEmpty = true) :
    (flushMemTable pf io).run started = (do
      onStore (flushStore io started)
      let world ← MonadState.get
      (saveCheckpoint io ⟨started.engine.wal.currentSequenceNumber, world.engine.compactionManager.files⟩).run
      finishFlush) (drawn pf started) := by
  rw [flushMemTable, Program.run_bind, Program.run_atomic, Action.bind_of_ok (swapMemTables_filled pf filled)]
  simp only [Program.run_bind, Program.run_atomic, Program.run_tearing, flushStore, onStore_bind, bind_assoc]
  rw [Action.bind_of_ok (captureLsn_run _), Action.bind_of_ok (drawSstSequence_run _),
    Action.bind_of_ok (Action.get_eq _)]
  rfl

theorem flushMemTable_left :
    Action.Ensures (flushMemTable pf io).run started (fun _ _ => True) (Left io started) := by
  by_cases empty : started.engine.activeMemtable.isEmpty = true
  · rw [Action.Ensures, flushMemTable, Program.run_bind, Program.run_atomic,
      Action.bind_of_ok (swapMemTables_empty pf empty)]
    trivial
  · have stored : Action.Ensures (onStore (flushStore io started)) (drawn pf started)
        (fun _ => Left io started) (Left io started) := by
      apply Action.Ensures.of_final
      rw [onStore, Action.final_zoom]
      exact ⟨MemTable.entries_new pf, rfl, rfl⟩
    rw [Action.Ensures, flushMemTable_filled empty]
    apply stored.bind
    intro _ world left
    apply Action.Ensures.get_bind
    apply (left.saveCheckpoint _).bind
    exact fun _ _ _ => trivial

namespace FailedFlush

variable (failed : FailedFlush pf io device started status after)
include failed

theorem fails : (flushMemTable pf io).run started = .error status after := by
  cases failed with
  | flush fails => exact fails
  | write logged applied fails =>
    rwa [writeEntry, Program.run_bind, Program.run_tearing, Action.bind_of_ok logged, Program.run_bind,
      Program.run_atomic, Action.bind_of_ok applied, if_pos rfl] at fails

theorem nonempty : started.engine.activeMemtable.entries ≠ [] := by
  intro empty
  have fails := failed.fails
  rw [flushMemTable, Program.run_bind, Program.run_atomic,
    Action.bind_of_ok (swapMemTables_empty pf ((MemTable.isEmpty_iff _).mpr empty))] at fails
  cases fails

theorem engineEntry_after (key : Bytes) :
    engineEntry pf after key = catalogueEntry pf ((flushStore io started).final started.store) key := by
  have left := flushMemTable_left.of_error failed.fails
  rw [engineEntry, pendingEntry, left.active, left.immutable, left.store]
  rfl

end FailedFlush

/-- The flush writes its file whole and catalogues it, and the file shows the key: its range is read back, or stays
empty and has the empty key only. -/
structure Landed (io : Faults) (started : World) (table : SSTable) (key : Bytes) : Prop where
  created : io.createTable (flushFile started) = false
  written : io.writeTable (flushFile started) = none
  kept : io.leaves (flushFile started) table = .complete table
  catalogued : 0 < started.engine.compactionManager.maxLevel
  shown : io.readTable (flushFile started) = false ∧ io.refuses table = none ∨ key = []

section Store

def storeWith (world : World) (content : Option TableFile) : Store :=
  { world.store with tables := Function.update world.store.tables (flushFile world) content }

variable (nonempty : started.engine.activeMemtable.entries ≠ [])

def flushedTable : SSTable := .ofMemTable started.engine.activeMemtable nonempty

def writtenStore (io : Faults) : Store :=
  storeWith started (some (io.leaves (flushFile started) (flushedTable nonempty)))

def writtenMeta (io : Faults) : SSTableMeta :=
  flushedMeta io (flushFile started) started.engine.nextSstSequence (writtenStore nonempty io).tables

variable (io) in
theorem writtenStore_file : (writtenStore nonempty io).tables (flushFile started) =
    some (io.leaves (flushFile started) (flushedTable nonempty)) :=
  Function.update_self ..

include nonempty in
theorem flushStore_unwritten
    (fails : io.createTable (flushFile started) = true ∨ io.writeTable (flushFile started) ≠ none) :
    ∃ content, (flushStore io started).final started.store = storeWith started content := by
  obtain ⟨status, content, wrote⟩ := writeTable_unwritten nonempty fails started.store.tables
  refine ⟨content, Action.final_bind_of_error (e := status) ?_ _⟩
  rw [Action.zoom, wrote]
  rfl

theorem flushStore_written (created : io.createTable (flushFile started) = false)
    (written : io.writeTable (flushFile started) = none) :
    (flushStore io started).final started.store =
      (registerFile (writtenMeta nonempty io)).final (writtenStore nonempty io) :=
  Action.final_bind_of_ok (Action.zoom_ok.mpr ⟨_, writeTable_written created written nonempty _, rfl⟩) _

theorem entryIn_kept (kept : io.leaves (flushFile started) (flushedTable nonempty) = .complete (flushedTable nonempty))
    {key : Bytes} (shown : io.readTable (flushFile started) = false ∧ io.refuses (flushedTable nonempty) = none ∨
      key = []) :
    entryIn (writtenStore nonempty io).tables key (writtenMeta nonempty io) =
      find BlockEntry.key started.engine.activeMemtable.entries key := by
  have stored := writtenStore_file io nonempty
  rw [kept] at stored
  have version : versionAt (writtenStore nonempty io).tables key (flushFile started) =
      find BlockEntry.key started.engine.activeMemtable.entries key := by
    rw [versionAt, stored]
    rfl
  by_cases readable : io.readTable (flushFile started) = false ∧ io.refuses (flushedTable nonempty) = none
  · have recorded : Recorded (writtenStore nonempty io).tables (writtenMeta nonempty io) (flushedTable nonempty) := by
      refine ⟨stored, ?_, ?_⟩ <;> simp [writtenMeta, flushedMeta, openTable, stored, readable]
    rw [entryIn_recorded recorded]
    exact version
  · obtain rfl := shown.resolve_left readable
    rw [entryIn, if_neg]
    · exact version
    · obtain ⟨status, unread⟩ := openTable_refused stored readable
      simp [writtenMeta, flushedMeta, unread]

theorem entryIn_hidden {key : Bytes}
    (hidden : ¬ (io.leaves (flushFile started) (flushedTable nonempty) = .complete (flushedTable nonempty) ∧
      (io.readTable (flushFile started) = false ∧ io.refuses (flushedTable nonempty) = none ∨ key = []))) :
    entryIn (writtenStore nonempty io).tables key (writtenMeta nonempty io) = none := by
  have stored := writtenStore_file io nonempty
  cases left : io.leaves (flushFile started) (flushedTable nonempty) with
  | torn bytes =>
    rw [left] at stored
    have version : versionAt (writtenStore nonempty io).tables key (writtenMeta nonempty io).filepath = none := by
      rw [versionAt, writtenMeta, flushedMeta, stored]
    rw [entryIn, version, ite_self]
  | complete table =>
    obtain rfl := Faults.leaves_complete left
    rw [left] at stored hidden
    simp only [true_and, not_or] at hidden
    obtain ⟨status, unread⟩ := openTable_refused stored hidden.1
    have above : key > [] := lt_of_le_of_ne (nil_le key) (Ne.symm hidden.2)
    have largest : (writtenMeta nonempty io).largestKey = [] := by simp [writtenMeta, flushedMeta, unread]
    rw [entryIn, if_pos (.inr (largest ▸ above))]

theorem NewFile.catalogueEntry_written (new : NewFile started) (key : Bytes) :
    catalogueEntry pf (withFiles (writtenStore nonempty io) [writtenMeta nonempty io]) key =
      (entryIn (writtenStore nonempty io).tables key (writtenMeta nonempty io)).or
        (catalogueEntry pf started.store key) := by
  have front : ∀ other ∈ started.store.manager.files, Newer (writtenMeta nonempty io) other := by
    intro other member
    have := new.front other member
    unfold Newer
    simp only [writtenMeta, flushedMeta]
    omega
  exact @catalogueEntry_register pf started.store (writtenMeta nonempty io) key new.unused front (new.comparable key) _

variable (pf io) in
theorem NewFile.catalogueEntry_landed (new : NewFile started) {key : Bytes}
    (landed : Landed io started (flushedTable nonempty) key) :
    catalogueEntry pf ((flushStore io started).final started.store) key =
      (find BlockEntry.key started.engine.activeMemtable.entries key).or (catalogueEntry pf started.store key) := by
  rw [flushStore_written nonempty landed.created landed.written, registerFile_final,
    if_pos ⟨le_rfl, landed.catalogued⟩, new.catalogueEntry_written nonempty key,
    entryIn_kept nonempty landed.kept landed.shown]

variable (pf io) in
theorem NewFile.catalogueEntry_lost (new : NewFile started) {key : Bytes}
    (lost : ¬ Landed io started (flushedTable nonempty) key) :
    catalogueEntry pf ((flushStore io started).final started.store) key = catalogueEntry pf started.store key := by
  have same : ∀ content, catalogueEntry pf (storeWith started content) key = catalogueEntry pf started.store key :=
    fun content => catalogueEntry_update new.unused content key
  by_cases fails : io.createTable (flushFile started) = true ∨ io.writeTable (flushFile started) ≠ none
  · obtain ⟨content, left⟩ := flushStore_unwritten nonempty fails
    rw [left, same]
  simp only [not_or, Bool.not_eq_true, not_not] at fails
  rw [flushStore_written nonempty fails.1 fails.2, registerFile_final]
  by_cases levels : 0 < started.engine.compactionManager.maxLevel
  · rw [if_pos ⟨le_rfl, levels⟩, new.catalogueEntry_written nonempty key,
      entryIn_hidden nonempty fun shows => lost ⟨fails.1, fails.2, shows.1, levels, shows.2⟩, Option.none_or]
  · rw [if_neg fun valid => levels valid.2]
    exact same _

end Store

variable (pf io) in
theorem flushMemTable_fails (nonempty : started.engine.activeMemtable.entries ≠ [])
    (faulty : io.createTable (flushFile started) = true ∨ io.openTemp = true) :
    ∃ status after, (flushMemTable pf io).run started = .error status after := by
  cases ran : (flushMemTable pf io).run started with
  | error status after => exact ⟨status, after, rfl⟩
  | ok _ after =>
    rw [flushMemTable_filled fun empty => nonempty ((MemTable.isEmpty_iff _).mp empty)] at ran
    obtain ⟨_, world, stored, ran⟩ := Action.bind_ok.mp ran
    rw [Action.bind_of_ok (Action.get_eq _)] at ran
    obtain ⟨_, saved, saves, -⟩ := Action.bind_ok.mp ran
    rcases faulty with uncreated | blocked
    · obtain ⟨store, stored, -⟩ := Action.zoom_ok.mp stored
      obtain ⟨_, between, wrote, -⟩ := Action.bind_ok.mp stored
      obtain ⟨tables, wrote, -⟩ := Action.zoom_ok.mp wrote
      obtain ⟨status, content, failed⟩ := writeTable_unwritten nonempty (.inl uncreated) (drawn pf started).store.tables
      rw [failed] at wrote
      cases wrote
    · simp only [saveCheckpoint, Program.run_bind, Program.run_atomic, Program.run_tearing] at saves
      rw [Action.bind_of_ok (Action.get_eq _)] at saves
      obtain ⟨_, between, temp, -⟩ := Action.bind_ok.mp saves
      obtain ⟨files, temp, -⟩ := Action.zoom_ok.mp temp
      simp [CheckpointManager.writeTemp, blocked, Action.bind_ok] at temp

def uncreatable : Faults := { Faults.none with createTable := fun _ => true }

end StorageEngine

end VectorDb.Storage
