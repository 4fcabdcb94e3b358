import VectorDb.Compaction.Meaning
import VectorDb.Lib.Interleaving

namespace VectorDb.Storage
open Lib Common CompactionManager

namespace StorageEngine

section Definitions
variable (pf : Platform)

/-- One pass of the loop of `GetFromSSTables`. It goes on where there is no result. -/
def searchTable (tables : Tables) (key : Bytes) (file : SSTableMeta) : Option (ErrorOr (Option Bytes)) :=
  if key < file.smallestKey ∨ key > file.largestKey then none
  else
    match openTable .none tables file.filepath with
    | .error status => some (.error status)
    | .ok table => (table.lookup key).map fun entry => .ok entry.visible

theorem searchTables_cons (tables : Tables) (key : Bytes) (file : SSTableMeta) (files : List SSTableMeta) :
    searchTables .none tables key (file :: files) =
      (searchTable tables key file).getD (searchTables .none tables key files) := by
  rw [searchTables, searchTable]
  split_ifs
  · rfl
  · cases opened : openTable .none tables file.filepath with
    | error status => rfl
    | ok table =>
      cases found : table.lookup key with
      | none => simp [bind, Except.bind, found]
      | some entry => cases tombstone : entry.isTombstone <;>
          simp [bind, Except.bind, found, BlockEntry.visible, tombstone]

theorem searchTables_congr {tables tables' : Tables} {key : Bytes} (files : List SSTableMeta)
    (same : ∀ file ∈ files, tables file.filepath = tables' file.filepath) :
    searchTables .none tables key files = searchTables .none tables' key files := by
  induction files with
  | nil => rfl
  | cons file files ih =>
    rw [searchTables_cons, searchTables_cons, ih fun other member => same other (by simp [member])]
    simp only [searchTable, openTable, same file (by simp)]

inductive TablePhase where
  | register (newFiles : List SSTableMeta) (inputs : List Path)
  | uncatalogue (inputs : List Path)
  | unlink (path : Path) (inputs : List Path)
  | compacted
  | snapshot (key : Bytes)
  | search (key : Bytes) (files : List SSTableMeta)
  | returned (result : ErrorOr (Option Bytes))

def TablePhase.step : TablePhase → Option (Action Status Store TablePhase)
  | register [] inputs => some (pure (uncatalogue inputs))
  | register (file :: newFiles) inputs => some do
      registerFile file
      return register newFiles inputs
  | uncatalogue [] => some (pure compacted)
  | uncatalogue (path :: inputs) => some do
      CompactionManager.uncatalogue path
      return unlink path inputs
  | unlink path inputs => some do
      CompactionManager.unlink path
      return uncatalogue inputs
  | compacted => none
  | snapshot key => some do
      let allFiles := (← get).manager.files
      return search key (pf.sort searchedBefore allFiles)
  | search _ [] => some (pure (returned (.ok none)))
  | search key (file :: files) => some do
      let tables := (← get).tables
      return (searchTable tables key file).elim (search key files) returned
  | returned _ => none

inductive Party where
  | compactor
  | reader
deriving DecidableEq

def compactAndGet (merged : Store) (newFiles : List SSTableMeta) (inputs : List Path) (key : Bytes) :
    Pool Store TablePhase Party :=
  ⟨merged, fun
    | .compactor => .register newFiles inputs
    | .reader => .snapshot key⟩

end Definitions

namespace TablePhase

def registers : TablePhase → Option SSTableMeta
  | register (file :: _) _ => some file
  | _ => none

def removes : TablePhase → Option Path
  | uncatalogue (path :: _) => some path
  | _ => none

def deletes : TablePhase → Option Path
  | unlink path _ => some path
  | _ => none

def opens : TablePhase → Option SSTableMeta
  | search key (file :: _) => if key < file.smallestKey ∨ key > file.largestKey then none else some file
  | _ => none

end TablePhase

abbrev TableMove := Move TablePhase Party

def registered (moves : List TableMove) : List SSTableMeta := moves.filterMap fun move => move.source.registers

def removed (moves : List TableMove) : List Path := moves.filterMap fun move => move.source.removes

def deleted (moves : List TableMove) : List Path := moves.filterMap fun move => move.source.deletes

def snapshotOf (move : TableMove) : Option (List SSTableMeta) :=
  match move.source, move.target with
  | .snapshot _, .search _ files => some files
  | _, _ => none

def snapshots (moves : List TableMove) : List (List SSTableMeta) := moves.filterMap snapshotOf

/-- The files listed give, as the merge left them, the result from before the compaction. -/
def ListsRight (pf : Platform) (store merged : Store) (key : Bytes) (moves : List TableMove) : Prop :=
  ∀ files ∈ snapshots moves, searchTables .none merged.tables key files = getFromSSTables pf .none store key

def OpensDeleted (moves : List TableMove) : Prop :=
  ∃ early move, early ++ [move] <+: moves ∧ ∃ file ∈ move.source.opens, file.filepath ∈ deleted early

def SnapshotOutside (inputs : List Path) (moves : List TableMove) : Prop :=
  ∀ early move key, early ++ [move] <+: moves → move.source = .snapshot key →
    removed early = [] ∨ ∀ path ∈ inputs, path ∈ removed early

section Concat
variable (moves : List TableMove) (move : TableMove)

@[simp] theorem registered_concat : registered (moves ++ [move]) = registered moves ++ move.source.registers.toList := by
  cases h : move.source.registers <;> simp [registered, h]

@[simp] theorem removed_concat : removed (moves ++ [move]) = removed moves ++ move.source.removes.toList := by
  cases h : move.source.removes <;> simp [removed, h]

@[simp] theorem deleted_concat : deleted (moves ++ [move]) = deleted moves ++ move.source.deletes.toList := by
  cases h : move.source.deletes <;> simp [deleted, h]

@[simp] theorem snapshots_concat : snapshots (moves ++ [move]) = snapshots moves ++ (snapshotOf move).toList := by
  cases h : snapshotOf move <;> simp [snapshots, h]

@[simp] theorem opensDeleted_concat : OpensDeleted (moves ++ [move]) ↔
    OpensDeleted moves ∨ ∃ file ∈ move.source.opens, file.filepath ∈ deleted moves := by
  constructor
  · rintro ⟨early, last, before, opens⟩
    rcases List.prefix_concat_iff.mp before with whole | before
    · obtain ⟨rfl, isLast⟩ := List.append_inj' whole rfl
      cases isLast
      exact .inr opens
    · exact .inl ⟨early, last, before, opens⟩
  · rintro (⟨early, last, before, opens⟩ | opens)
    · exact ⟨early, last, before.trans (List.prefix_append _ _), opens⟩
    · exact ⟨moves, move, List.prefix_rfl, opens⟩

end Concat

def CompactorAt (newFiles : List SSTableMeta) (inputs : List Path) (moves : List TableMove) : TablePhase → Prop
  | .register rest paths => registered moves ++ rest = newFiles ∧ paths = inputs ∧ removed moves = [] ∧ deleted moves = []
  | .uncatalogue rest => registered moves = newFiles ∧ removed moves ++ rest = inputs ∧ deleted moves = removed moves
  | .unlink path rest => registered moves = newFiles ∧ removed moves ++ rest = inputs ∧
      removed moves = deleted moves ++ [path]
  | .compacted => registered moves = newFiles ∧ removed moves = inputs ∧ deleted moves = removed moves
  | _ => False

def ReaderAt (tables : Tables) (key : Bytes) (moves : List TableMove) : TablePhase → Prop
  | .snapshot own => own = key ∧ snapshots moves = [] ∧ ¬ OpensDeleted moves
  | .search own rest => own = key ∧ ¬ OpensDeleted moves ∧ ∃ files, snapshots moves = [files] ∧
      searchTables .none tables key files = searchTables .none tables key rest
  | .returned result => ∃ files, snapshots moves = [files] ∧
      (OpensDeleted moves ∧ (∃ status, result = .error status) ∨
        ¬ OpensDeleted moves ∧ result = searchTables .none tables key files)
  | _ => False

structure CompactionRacing (merged : Store) (newFiles : List SSTableMeta) (inputs : List Path) (key : Bytes)
    (moves : List TableMove) (pool : Pool Store TablePhase Party) : Prop where
  compactor : CompactorAt newFiles inputs moves (pool.phase .compactor)
  reader : ReaderAt merged.tables key moves (pool.phase .reader)
  files : pool.state.manager.files =
    (merged.manager.files ++ registered moves).filter fun file => file.filepath ∉ removed moves
  tables : ∀ path, pool.state.tables path = if path ∈ deleted moves then none else merged.tables path

section Steps
variable {pf : Platform} {merged : Store} {newFiles : List SSTableMeta} {inputs : List Path} {key : Bytes}
  {moves : List TableMove} {pool : Pool Store TablePhase Party} {x : Action Status Store TablePhase}
  {target : TablePhase} {state : Store}

theorem CompactorAt.reader_move {phase : TablePhase} (stands : CompactorAt newFiles inputs moves phase) (move : TableMove)
    (registers : move.source.registers = none) (removes : move.source.removes = none)
    (deletes : move.source.deletes = none) : CompactorAt newFiles inputs (moves ++ [move]) phase := by
  revert stands
  cases phase <;> simp [CompactorAt, registers, removes, deletes]

theorem CompactorAt.sound {phase : TablePhase} (stands : CompactorAt newFiles inputs moves phase) :
    (∀ file ∈ registered moves, file ∈ newFiles) ∧ (∀ path ∈ removed moves, path ∈ inputs) ∧
      (removed moves ≠ [] → registered moves = newFiles) := by
  cases phase with
  | register rest paths =>
    obtain ⟨rfl, -, unremoved, -⟩ := stands
    exact ⟨fun file member => List.mem_append_left _ member, by simp [unremoved], fun some => absurd unremoved some⟩
  | uncatalogue rest | unlink path rest =>
    obtain ⟨done, rfl, -⟩ := stands
    exact ⟨fun file member => done ▸ member, fun path member => List.mem_append_left _ member, fun _ => done⟩
  | compacted =>
    obtain ⟨done, rfl, -⟩ := stands
    exact ⟨fun file member => done ▸ member, fun path member => member, fun _ => done⟩
  | snapshot | search | returned => exact stands.elim

theorem CompactorAt.silent {phase : TablePhase} (stands : CompactorAt newFiles inputs moves phase) (party : Party)
    (target : TablePhase) : phase.opens = none ∧ snapshotOf ⟨party, phase, target⟩ = none := by
  cases phase with
  | snapshot | search | returned => exact stands.elim
  | _ => exact ⟨rfl, rfl⟩

theorem ReaderAt.compactor_move {tables : Tables} {phase : TablePhase} (stands : ReaderAt tables key moves phase)
    (move : TableMove) (opens : move.source.opens = none) (lists : snapshotOf move = none) :
    ReaderAt tables key (moves ++ [move]) phase := by
  revert stands
  cases phase <;> simp [ReaderAt, opens, lists]

theorem CompactionRacing.start :
    CompactionRacing merged newFiles inputs key [] (compactAndGet merged newFiles inputs key) where
  compactor := ⟨rfl, rfl, rfl, rfl⟩
  reader := ⟨rfl, rfl, by rintro ⟨early, move, before, -⟩; simp at before⟩
  files := by simp [compactAndGet, registered, removed]
  tables := by simp [compactAndGet, deleted]

open TablePhase in
theorem CompactorAt.next {phase : TablePhase} {store : Store} (stands : CompactorAt newFiles inputs moves phase)
    (files : store.manager.files =
      (merged.manager.files ++ registered moves).filter fun file => file.filepath ∉ removed moves)
    (tables : ∀ path, store.tables path = if path ∈ deleted moves then none else merged.tables path)
    (steps : TablePhase.step pf phase = some x) (ran : x store = .ok target state) :
    CompactorAt newFiles inputs (moves ++ [⟨.compactor, phase, target⟩]) target ∧
      state.manager.files = (merged.manager.files ++ registered (moves ++ [⟨.compactor, phase, target⟩])).filter
        (fun file => file.filepath ∉ removed (moves ++ [⟨.compactor, phase, target⟩])) ∧
      ∀ path, state.tables path = if path ∈ deleted (moves ++ [⟨.compactor, phase, target⟩]) then none
        else merged.tables path := by
  cases phase with
  | register rest paths =>
    obtain ⟨done, rfl, unremoved, undeleted⟩ := stands
    cases rest with
    | nil =>
      cases steps
      cases ran
      simp only [List.append_nil] at done
      exact ⟨by simp [CompactorAt, registers, removes, deletes, done, unremoved, undeleted],
        by simpa [registers, removes] using files, by simpa [deletes] using tables⟩
    | cons file rest =>
      cases steps
      obtain ⟨⟨⟩, between, added, returns⟩ := Action.bind_ok.mp ran
      cases returns
      obtain ⟨-, rfl⟩ := registerFile_ok.mp added
      exact ⟨by simpa [CompactorAt, registers, removes, deletes, unremoved, undeleted] using done,
        by simp [registers, removes, withFiles, files, unremoved], by simpa [deletes, withFiles] using tables⟩
  | uncatalogue rest =>
    obtain ⟨done, gone, same⟩ := stands
    cases rest with
    | nil =>
      cases steps
      cases ran
      simp only [List.append_nil] at gone
      exact ⟨by simp [CompactorAt, registers, removes, deletes, done, gone, same],
        by simpa [registers, removes] using files, by simpa [deletes] using tables⟩
    | cons path rest =>
      cases steps
      cases ran
      exact ⟨by simpa [CompactorAt, registers, removes, deletes, done, same] using gone,
        by simp [registers, removes, removeFile, files, List.filter_filter, and_comm, not_or],
        by simpa [deletes] using tables⟩
  | unlink path rest =>
    obtain ⟨done, gone, last⟩ := stands
    cases steps
    cases ran
    refine ⟨by simpa [CompactorAt, registers, removes, deletes, done, last] using gone,
      by simpa [registers, removes] using files, fun other => ?_⟩
    by_cases same : other = path <;> simp [deletes, same, tables]
  | compacted => cases steps
  | snapshot own => exact stands.elim
  | search own rest => exact stands.elim
  | returned result => exact stands.elim

theorem CompactionRacing.compactor_step (racing : CompactionRacing merged newFiles inputs key moves pool)
    (steps : TablePhase.step pf (pool.phase .compactor) = some x) (ran : x pool.state = .ok target state) :
    CompactionRacing merged newFiles inputs key (moves ++ [⟨.compactor, pool.phase .compactor, target⟩])
      (pool.after .compactor target state) := by
  obtain ⟨stands, looks, files, tables⟩ := racing
  obtain ⟨next, nextFiles, nextTables⟩ := stands.next files tables steps ran
  refine ⟨by rwa [Pool.after_phase_self], ?_, nextFiles, nextTables⟩
  rw [Pool.after_phase_of_ne _ (by decide)]
  obtain ⟨opens, lists⟩ := stands.silent .compactor target
  exact looks.compactor_move _ opens lists

theorem searchTable_deleted {file : SSTableMeta} {rest : List SSTableMeta}
    (tables : ∀ path, pool.state.tables path = if path ∈ deleted moves then none else merged.tables path)
    (gone : ∃ opened ∈ (TablePhase.search key (file :: rest)).opens, opened.filepath ∈ deleted moves) :
    ∃ status, searchTable pool.state.tables key file = some (.error status) := by
  obtain ⟨opened, opens, isDeleted⟩ := gone
  by_cases outside : key < file.smallestKey ∨ key > file.largestKey
  · simp [TablePhase.opens, outside] at opens
  · obtain rfl : file = opened := by simpa [TablePhase.opens, outside] using opens
    have missing := tables file.filepath
    rw [if_pos isDeleted] at missing
    simp [searchTable, outside, openTable, missing]

theorem searchTable_undeleted {file : SSTableMeta} {rest : List SSTableMeta}
    (tables : ∀ path, pool.state.tables path = if path ∈ deleted moves then none else merged.tables path)
    (there : ¬ ∃ opened ∈ (TablePhase.search key (file :: rest)).opens, opened.filepath ∈ deleted moves) :
    searchTable pool.state.tables key file = searchTable merged.tables key file := by
  by_cases outside : key < file.smallestKey ∨ key > file.largestKey
  · simp only [searchTable, outside, if_true]
  · have undeleted : file.filepath ∉ deleted moves := fun gone =>
      there ⟨file, by simp [TablePhase.opens, outside], gone⟩
    have same := tables file.filepath
    rw [if_neg undeleted] at same
    simp only [searchTable, openTable, same]

open TablePhase in
theorem CompactionRacing.reader_step (racing : CompactionRacing merged newFiles inputs key moves pool)
    (steps : TablePhase.step pf (pool.phase .reader) = some x) (ran : x pool.state = .ok target state) :
    CompactionRacing merged newFiles inputs key (moves ++ [⟨.reader, pool.phase .reader, target⟩])
      (pool.after .reader target state) := by
  obtain ⟨stands, looks, files, tables⟩ := racing
  generalize isPhase : pool.phase .reader = phase at *
  have idle : phase.registers = none ∧ phase.removes = none ∧ phase.deletes = none := by
    cases phase <;> simp_all [registers, removes, deletes, ReaderAt]
  suffices ReaderAt merged.tables key (moves ++ [⟨.reader, phase, target⟩]) target ∧ state = pool.state by
    refine ⟨?_, by rw [Pool.after_phase_self]; exact this.1, ?_, ?_⟩
    · rw [Pool.after_phase_of_ne _ (by decide)]
      exact stands.reader_move _ idle.1 idle.2.1 idle.2.2
    · simpa [idle, this.2] using files
    · simpa [idle, this.2] using tables
  cases phase with
  | snapshot own =>
    obtain ⟨rfl, unlisted, unopened⟩ := looks
    cases steps
    cases ran
    exact ⟨⟨rfl, by simpa [opens] using unopened, _, by simp [snapshotOf, unlisted], rfl⟩, rfl⟩
  | search own rest =>
    obtain ⟨rfl, unopened, listed, isListed, same⟩ := looks
    cases rest with
    | nil =>
      cases steps
      cases ran
      exact ⟨⟨listed, by simp [snapshotOf, isListed], .inr ⟨by simpa [opens] using unopened, same.symm⟩⟩, rfl⟩
    | cons file rest =>
      cases steps
      cases ran
      refine ⟨?_, rfl⟩
      rw [searchTables_cons] at same
      by_cases gone : ∃ opened ∈ (search own (file :: rest)).opens, opened.filepath ∈ deleted moves
      · obtain ⟨status, failed⟩ := searchTable_deleted tables gone
        rw [failed]
        exact ⟨listed, by simp [snapshotOf, isListed],
          .inl ⟨opensDeleted_concat _ _ |>.mpr (.inr gone), status, rfl⟩⟩
      · have unopened' : ¬ OpensDeleted (moves ++ [⟨.reader, search own (file :: rest),
            (searchTable pool.state.tables own file).elim (search own rest) returned⟩]) := by
          rw [opensDeleted_concat, not_or]
          exact ⟨unopened, gone⟩
        rw [searchTable_undeleted tables gone] at unopened' ⊢
        cases result : searchTable merged.tables own file with
        | none =>
          rw [result] at same unopened'
          exact ⟨rfl, unopened', listed, by simp [snapshotOf, isListed], same⟩
        | some found =>
          rw [result] at same unopened'
          exact ⟨listed, by simp [snapshotOf, isListed], .inr ⟨unopened', same.symm⟩⟩
  | returned result => cases steps
  | register rest paths => exact looks.elim
  | uncatalogue rest => exact looks.elim
  | unlink path rest => exact looks.elim
  | compacted => exact looks.elim

theorem CompactionRacing.of_run
    (run : Pool.Run (TablePhase.step pf) (compactAndGet merged newFiles inputs key) moves pool) :
    CompactionRacing merged newFiles inputs key moves pool := by
  refine run.induct CompactionRacing.start fun moves pool i x target state _ racing steps ran => ?_
  cases i with
  | compactor => exact racing.compactor_step steps ran
  | reader => exact racing.reader_step steps ran

theorem snapshotOf_some {move : TableMove} {files : List SSTableMeta} (is : snapshotOf move = some files) :
    ∃ own own', move.source = .snapshot own ∧ move.target = .search own' files := by
  obtain ⟨thread, source, target⟩ := move
  cases source <;> cases target <;> simp [snapshotOf] at is
  subst is
  exact ⟨_, _, rfl, rfl⟩

theorem snapshot_listed (run : Pool.Run (TablePhase.step pf) (compactAndGet merged newFiles inputs key) moves pool)
    {files : List SSTableMeta} (listed : files ∈ snapshots moves) :
    ∃ early move before, early ++ [move] <+: moves ∧ move.source = .snapshot key ∧
      CompactionRacing merged newFiles inputs key early before ∧
      files = pf.sort searchedBefore before.state.manager.files := by
  obtain ⟨move, member, isSnapshot⟩ := List.mem_filterMap.mp listed
  obtain ⟨early, late, rfl⟩ := List.append_of_mem member
  rw [List.append_cons] at run
  obtain ⟨middle, first, -⟩ := run.split (early ++ [move])
  obtain ⟨before, x, state, earlier, stands, steps, ran, -⟩ := first.concat_inv
  have racing := CompactionRacing.of_run earlier
  obtain ⟨own, own', isSource, isTarget⟩ := snapshotOf_some isSnapshot
  rw [isSource] at stands steps
  have isKey : own = key := by
    cases thread : move.thread with
    | compactor =>
      have nowhere := racing.compactor
      rw [← thread, stands] at nowhere
      exact nowhere.elim
    | reader =>
      have reader := racing.reader
      rw [← thread, stands] at reader
      exact reader.1
  cases steps
  rw [isTarget] at ran
  cases ran
  exact ⟨early, move, before, ⟨late, by simp⟩, isKey ▸ isSource, racing, rfl⟩

end Steps

section View
variable {pf : Platform} {io : Faults} {store merged final : Store} {level : Int} {sources targets : List SSTableMeta}
  {fileData : List (SSTableMeta × SSTable)} {outs : List SSTable}

section
variable (before : Searchable store) (merging : MergeRun pf io store merged level sources targets fileData outs)
  (lossless : io.Lossless)
include before merging

theorem merged_kept (valid : 0 ≤ level) {file : SSTableMeta} (member : file ∈ store.manager.files) :
    merged.tables file.filepath = store.tables file.filepath :=
  merging.outputs.others _ fun j _ => before.ungenerated file member _ (by omega) _ (Nat.le_add_right _ j)

include lossless in
theorem merged_recorded (valid : 0 ≤ level) {file : SSTableMeta} (member : file ∈ store.manager.files ++
      outputMetasFrom io store.manager.dataDir (level + 1) store.manager.nextFileNumber outs) :
    ∃ table, Recorded merged.tables file table := by
  rcases List.mem_append.mp member with old | new
  · obtain ⟨table, there, low, high⟩ := before.recorded file old
    exact ⟨table, (merged_kept before merging valid old).trans there, low, high⟩
  · obtain ⟨j, bound, rfl⟩ := mem_outputMetasFrom.mp new
    exact ⟨outs[j], (merging.outputs.written j bound).trans (by rw [lossless.leaves]), rfl, rfl⟩

omit before merging in
theorem output_input (run : CompactionRun pf io store final level sources targets fileData outs) {key : Bytes}
    {entry : BlockEntry} (held : ∃ table ∈ outs, table.lookup key = some entry) :
    ∃ file ∈ sources ++ targets, versionAt store.tables key file.filepath = some entry := by
  obtain ⟨file, input, found⟩ := List.exists_of_findSome?_eq_some (run.output_holds.mp held).2.2
  exact ⟨file, by simpa using input, found⟩

omit merging in
theorem output_tied (run : CompactionRun pf io store final level sources targets fileData outs) {key : Bytes}
    {entry other : BlockEntry} {first : SSTableMeta} (member : first ∈ store.manager.files)
    (found : versionAt store.tables key first.filepath = some entry)
    (front : ∀ file ∈ store.manager.files, (versionAt store.tables key file.filepath).isSome →
      file = first ∨ Newer first file) (deep : level + 1 ≤ first.level)
    (held : ∃ table ∈ outs, table.lookup key = some other) : other = entry := by
  obtain ⟨file, input, isOther⟩ := output_input run held
  obtain ⟨lo, hi, selection⟩ := run.selection
  have inFiles := selection.input_mem input
  have atMost : file.level ≤ level + 1 := by
    rcases List.mem_append.mp input with source | target
    · have := (selection.source file source).2
      omega
    · exact (selection.target_mem.mp target).2.1.le
  have valid := run.valid
  have heldInput : (versionAt store.tables key file.filepath).isSome := by simp [isOther]
  have heldFirst : (versionAt store.tables key first.filepath).isSome := by simp [found]
  have same : file = first := by
    rcases front file inFiles heldInput with same | newer
    · exact same
    · refine before.holder_unique inFiles member ?_ ?_ heldInput heldFirst <;>
        rcases newer with less | ⟨equal, -⟩ <;> omega
  rw [same, found] at isOther
  exact (Option.some.inj isOther).symm

include lossless in
theorem view_before (run : CompactionRun pf io store final level sources targets fileData outs) {added : List SSTableMeta}
    (outputs : ∀ file ∈ added,
      file ∈ outputMetasFrom io store.manager.dataDir (level + 1) store.manager.nextFileNumber outs) (key : Bytes) :
    searchTables .none merged.tables key (pf.sort searchedBefore (store.manager.files ++ added)) =
      getFromSSTables pf .none store key := by
  have valid := run.valid
  have within : ∀ file ∈ store.manager.files ++ added, file ∈ store.manager.files ++
      outputMetasFrom io store.manager.dataDir (level + 1) store.manager.nextFileNumber outs := by
    intro file member
    rcases List.mem_append.mp member with old | new
    · exact List.mem_append_left _ old
    · exact List.mem_append_right _ (outputs file new)
  have version : ∀ file ∈ store.manager.files,
      versionAt merged.tables key file.filepath = versionAt store.tables key file.filepath := fun file member => by
    rw [versionAt, merged_kept before merging valid member, versionAt]
  have output : ∀ file ∈ added, ∀ entry, versionAt merged.tables key file.filepath = some entry →
      file.level = level + 1 ∧ ∃ table ∈ outs, table.lookup key = some entry := by
    intro file member entry found
    obtain ⟨j, bound, rfl⟩ := mem_outputMetasFrom.mp (outputs file member)
    rw [versionAt, outputMetaOf, merging.outputs.written j bound, lossless.leaves] at found
    exact ⟨rfl, _, List.getElem_mem bound, found⟩
  rw [getFromSSTables_eq pf before.toLevelled, searchTables_eq _ fun file member =>
    merged_recorded before merging lossless valid (within file ((pf.mem_sort _ _ _).mp member))]
  congr 2
  cases newest : newestEntry pf store key with
  | none =>
    have unheld := (newestEntry_eq_none pf).mp newest
    refine List.findSome?_eq_none_iff.mpr fun file member => ?_
    rcases List.mem_append.mp ((pf.mem_sort _ _ _).mp member) with old | new
    · exact (version file old).trans (unheld file old)
    · by_contra held
      obtain ⟨entry, found⟩ := Option.ne_none_iff_exists'.mp held
      obtain ⟨input, isInput, isEntry⟩ := output_input run (output file new entry found).2
      obtain ⟨lo, hi, selection⟩ := run.selection
      rw [unheld input (selection.input_mem isInput)] at isEntry
      cases isEntry
  | some entry =>
    obtain ⟨first, member, found, front⟩ := (before.newestEntry_eq_some pf).mp newest
    refine findSome_of_ties (sorted_not_newer pf _) ((pf.mem_sort _ _ _).mpr (List.mem_append_left _ member))
      ((version first member).trans found) fun file inside holds => ?_
    rcases List.mem_append.mp ((pf.mem_sort _ _ _).mp inside) with old | new
    · rw [version file old] at holds ⊢
      rcases front file old holds with rfl | newer
      · exact .inl found
      · exact .inr newer
    · obtain ⟨other, isOther⟩ := Option.isSome_iff_exists.mp holds
      obtain ⟨atTarget, held⟩ := output file new other isOther
      by_cases deep : level + 1 ≤ first.level
      · exact .inl (isOther.trans (congrArg some (output_tied before run member found front deep held)))
      · exact .inr (.inl (by omega))

end

end View

section Theorem
variable {pf : Platform} {io : Faults} {dataDir : Path} {maxLevel : Int} {store merged final : Store}
  {newFiles : List SSTableMeta} {inputs : List Path} {stats : CompactionStats} {key : Bytes}
  {moves : List TableMove} {pool : Pool Store TablePhase Party} {result : ErrorOr (Option Bytes)}

theorem view_outside (reachable : Reachable pf InFlushOrder dataDir maxLevel store) (lossless : io.Lossless)
    (merges : mergeSelected pf io store = .ok (newFiles, inputs, stats) merged)
    (ran : runCompaction pf io store = .ok stats final)
    (agrees : getFromSSTables pf .none final key = getFromSSTables pf .none store key)
    (run : Pool.Run (TablePhase.step pf) (compactAndGet merged newFiles inputs key) moves pool)
    (outside : SnapshotOutside inputs moves) : ListsRight pf store merged key moves := by
  intro files listed
  obtain ⟨early, move, before, isPrefix, isSource, racing, rfl⟩ := snapshot_listed run listed
  obtain ⟨newFiles', inputs', merged', merges', levels, rfl⟩ := runCompaction_merged ran
  cases merges.symm.trans merges'
  obtain ⟨level, sources, targets, fileData, outs, merging, rfl, rfl⟩ := mergeSelected_ok merges
  have searchable := reachable.searchable
  have compaction := merging.compaction levels
  have valid := compaction.valid
  have files := racing.files
  have catalogue : merged.manager.files = store.manager.files := by rw [merging.outputs.manager]
  rcases outside early move key isPrefix isSource with none | all
  · rw [none] at files
    simp only [List.not_mem_nil, not_false_eq_true, decide_true, List.filter_true, catalogue] at files
    rw [files]
    exact view_before searchable merging lossless compaction racing.compactor.sound.1 key
  · obtain ⟨-, within, done⟩ := racing.compactor.sound
    have started : removed early ≠ [] := by
      intro none
      obtain ⟨source, rest, isCons⟩ := List.exists_cons_of_ne_nil merging.nonempty
      have := all source.filepath (by simp [isCons])
      simp [none] at this
    have same : ∀ path, path ∈ removed early ↔ path ∈ (sources ++ targets).map SSTableMeta.filepath := fun path =>
      ⟨within path, all path⟩
    simp only [same, done started, catalogue] at files
    have left := compaction.manager
    rw [← agrees, getFromSSTables, left, files]
    refine searchTables_congr _ fun file member => ?_
    have undeleted := (List.mem_filter.mp ((pf.mem_sort _ _ _).mp member)).2
    rw [dropFiles_tables, if_neg (of_decide_eq_true undeleted)]
    rfl

/-- A lookup beside the end of a compaction that lists the files before the first input is removed or after the
last returns what it returned before exactly if it opens no deleted file. Listing them in between, it also needs
that they give that result. -/
theorem get_during_compaction_iff (reachable : Reachable pf InFlushOrder dataDir maxLevel store)
    (lossless : io.Lossless) (merges : mergeSelected pf io store = .ok (newFiles, inputs, stats) merged)
    (ran : runCompaction pf io store = .ok stats final)
    (agrees : getFromSSTables pf .none final key = getFromSSTables pf .none store key)
    (run : Pool.Run (TablePhase.step pf) (compactAndGet merged newFiles inputs key) moves pool)
    (returned : pool.phase .reader = .returned result) :
    (SnapshotOutside inputs moves → (result = getFromSSTables pf .none store key ↔ ¬ OpensDeleted moves)) ∧
      (result = getFromSSTables pf .none store key ↔ ¬ OpensDeleted moves ∧ ListsRight pf store merged key moves) := by
  have iff : result = getFromSSTables pf .none store key ↔
      ¬ OpensDeleted moves ∧ ListsRight pf store merged key moves := by
    have reader := (CompactionRacing.of_run run).reader
    rw [returned] at reader
    obtain ⟨files, listed, ⟨opens, status, rfl⟩ | ⟨unopened, rfl⟩⟩ := reader
    · rw [getFromSSTables_eq pf reachable.searchable.toLevelled]
      simp [opens]
    · simp [ListsRight, unopened, listed]
  refine ⟨fun outside => ?_, iff⟩
  rw [iff, and_iff_left (view_outside reachable lossless merges ran agrees run outside)]

end Theorem

section Schedules
variable {pf : Platform} {start pool : Pool Store TablePhase Party} {moves : List TableMove}

theorem compactor_removes (run : Pool.Run (TablePhase.step pf) start moves pool) {inputs : List Path}
    (stands : pool.phase .compactor = .uncatalogue inputs) :
    ∃ later, Pool.Run (TablePhase.step pf) start (moves ++ later)
      (pool.after .compactor .compacted (inputs.foldl dropFile pool.state)) := by
  induction inputs generalizing moves pool with
  | nil => exact ⟨_, run.snoc .compactor stands rfl rfl⟩
  | cons path inputs ih =>
    have removed := run.snoc .compactor stands rfl rfl
    have unlinked := removed.snoc .compactor (Pool.after_phase_self _ _ _ _) rfl rfl
    obtain ⟨later, finished⟩ := ih unlinked (Pool.after_phase_self _ _ _ _)
    rw [Pool.after_after, Pool.after_after, List.append_assoc, List.append_assoc] at finished
    exact ⟨_, finished⟩

theorem compactor_finishes (run : Pool.Run (TablePhase.step pf) start moves pool) {newFiles : List SSTableMeta}
    {inputs : List Path} (stands : pool.phase .compactor = .register newFiles inputs)
    (levels : ∀ file ∈ newFiles, 0 ≤ file.level ∧ file.level < pool.state.manager.maxLevel) :
    ∃ later, Pool.Run (TablePhase.step pf) start (moves ++ later)
      (pool.after .compactor .compacted (inputs.foldl dropFile (withFiles pool.state newFiles))) := by
  induction newFiles generalizing moves pool with
  | nil =>
    obtain ⟨later, finished⟩ := compactor_removes (run.snoc .compactor stands rfl rfl) (Pool.after_phase_self _ _ _ _)
    rw [Pool.after_after, List.append_assoc] at finished
    exact ⟨_, by simpa [withFiles] using finished⟩
  | cons file newFiles ih =>
    have adds : registerFile file pool.state = .ok () (withFiles pool.state [file]) :=
      registerFile_ok.mpr ⟨levels file (by simp), rfl⟩
    have added := run.snoc .compactor stands rfl (Action.bind_of_ok adds _)
    obtain ⟨later, finished⟩ := ih added (Pool.after_phase_self _ _ _ _) fun other member => levels other (by simp [member])
    rw [Pool.after_after, List.append_assoc] at finished
    exact ⟨_, by simpa [withFiles] using finished⟩

theorem reader_returns (run : Pool.Run (TablePhase.step pf) start moves pool) {key : Bytes} {file : SSTableMeta}
    {files : List SSTableMeta} {result : ErrorOr (Option Bytes)}
    (stands : pool.phase .reader = .search key (file :: files))
    (found : searchTable pool.state.tables key file = some result) :
    Pool.Run (TablePhase.step pf) start (moves ++ [⟨.reader, .search key (file :: files), .returned result⟩])
      (pool.after .reader (.returned result) pool.state) := by
  refine run.snoc .reader stands rfl ?_
  change EStateM.Result.ok ((searchTable pool.state.tables key file).elim _ _) pool.state = _
  rw [found]
  rfl

end Schedules

theorem fourFlushes_files : ∀ file ∈ fourFlushes.manager.files,
    file.level = 0 ∧ file.smallestKey = [97] ∧ file.largestKey = [97] := by
  decide +kernel

theorem fourFlushes_merges : ∃ newFiles inputs stats merged final,
    mergeSelected Platform.reference .none fourFlushes = .ok (newFiles, inputs, stats) merged ∧
    runCompaction Platform.reference .none fourFlushes = .ok stats final ∧
    getFromSSTables Platform.reference .none final [97] = getFromSSTables Platform.reference .none fourFlushes [97] ∧
    (∀ file ∈ newFiles, 0 ≤ file.level ∧ file.level < merged.manager.maxLevel) ∧
    final = inputs.foldl dropFile (withFiles merged newFiles) ∧
    merged.manager.files = fourFlushes.manager.files ∧
    ∀ file ∈ fourFlushes.manager.files, file.filepath ∈ inputs ∧
      merged.tables file.filepath = some (.complete (oneEntry [97] [1])) := by
  obtain ⟨stats, final, ran⟩ := fourFlushes_compacts
  have before := fourFlushes_reachable.searchable
  have after := (Reachable.compact fourFlushes_reachable Faults.lossless_none ran).searchable
  have picked : fourFlushes.manager.pickCompactionLevel = 0 := flushTables_pick (by simp)
  obtain ⟨newFiles, inputs, merged, merges, levels, rfl⟩ := runCompaction_merged ran
  obtain ⟨level, sources, targets, fileData, outs, merging, rfl, rfl⟩ := mergeSelected_ok merges
  obtain rfl : level = 0 := merging.picked.symm.trans picked
  have run := merging.compaction levels
  refine ⟨_, _, stats, merged, _, merges, ran, ?_, levels, rfl, by rw [merging.outputs.manager], fun file member => ?_⟩
  · rw [getFromSSTables_eq _ after.toLevelled, getFromSSTables_eq _ before.toLevelled, Except.ok.injEq]
    exact (run.visible_level0 Faults.lossless_none before after [97]).mpr (by decide +kernel)
  · obtain ⟨lo, hi, selection⟩ := run.selection
    refine ⟨List.mem_map_of_mem (List.mem_append_left _ ?_), ?_⟩
    · rw [selection.whole rfl, mem_getFilesAtLevel]
      exact ⟨member, (fourFlushes_files file member).1⟩
    · rw [merged_kept before merging le_rfl member]
      rw [fourFlushes, flushTables_manager] at member
      obtain ⟨⟨table, seq⟩, flushed, rfl⟩ := List.mem_map.mp member
      obtain rfl : table = oneEntry [97] [1] := List.eq_of_mem_replicate (List.fst_mem_of_mem_zipIdx flushed)
      exact flushTables_table _ seq flushed

theorem fourFlushes_listed : ∃ first rest, first ∈ fourFlushes.manager.files ∧
    Platform.reference.sort searchedBefore fourFlushes.manager.files = first :: rest := by
  obtain ⟨first, rest, isCons⟩ := List.exists_cons_of_ne_nil
    (show Platform.reference.sort searchedBefore fourFlushes.manager.files ≠ [] by decide +kernel)
  exact ⟨first, rest, (Platform.reference.mem_sort _ _ _).mp (isCons ▸ List.mem_cons_self), isCons⟩

theorem fourFlushes_lists {newFiles : List SSTableMeta} {inputs : List Path} {merged : Store}
    (catalogue : merged.manager.files = fourFlushes.manager.files) {files : List SSTableMeta}
    (sorted : Platform.reference.sort searchedBefore fourFlushes.manager.files = files) :
    Pool.Run (TablePhase.step Platform.reference) (compactAndGet merged newFiles inputs [97])
      [⟨.reader, .snapshot [97], .search [97] files⟩]
      ((compactAndGet merged newFiles inputs [97]).after .reader (.search [97] files) merged) := by
  have start : Pool.Run (TablePhase.step Platform.reference) (compactAndGet merged newFiles inputs [97]) []
      (compactAndGet merged newFiles inputs [97]) := .refl
  refine start.snoc .reader rfl rfl ?_
  rw [← sorted, ← catalogue]
  rfl

theorem get_during_compaction_early : ∃ newFiles inputs stats merged final moves pool,
    mergeSelected Platform.reference .none fourFlushes = .ok (newFiles, inputs, stats) merged ∧
    runCompaction Platform.reference .none fourFlushes = .ok stats final ∧
    Pool.Run (TablePhase.step Platform.reference) (compactAndGet merged newFiles inputs [97]) moves pool ∧
    pool.phase .reader = .returned (.ok (some [1])) ∧
    .ok (some [1]) = getFromSSTables Platform.reference .none fourFlushes [97] := by
  obtain ⟨newFiles, inputs, stats, merged, final, merges, ran, agrees, -, -, catalogue, there⟩ := fourFlushes_merges
  obtain ⟨first, rest, member, isCons⟩ := fourFlushes_listed
  obtain ⟨-, low, high⟩ := fourFlushes_files first member
  have found : searchTable merged.tables [97] first = some (.ok (some [1])) := by
    rw [searchTable, low, high, openTable_none (there first member).2]
    decide
  have listed : Pool.Run (TablePhase.step Platform.reference) (compactAndGet merged newFiles inputs [97]) _ _ :=
    fourFlushes_lists catalogue isCons
  have run := reader_returns listed (Pool.after_phase_self _ _ _ _) found
  refine ⟨newFiles, inputs, stats, merged, final, _, _, merges, ran, run, Pool.after_phase_self _ _ _ _, ?_⟩
  refine ((get_during_compaction_iff fourFlushes_reachable Faults.lossless_none merges ran agrees run
    (Pool.after_phase_self _ _ _ _)).1 ?_).mpr ?_
  · intro early move key before isSource
    have none : removed early <+: [] := ((List.prefix_append _ _).trans before).filterMap _
    exact .inl (List.prefix_nil.mp none)
  · rintro ⟨early, move, before, file, -, gone⟩
    have none : deleted early <+: [] := ((List.prefix_append _ _).trans before).filterMap _
    simp [List.prefix_nil.mp none] at gone

theorem get_during_compaction_fails :
    ¬ ∀ (pf : Platform) (io : Faults) (dataDir : Path) (maxLevel : Int) (store merged final : Store)
      (newFiles : List SSTableMeta) (inputs : List Path) (stats : CompactionStats) (key : Bytes)
      (moves : List TableMove) (pool : Pool Store TablePhase Party) (result : ErrorOr (Option Bytes)),
      Reachable pf InFlushOrder dataDir maxLevel store →
      mergeSelected pf io store = .ok (newFiles, inputs, stats) merged →
      runCompaction pf io store = .ok stats final →
      getFromSSTables pf .none final key = getFromSSTables pf .none store key →
      Pool.Run (TablePhase.step pf) (compactAndGet merged newFiles inputs key) moves pool →
      pool.phase .reader = .returned result → result = getFromSSTables pf .none store key := by
  intro unchanged
  obtain ⟨newFiles, inputs, stats, merged, final, merges, ran, agrees, levels, isFinal, catalogue, there⟩ :=
    fourFlushes_merges
  obtain ⟨first, rest, member, isCons⟩ := fourFlushes_listed
  obtain ⟨-, low, high⟩ := fourFlushes_files first member
  have listed : Pool.Run (TablePhase.step Platform.reference) (compactAndGet merged newFiles inputs [97]) _ _ :=
    fourFlushes_lists catalogue isCons
  obtain ⟨later, finished⟩ := compactor_finishes listed (Pool.after_phase_of_ne _ (by decide) _ _) levels
  have missing : searchTable final.tables [97] first =
      some (.error ⟨.kStorageIoError, text "SSTable file not found: " ++ first.filepath⟩) := by
    have gone : final.tables first.filepath = none := by rw [isFinal, dropFiles_tables, if_pos (there first member).1]
    simp [searchTable, low, high, openTable, gone]
  have failed := reader_returns finished ((Pool.after_phase_of_ne _ (by decide) _ _).trans
    (Pool.after_phase_self _ _ _ _)) (isFinal ▸ missing)
  have same := unchanged _ _ _ _ _ _ _ _ _ _ _ _ _ _ fourFlushes_reachable merges ran agrees failed
    (Pool.after_phase_self _ _ _ _)
  rw [getFromSSTables_eq _ fourFlushes_reachable.searchable.toLevelled] at same
  cases same

end StorageEngine

end VectorDb.Storage
