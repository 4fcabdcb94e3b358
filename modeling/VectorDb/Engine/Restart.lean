import VectorDb.Compaction.FailedCompaction
import VectorDb.Engine.Lifetimes
import VectorDb.Engine.Shutdown

namespace VectorDb.Storage
open Lib Common CompactionManager

namespace CompactionManager

structure InLevels (manager : CompactionManager) : Prop where
  max : manager.maxLevel = leveled.kNumLevels
  files : ∀ file ∈ manager.files, 0 ≤ file.level ∧ file.level < leveled.kNumLevels

theorem InLevels.register {store : Store} (levels : InLevels store.manager) (file : SSTableMeta) :
    InLevels ((registerFile file).final store).manager := by
  rw [registerFile_final]
  split
  next valid =>
    rw [levels.max] at valid
    exact ⟨levels.max, List.forall_mem_append.mpr ⟨levels.files, by simpa using valid⟩⟩
  next => exact levels

theorem InLevels.merge {store after : Store} {target : Int} (levels : InLevels store.manager)
    (merging : Merging store target after) : InLevels after.manager := by
  rw [merging.manager]
  exact ⟨levels.max, levels.files⟩

theorem CataloguePhase.step_inLevels {pf : Platform} {io : Faults} {phase : CataloguePhase}
    {x : Action Status Store CataloguePhase} (steps : phase.step pf io = some x) {store : Store}
    (levels : InLevels store.manager) : InLevels (x.final store).manager := by
  cases phase with
  | countLevel0 =>
    cases steps
    exact levels
  | sizeLevels waiting => cases waiting <;> cases steps <;> exact levels
  | selectSources level =>
    cases steps
    rw [Action.final_bind_of_ok (Action.get_eq store)]
    dsimp only
    split <;> exact levels
  | selectTargets level sources =>
    cases steps
    exact levels
  | merge level sources targets =>
    cases steps
    rw [Action.final_bind_pure]
    exact levels.merge (mergeFiles_merging _ _).final
  | register job waiting =>
    cases waiting with
    | nil =>
      cases steps
      exact levels
    | cons file waiting =>
      cases steps
      rw [Action.final_bind_pure]
      exact levels.register file
  | remove job waiting =>
    cases waiting with
    | nil =>
      cases steps
      exact levels
    | cons path waiting =>
      cases steps
      exact ⟨levels.max, fun file member => levels.files file (List.mem_of_mem_filter member)⟩
  | unlink job path waiting =>
    cases steps
    exact levels
  | write file table =>
    cases steps
    exact levels
  | add file =>
    cases steps
    rw [Action.final_bind_pure]
    exact levels.register file
  | compacted => cases steps
  | flushed => cases steps

end CompactionManager

namespace StorageEngine

variable {pf : Platform} {io : Faults} {device : Device} {config : StorageConfig} {world world' : World}
  {ms : List Mutation}

structure Intact (ms : List Mutation) (world : World) : Prop where
  holds : world.engine.wal.Holds (world.disk.log.getD []) ms
  created : world.disk.log.isSome
  levels : InLevels world.engine.compactionManager
  immutable : world.engine.immutableMemtable = none

theorem intact_fresh (pf : Platform) (config : StorageConfig) : Intact [] (fresh pf config) :=
  ⟨holds_fresh pf config, rfl, ⟨rfl, by simp [fresh, CompactionManager.new]⟩, rfl⟩

theorem Intact.withStore (intact : Intact ms world) {store : Store} (levels : InLevels store.manager) :
    Intact ms (world.withStore store) := ⟨intact.holds, intact.created, levels, intact.immutable⟩

theorem Intact.pass (intact : Intact ms world) (phase : PassPhase) : Intact ms (phase.step pf .none world).2 := by
  cases phase with
  | check => exact intact
  | compact phase =>
    cases steps : phase.step pf .none with
    | none =>
      rw [PassPhase.step_compact_none steps]
      exact intact
    | some x =>
      have levels : InLevels (x.final world.store).manager := CataloguePhase.step_inLevels steps intact.levels
      cases ran : x world.store with
      | ok target store =>
        rw [PassPhase.step_compact_ok steps ran]
        exact intact.withStore (Action.final_of_ok ran ▸ levels)
      | error status store =>
        rw [PassPhase.step_compact_error steps ran]
        exact intact.withStore (Action.final_of_error ran ▸ levels)
  | capture => exact intact
  | catalogue lsn => exact intact
  | save checkpoint =>
    rw [PassPhase.step, Action.final_of_ok (saveCheckpoint_run checkpoint world)]
    exact ⟨intact.holds, intact.created, intact.levels, intact.immutable⟩

theorem Intact.rest (intact : Intact ms world) (phase : PassPhase) : Intact ms (phase.rest pf .none world) :=
  PassPhase.rest_induct (fun _ phase intact => intact.pass phase) phase intact

theorem Intact.moves {phase target : Phase} (intact : Intact ms world)
    (moves : Moves pf .faultless world phase target world') : Intact (ms ++ phase.appends.toList) world' := by
  cases moves with
  | append appended => exact ⟨(intact.holds.append_ok appended).2, rfl, intact.levels, intact.immutable⟩
  | register flushLsn seq path levels =>
    change Intact (ms ++ []) _
    rw [List.append_nil]
    refine intact.withStore ⟨intact.levels.max, List.forall_mem_append.mpr ⟨intact.levels.files, ?_⟩⟩
    simp [flushedMeta, leveled.kNumLevels]
  | apply | swapEmpty | swap | capture | draw | write | catalogue | save | finish | lookup | search =>
    change Intact (ms ++ []) _
    rw [List.append_nil]
    exact ⟨intact.holds, intact.created, intact.levels, by first | rfl | exact intact.immutable⟩

theorem Intact.writeSst (intact : Intact ms world) (path : Path) (toFlush : MemTable) :
    Intact ms ((writeSst io path toFlush).final world) := by
  rw [StorageEngine.writeSst, onStore, Action.final_zoom, Action.final_zoom]
  exact intact.withStore intact.levels

theorem Moves.target_appends {phase target : Phase} (moves : Moves pf device world phase target world') :
    target.appends = none := by
  cases moves with
  | apply => split <;> rfl
  | lookup key => unfold Phase.lookupTarget; split <;> [rfl; (split <;> rfl)]
  | append | swapEmpty | swap | capture | draw | write | register | catalogue | save | finish | search => rfl

theorem Intact.final {phase target : Phase} {x : Action Status World Phase} (intact : Intact ms world)
    (moves : Moves pf .faultless world phase target world') (steps : phase.step pf .none .faultless = some x) :
    Intact (ms ++ phase.appends.toList) (x.final world) := by
  obtain ⟨y, same, ran⟩ := moves.step
  cases steps.symm.trans same
  rw [Action.final_of_ok ran]
  exact intact.moves moves

theorem Intact.step {phase : Phase} {x : Action Status World Phase} (intact : Intact ms world)
    (room : (logBytes (ms ++ phase.appends.toList)).length ≤ maxFileSize)
    (steps : phase.step pf .none .faultless = some x) : Intact (ms ++ phase.appends.toList) (x.final world) := by
  cases phase with
  | append m =>
    obtain ⟨lsn, wal, file, appended⟩ := intact.holds.append_room room
    exact intact.final (.append appended) steps
  | apply m => exact intact.final (.apply m) steps
  | swap =>
    by_cases empty : world.engine.activeMemtable.entries = []
    · exact intact.final (.swapEmpty empty) steps
    · exact intact.final (.swap empty) steps
  | capture toFlush => exact intact.final (.capture toFlush) steps
  | draw toFlush flushLsn => exact intact.final (.draw toFlush flushLsn) steps
  | write toFlush flushLsn seq =>
    -- The one step that can fail: it does so for a table without entries.
    cases steps
    rw [Action.final_bind_of_ok (Action.get_eq world), Action.final_bind_pure]
    simpa [Phase.appends] using intact.writeSst _ toFlush
  | register flushLsn seq path =>
    exact intact.final (.register flushLsn seq path (by rw [intact.levels.max]; decide)) steps
  | catalogue flushLsn => exact intact.final (.catalogue flushLsn) steps
  | save checkpoint => exact intact.final (.save checkpoint) steps
  | finish => exact intact.final .finish steps
  | lookup key => exact intact.final (.lookup key) steps
  | search key => exact intact.final (.search key) steps
  | returned | answered => cases steps

theorem Intact.advance {phase : Phase} (intact : Intact ms world)
    (room : (logBytes (ms ++ phase.appends.toList)).length ≤ maxFileSize) :
    Intact (ms ++ phase.appends.toList) (phase.advance pf .none .faultless world).2 := by
  cases steps : phase.step pf .none .faultless with
  | none =>
    have logs : phase.appends = none := by cases phase <;> first | rfl | cases steps
    simpa [Phase.advance, steps, logs] using intact
  | some x =>
    have kept := intact.step room steps
    cases ran : x world with
    | ok target world' => simpa [Phase.advance, steps, ran, Action.final_of_ok ran] using kept
    | error status world' => simpa [Phase.advance, steps, ran, Action.final_of_error ran] using kept

theorem advance_appends (phase : Phase) (world : World) :
    ((phase.advance pf .none device world).1.toList).filterMap Phase.appends = [] := by
  cases steps : phase.step pf .none device with
  | none => simp [Phase.advance, steps]
  | some x =>
    cases ran : x world with
    | ok target world' =>
      have logs := (step_moves steps ran).target_appends
      cases ended : target.ended <;> simp [Phase.advance, steps, ran, ended, logs]
    | error status world' => simp [Phase.advance, steps, ran]

theorem Intact.reopens (intact : Intact ms world) (short : ∀ m ∈ ms, m.payloadSize ≤ kMaxPayload) (table : SSTable) :
    «open» pf config (afterFlush pf world table).disk =
      .ok ⟨config, ⟨config.sstDir, leveled.kNumLevels, (afterFlush pf world table).engine.compactionManager.files, 1⟩,
        MemTable.new pf, none, WAL.open world.disk.log, 1, 0, 0⟩ (afterFlush pf world table).disk := by
  have log := log_of_holds intact.holds intact.created
  have levels : ∀ file ∈ (afterFlush pf world table).engine.compactionManager.files,
      0 ≤ file.level ∧ file.level < leveled.kNumLevels :=
    List.forall_mem_append.mpr ⟨intact.levels.files, by simp [flushMeta, leveled.kNumLevels]⟩
  have loaded : CheckpointManager.loadCheckpoint (afterFlush pf world table).disk.checkpoints =
      .ok ⟨world.engine.wal.currentSequenceNumber, (afterFlush pf world table).engine.compactionManager.files⟩ := rfl
  rw [intact.holds.currentSequenceNumber_eq] at loaded
  have isLog : (afterFlush pf world table).disk.log = some (logBytes ms ++ []) := by
    rw [List.append_nil]
    exact log
  rw [open_ok (intact.holds.log short) torn_nil isLog loaded levels, List.drop_length]
  rfl

theorem NewFile.getBytes_reopened (new : NewFile world) (readable : Readable world.store)
    (nonempty : world.engine.activeMemtable.entries ≠ []) (small : dataSize world.engine.activeMemtable.entries ≤ 2 ^ 30)
    {flushed recovered : World} (isFlushed : flushed = afterFlush pf world (.ofMemTable _ nonempty))
    (tables : recovered.disk.tables = flushed.disk.tables)
    (files : recovered.engine.compactionManager.files = flushed.engine.compactionManager.files)
    (active : recovered.engine.activeMemtable = MemTable.new pf) (immutable : recovered.engine.immutableMemtable = none)
    (key : Bytes) :
    getBytes pf recovered key = some (.ok ((newestOf pf world key).bind BlockEntry.visible)) := by
  have same : ∀ file ∈ flushed.store.manager.files,
      recovered.store.tables file.filepath = flushed.store.tables file.filepath :=
    fun file _ => congrFun tables file.filepath
  have stored : Readable flushed.store := by
    rw [isFlushed]
    exact new.readable_afterFlush readable small
  have reads : Readable recovered.store := stored.congr files same
  have emptied : recovered.engine.activeMemtable.get key = none := by
    rw [active, MemTable.get_eq, MemTable.entries_new]
    rfl
  rw [getBytes_eq reads, get, emptied, immutable]
  dsimp only [Option.bind_none]
  rw [getFromSSTables_recorded pf reads.recorded, newestEntry_congr pf files same, isFlushed,
    new.newestEntry_afterFlush _ readable.recorded, newestOf]
  rfl

theorem room_of_perm {rest all : List Mutation} (perm : (ms ++ rest).Perm all)
    (room : (logBytes all).length ≤ maxFileSize) : (logBytes ms).length ≤ maxFileSize := by
  have same := (perm.map fun m : Mutation => kWALHeaderSize + m.payloadSize).sum_eq
  rw [List.map_append, List.sum_append, ← logBytes_length, ← logBytes_length, ← logBytes_length] at same
  omega

def Turn.mutations : Turn → List Mutation
  | invoke command => command.mutations
  | _ => []

theorem Command.phase_appends (command : Command) : command.phase.appends.toList = command.mutations := by
  cases command <;> rfl

namespace Host

variable {s s' : Host} {turn : Turn} {turns : List Turn}

def invoked (turns : List Turn) : List Mutation := turns.flatMap Turn.mutations

def pending (calls : List Phase) : List Mutation := calls.filterMap Phase.appends

def Conserved (turns : List Turn) (s : Host) : Prop :=
  ∃ ms, Intact ms s.world ∧ (ms ++ pending s.calls).Perm (invoked turns)

theorem conserved_running (pf : Platform) (config : StorageConfig) : Conserved [] (running (fresh pf config)) :=
  ⟨[], intact_fresh pf config, .refl _⟩

theorem invoked_concat (turns : List Turn) (turn : Turn) :
    invoked (turns ++ [turn]) = invoked turns ++ turn.mutations := by simp [invoked]

theorem Conserved.unwritten (conserved : Conserved turns s) (logs : turn.mutations = [])
    (world : ∀ ms, Intact ms s.world → Intact ms s'.world) (calls : s'.calls = s.calls) :
    Conserved (turns ++ [turn]) s' := by
  obtain ⟨ms, intact, perm⟩ := conserved
  exact ⟨ms, world ms intact, by rwa [invoked_concat, logs, List.append_nil, calls]⟩

theorem Conserved.invoke (conserved : Conserved turns s) (command : Command) :
    Conserved (turns ++ [.invoke command]) { s with calls := s.calls ++ [command.phase] } := by
  obtain ⟨ms, intact, perm⟩ := conserved
  refine ⟨ms, intact, ?_⟩
  have one : pending [command.phase] = command.mutations := by
    rw [← command.phase_appends, pending]
    cases isAppend : command.phase.appends <;> simp [isAppend]
  rw [invoked_concat, pending, List.filterMap_append, ← List.append_assoc]
  exact perm.append (.of_eq one)

theorem Conserved.call {phase : Phase} {before after : List Phase} (conserved : Conserved turns s)
    (isCall : s.calls = before ++ phase :: after) (room : (logBytes (invoked turns)).length ≤ maxFileSize) :
    Conserved (turns ++ [.call before.length]) { s with
      world := (phase.advance pf .none .faultless s.world).2
      calls := before ++ (phase.advance pf .none .faultless s.world).1.toList ++ after } := by
  obtain ⟨ms, intact, perm⟩ := conserved
  have moved : (ms ++ phase.appends.toList ++ (pending before ++ pending after)).Perm (invoked turns) := by
    refine .trans ?_ perm
    rw [isCall, pending, pending, pending, List.filterMap_append, List.append_assoc]
    refine List.Perm.append_left ms ?_
    cases isAppend : phase.appends with
    | none => simp [isAppend]
    | some m => simpa [isAppend] using List.perm_middle.symm
  refine ⟨ms ++ phase.appends.toList, intact.advance (room_of_perm moved room), ?_⟩
  simpa [invoked_concat, Turn.mutations, pending, advance_appends] using moved

theorem Steps.conserved (steps : Steps pf .none .faultless s turn s') (alive : s'.destructor ≠ .destroyed)
    (room : (logBytes (invoked turns)).length ≤ maxFileSize) (conserved : Conserved turns s) :
    Conserved (turns ++ [turn]) s' := by
  cases steps with
  | invoke command => exact conserved.invoke command
  | call before after isCall => exact conserved.call isCall room
  | @advance pass _ _ _ _ ran | @conclude pass _ _ _ ran =>
    refine conserved.unwritten rfl (fun ms intact => ?_) rfl
    have kept : Intact ms (pass.step pf .none s.world).2 := intact.pass pass
    rwa [ran] at kept
  | @complete pass phase => exact conserved.unwritten rfl (fun ms intact => intact.rest pass) rfl
  | enter | leave | pass | wait | block | begin | wake | timeout | store | rouse | unheard | join =>
    exact conserved.unwritten rfl (fun ms intact => intact) rfl
  | flush => exact absurd rfl alive

theorem Steps.alive (steps : Steps pf io device s turn s') (alive : s'.destructor ≠ .destroyed) :
    s.destructor ≠ .destroyed := by
  cases steps <;> simp_all

theorem run_conserved (run : Trace (Next pf .none .faultless) (running (fresh pf config)) turns s) :
    (logBytes (invoked turns)).length ≤ maxFileSize → s.destructor ≠ .destroyed → Conserved turns s := by
  refine run.induct (P := fun turns s => (logBytes (invoked turns)).length ≤ maxFileSize →
    s.destructor ≠ .destroyed → Conserved turns s) (fun _ _ => conserved_running pf config) ?_
  intro turns before turn after _ ih next room alive
  have steps := steps_of_next next
  have earlier := room_of_perm (.of_eq (invoked_concat turns turn).symm) room
  exact steps.conserved alive earlier (ih earlier (steps.alive alive))

/-- The MemTable is one that a table file has room for. -/
def Fits (s : Host) (_turn : Turn) : Prop := dataSize s.world.engine.activeMemtable.entries ≤ 2 ^ 30

def exec (pf : Platform) (io : Faults) (device : Device) (turns : List Turn) (s : Host) : Option Host :=
  turns.foldlM (fun s turn =>
    if dataSize s.world.engine.activeMemtable.entries ≤ 2 ^ 30 then step pf io device turn s else none) s

theorem exec_trace (ran : exec pf io device turns s = some s') :
    Trace (guarded Fits (Next pf io device)) s turns s' := by
  induction turns generalizing s with
  | nil => exact Option.some.inj ran ▸ .nil
  | cons turn turns ih =>
    obtain ⟨between, taken, rest⟩ := Option.bind_eq_some_iff.mp ran
    obtain ⟨fits, next⟩ := Option.ite_none_right_eq_some.mp taken
    exact .cons ⟨fits, next⟩ (ih rest)

theorem destroy_flushes (closing : s.destructor = .flushing) (levels : 0 < s.world.engine.compactionManager.maxLevel)
    (unflushed : s.world.engine.activeMemtable.entries ≠ []) : Next pf .none .faultless s .destroy
      { s with
        world := afterFlush pf s.world (.ofMemTable s.world.engine.activeMemtable unflushed)
        destructor := .destroyed } := by
  rw [Next, step, destroyStep, closing]
  dsimp only
  rw [Action.final_of_ok ((close_eq levels).trans (flushMemTable_run pf unflushed levels))]

/-- A put and a delete overlap a flush and are logged in the other order; the thread falls asleep and is woken by
the destructor. -/
def crossed : List Turn :=
  [.invoke (.put [1] [2]), .call 0, .call 0, .invoke .flush, .call 0, .call 0, .invoke (.put [3] [4]),
    .invoke (.delete [1]), .call 2, .call 1, .call 0, .loop, .call 0, .call 1, .call 0, .loop, .call 0, .loop,
    .call 1, .call 0, .call 0, .destroy, .destroy, .loop, .loop, .destroy]

def crossedFile : SSTableMeta := flushMeta ({} : StorageConfig).sstDir (oneEntry [1] [2]) 1

theorem exec_crossed : ∃ s ∈ exec .reference .none .faultless crossed (running (fresh .reference {})),
    s.destructor = .flushing ∧ s.world.disk.log = some (logBytes [.put [1] [2], .delete [1], .put [3] [4]]) ∧
    s.world.engine.activeMemtable.entries = [⟨[1], [], true⟩, ⟨[3], [4], false⟩] ∧
    s.world.engine.compactionManager.files = [crossedFile] ∧ s.world.engine.nextSstSequence = 2 ∧
    crossedFile.filepath ≠ flushFile s.world ∧
    (openTable .none s.world.disk.tables crossedFile.filepath).toOption.map SSTable.entries =
      some [⟨[1], [2], false⟩] := by
  decide +kernel

def reopened (pf : Platform) (config : StorageConfig) (s : Host) : Option World :=
  match «open» pf config s.world.disk with
  | .ok engine disk => some ⟨disk, engine⟩
  | .error _ _ => none

theorem open_of_reopened {recovered : World} (found : reopened pf config s = some recovered) :
    «open» pf config s.world.disk = .ok recovered.engine recovered.disk := by
  rw [reopened] at found
  split at found
  next engine disk opened =>
    cases found
    exact opened
  next => cases found

def putFlush (steps : Nat) : List Turn :=
  [.invoke (.put [1] [2]), .call 0, .call 0, .invoke .flush].append (List.replicate steps (.call 0))

/-- The fourth flush has read the catalogue when a pass merges its four files and saves; then the flush saves. -/
def overtaken : List Turn :=
  [putFlush 8, putFlush 8, putFlush 8, putFlush 6, List.replicate 23 .loop, List.replicate 2 (.call 0),
    [.destroy, .destroy, .loop, .destroy, .destroy]].flatten

theorem exec_overtaken : ∃ s ∈ exec .reference .none .faultless overtaken (running (fresh .reference {})),
    s.destructor = .destroyed ∧ get .reference .none s.world [1] = .ok (some [2]) ∧
    ∃ recovered ∈ reopened .reference {} s, get .reference .none recovered [1] =
      .error (ioError "SSTable file not found: /tmp/vectordb_data/sst/level0_4.sst") := by
  decide +kernel

/-- With an empty MemTable the destructor saves no checkpoint, and the overtaken one lists deleted files. -/
theorem overtaken_save_loses : ∃ s,
    Trace (guarded Fits (Next .reference .none .faultless)) (running (fresh .reference {})) overtaken s ∧
    s.destructor = .destroyed ∧ get .reference .none s.world [1] = .ok (some [2]) ∧
    ∃ recovered, «open» .reference {} s.world.disk = .ok recovered.engine recovered.disk ∧
      get .reference .none recovered [1] =
        .error (ioError "SSTable file not found: /tmp/vectordb_data/sst/level0_4.sst") := by
  obtain ⟨s, ran, destroyed, served, recovered, found, lost⟩ := exec_overtaken
  exact ⟨s, exec_trace ran, destroyed, served, recovered, open_of_reopened found, lost⟩

end Host

end StorageEngine

end VectorDb.Storage
