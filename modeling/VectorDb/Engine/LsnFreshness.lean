import VectorDb.Engine.CompactionCrash

namespace VectorDb.Storage
open Lib Common

theorem OutputStream.write_grows {device : Device} {stream stream' : OutputStream} {file file' bytes : Bytes}
    (writes : stream.write device file bytes = (stream', file')) : ∃ more, file' = file ++ more := by
  rw [write] at writes
  split_ifs at writes
  · cases writes
    exact ⟨_, rfl⟩
  · cases writes
    exact ⟨[], (List.append_nil _).symm⟩

theorem OutputStream.flush_grows {device : Device} {stream stream' : OutputStream} {file file' : Bytes}
    (flushes : stream.flush device file = (stream', file')) : ∃ more, file' = file ++ more := by
  rw [flush] at flushes
  dsimp only at flushes
  split_ifs at flushes
  · cases flushes
    exact ⟨_, rfl⟩
  · cases flushes
    exact ⟨_, rfl⟩
  · cases flushes
    exact ⟨[], (List.append_nil _).symm⟩

def Device.rejecting : Device := ⟨fun _ _ => ⟨0, false⟩, fun _ _ => ⟨0, true⟩⟩

namespace WAL

theorem open_eq (log : Option Bytes) :
    (WAL.open log).nextSequenceNumber = (scan none (log.getD [])).foldl nextAfter 1 := by
  cases log <;> rfl

theorem le_foldl_nextAfter (entries : List WALEntry) (next : Nat)
    (below : ∀ entry ∈ entries, entry.sequenceNumber < 2 ^ 64 - 1) : next ≤ entries.foldl nextAfter next := by
  induction entries generalizing next with
  | nil => exact le_rfl
  | cons entry entries ih =>
    have first := below entry List.mem_cons_self
    have step : next ≤ nextAfter next entry := by
      rw [nextAfter]
      split_ifs with later
      · rw [Nat.mod_eq_of_lt (by omega)]
        omega
      · exact le_rfl
    exact step.trans (ih _ fun other member => below other (List.mem_cons_of_mem _ member))

theorem open_mono {log log' : Option Bytes} {more : Bytes} (grows : log'.getD [] = log.getD [] ++ more)
    (below : ∀ entry ∈ scan none (log'.getD []), entry.sequenceNumber < 2 ^ 64 - 1) :
    (WAL.open log).nextSequenceNumber ≤ (WAL.open log').nextSequenceNumber := by
  rw [grows] at below
  obtain ⟨later, split⟩ := scan_initial none (log.getD []) more
  rw [open_eq, open_eq, grows, ← split, List.foldl_append]
  exact le_foldl_nextAfter later _ fun entry member => below entry (split ▸ List.mem_append_right _ member)

theorem append_grows {wal wal' : WAL} {file file' : Bytes} {entry : WALEntry} {device : Device} {result : ErrorOr Nat}
    (appends : append device wal file entry = (result, wal', file')) :
    (∃ more, file' = file ++ more) ∧ wal'.nextSequenceNumber = (wal.nextSequenceNumber + 1) % 2 ^ 64 := by
  rw [append] at appends
  generalize writes : wal.writeFile.write device file _ = written at appends
  obtain ⟨stream, between⟩ := written
  obtain ⟨more, rfl⟩ := OutputStream.write_grows writes
  dsimp only at appends
  split_ifs at appends with good
  · generalize flushes : stream.flush device _ = flushed at appends
    obtain ⟨stream', after⟩ := flushed
    obtain ⟨rest, rfl⟩ := OutputStream.flush_grows flushes
    cases appends
    exact ⟨⟨more ++ rest, List.append_assoc _ _ _⟩, rfl⟩
  · cases appends
    exact ⟨⟨more, rfl⟩, rfl⟩

theorem Holds.append_rejected {wal : WAL} {file : Bytes} {ms : List Mutation} (holds : wal.Holds file ms)
    (m : Mutation) : ∃ status wal', append .rejecting wal file (m.entry 0) = (.error status, wal', file) ∧
      wal'.currentSequenceNumber = ms.length + 1 := by
  obtain ⟨status, wal', appends⟩ : ∃ status wal', append .rejecting wal file (m.entry 0) =
      (.error status, wal', file) := by
    simp [append, OutputStream.write, holds.clean, Device.rejecting]
  have few := length_lt_of_room holds.room
  refine ⟨status, wal', appends, ?_⟩
  rw [currentSequenceNumber, (append_grows appends).2, holds.next]
  omega

end WAL

namespace StorageEngine
open CompactionManager

variable {pf : Platform} {io : Faults} {device : Device} {config : StorageConfig} {world crashed : World}

def logView (world : World) : Option Bytes × WAL := (world.disk.log, world.engine.wal)

theorem onStore_keeps {α : Type} (x : Action Status Store α) (world : World) :
    logView ((onStore x).final world) = logView world := by
  rw [onStore, Action.final_zoom]
  rfl

theorem onCheckpoints_keeps {α : Type} (x : Action Status CheckpointFiles α) (world : World) :
    logView ((onCheckpoints x).final world) = logView world := by
  rw [onCheckpoints, Action.final_zoom]
  rfl

theorem saveCheckpoint_keeps (checkpoint : Checkpoint) : (saveCheckpoint io checkpoint).Keeps logView := by
  refine .bind (.atomic fun _ => rfl) fun world => .bind (.tearing ?_ fun s => onCheckpoints_keeps _ s) fun _ =>
    .atomic fun s => onCheckpoints_keeps _ s
  rintro s t rfl
  rfl

theorem swapMemTables_keeps (world : World) : logView ((swapMemTables pf).final world) = logView world := by
  by_cases empty : world.engine.activeMemtable.isEmpty = true
  · rw [Action.final_of_ok (swapMemTables_empty pf empty)]
  · rw [Action.final_of_ok (swapMemTables_filled pf empty)]
    rfl

theorem flushMemTable_keeps : (flushMemTable pf io).Keeps logView := by
  refine .bind (.atomic fun s => swapMemTables_keeps s) fun
    | none => .pure ()
    | some toFlush => ?_
  refine .bind (.atomic fun _ => rfl) fun lsn => .bind (.atomic fun _ => rfl) fun seq =>
    .bind (.atomic fun _ => rfl) fun world => .bind (.tearing ?_ fun s => onStore_keeps _ s) fun _ =>
    .bind (.atomic fun s => onStore_keeps _ s) fun _ => .bind (.atomic fun _ => rfl) fun world =>
    .bind (saveCheckpoint_keeps _) fun _ => .atomic fun _ => rfl
  rintro s t ⟨bytes, rfl⟩
  rfl

theorem close_keeps : (close pf io).Keeps logView := by
  refine .bind (.atomic fun _ => rfl) fun world => ?_
  split_ifs
  · exact .pure ()
  · exact .bind flushMemTable_keeps.attempt fun _ => .pure ()

def LogGrows (disk disk' : Disk) : Prop := ∃ more, disk'.log.getD [] = disk.log.getD [] ++ more

theorem LogGrows.of_kept {world world' : World} (kept : logView world' = logView world) :
    LogGrows world.disk world'.disk :=
  ⟨[], by rw [List.append_nil, show world'.disk.log = world.disk.log from congrArg Prod.fst kept]⟩

theorem applied_keeps (m : Mutation) : (do
    let needsFlush ← Program.atomic (applyMutation pf m)
    if needsFlush then flushMemTable pf io : Program Status World Unit).Keeps logView := by
  refine .bind (.atomic fun _ => rfl) fun needsFlush => ?_
  split_ifs
  · exact flushMemTable_keeps
  · exact .pure ()

theorem writeEntry_grows {m : Mutation} (crash : (writeEntry pf io device m).Crash world crashed) :
    LogGrows world.disk crashed.disk := by
  rcases Program.crash_bind crash with inside | ⟨⟨⟩, logged, ran, crash⟩
  · rcases Program.crash_tearing inside with rfl | ⟨-, kept, -, rfl⟩ | ⟨status, failed⟩ | ⟨⟨⟩, appended⟩
    · exact ⟨[], (List.append_nil _).symm⟩
    · exact ⟨_, rfl⟩
    · obtain ⟨wal, file, appends, rfl⟩ := appendLog_failed.mp failed
      exact (WAL.append_grows appends).1
    · obtain ⟨lsn, wal, file, appends, rfl⟩ := appendLog_ok.mp appended
      exact (WAL.append_grows appends).1
  · rw [Program.run_tearing] at ran
    obtain ⟨lsn, wal, file, appends, rfl⟩ := appendLog_ok.mp ran
    obtain ⟨more, grown⟩ := (WAL.append_grows appends).1
    have kept : crashed.disk.log = some file := congrArg Prod.fst (applied_keeps m _ _ crash)
    exact ⟨more, by rw [kept, Option.getD_some, grown]⟩

theorem writeEntry_failed {m : Mutation} {status : Status} {wal : WAL} {file : Bytes}
    (refused : world.engine.wal.append device (world.disk.log.getD []) (m.entry 0) = (.error status, wal, file)) :
    (writeEntry pf io device m).run world =
      .error status ⟨{ world.disk with log := some file }, { world.engine with wal }⟩ := by
  rw [writeEntry, Program.run_bind, Program.run_tearing]
  exact Action.bind_of_error (appendLog_failed.mpr ⟨wal, file, refused, rfl⟩) _

theorem writeEntry_next (m : Mutation) (world : World) :
    ((writeEntry pf io device m).run.final world).engine.wal.nextSequenceNumber =
      (world.engine.wal.nextSequenceNumber + 1) % 2 ^ 64 := by
  rw [writeEntry, Program.run_bind, Program.run_tearing]
  cases ran : appendLog device m world with
  | ok _ logged =>
    obtain ⟨lsn, wal, file, appends, rfl⟩ := appendLog_ok.mp ran
    rw [Action.final_bind_of_ok ran, ← (WAL.append_grows appends).2]
    exact congrArg (fun view => view.2.nextSequenceNumber) ((applied_keeps m).final _)
  | error status failed =>
    obtain ⟨wal, file, appends, rfl⟩ := appendLog_failed.mp ran
    rw [Action.final_bind_of_error ran, ← (WAL.append_grows appends).2]

theorem Command.grows {command : Command} (crash : (command.program pf io device).Crash world crashed) :
    LogGrows world.disk crashed.disk := by
  cases command with
  | put key value => exact writeEntry_grows crash
  | delete key => exact writeEntry_grows crash
  | flush => exact .of_kept (flushMemTable_keeps _ _ crash)

theorem Command.le_next (command : Command) (counter : world.engine.wal.nextSequenceNumber < 2 ^ 64 - 1) :
    world.engine.wal.nextSequenceNumber ≤
      ((command.program pf io device).run.final world).engine.wal.nextSequenceNumber := by
  have write : ∀ m, world.engine.wal.nextSequenceNumber ≤
      ((writeEntry pf io device m).run.final world).engine.wal.nextSequenceNumber := by
    intro m
    rw [writeEntry_next, Nat.mod_eq_of_lt (by omega)]
    exact Nat.le_succ _
  cases command with
  | put key value => exact write _
  | delete key => exact write _
  | flush => exact (congrArg (fun view => view.2.nextSequenceNumber) (flushMemTable_keeps.final world)).ge

structure Session where
  world : World
  loaded : Nat
  acknowledged : List LogRecord

/-- A call, with the device under the log; a close, at which the stream passes on some of what is
pending; a crash inside a call. `Open` follows the last two. -/
inductive Incident where
  | call (command : Command) (device : Device)
  | close (passed memtableSizeBytes : Nat)
  | crash (command : Command) (device : Device) (memtableSizeBytes : Nat)

def closedDisk (world : World) (passed : Nat) : Disk :=
  { world.disk with log := world.disk.log.map (· ++ world.engine.wal.writeFile.pending.take passed) }

def Session.Opens (pf : Platform) (config : StorageConfig) (disk : Disk) (after : Session) : Prop :=
  «open» pf config disk = .ok after.world.engine after.world.disk ∧
    (∃ checkpoint, CheckpointManager.loadCheckpoint disk.checkpoints = .ok checkpoint ∧
      after.loaded = checkpoint.lastFlushedLsn) ∧
    after.acknowledged = []

def Incident.Step (pf : Platform) (before : Session) : Incident → Session → Prop
  | call command device, after =>
    match (command.program pf .none device).run before.world with
    | .ok _ world => after = ⟨world, before.loaded, before.acknowledged ++
        command.mutations.map fun m => ⟨m, before.world.engine.wal.nextSequenceNumber⟩⟩
    | .error _ world => after = { before with world }
  | close passed memtableSizeBytes, after =>
    ∃ closed, (StorageEngine.close pf .none).run before.world = .ok () closed ∧
      after.Opens pf { before.world.engine.config with memtableSizeBytes } (closedDisk closed passed)
  | crash command device memtableSizeBytes, after =>
    ∃ crashed, (command.program pf .none device).Crash before.world crashed ∧
      after.Opens pf { before.world.engine.config with memtableSizeBytes } crashed.disk

def Reached (disk : Disk) : Prop :=
  ∀ checkpoint, CheckpointManager.loadCheckpoint disk.checkpoints = .ok checkpoint →
    checkpoint.lastFlushedLsn < (WAL.open disk.log).nextSequenceNumber

/-- A scan of the log gets past the number that a flush takes for its checkpoint. -/
def Synced (world : World) : Prop :=
  world.engine.wal.currentSequenceNumber < (WAL.open world.disk.log).nextSequenceNumber

/-- What stands when the flush of a command starts. -/
def Command.append (device : Device) (world : World) : Command → World
  | put key value => (appendLog device (.put key value)).final world
  | delete key => (appendLog device (.delete key)).final world
  | flush => world

def Incident.atFlush (before : Session) : Incident → World
  | call command device => command.append device before.world
  | close passed _ => ⟨closedDisk before.world passed, before.world.engine⟩
  | crash command device _ => command.append device before.world

/-- A step that saves a checkpoint starts its flush with a log that holds up to the counter, and no number is
the last. -/
structure Sound (before : Session) (incident : Incident) (after : Session) : Prop where
  saved : after.world.disk.checkpoints.installed ≠ before.world.disk.checkpoints.installed →
    Synced (incident.atFlush before)
  counter : before.world.engine.wal.nextSequenceNumber < 2 ^ 64 - 1
  records : ∀ entry ∈ scan none (after.world.disk.log.getD []), entry.sequenceNumber < 2 ^ 64 - 1

def Incident.SoundStep (pf : Platform) (before : Session) (incident : Incident) (after : Session) : Prop :=
  incident.Step pf before after ∧ Sound before incident after

structure Session.Current (session : Session) : Prop where
  reached : Reached session.world.disk
  next : session.loaded < session.world.engine.wal.nextSequenceNumber
  acknowledged : ∀ record ∈ session.acknowledged, session.loaded < record.lsn

variable {before after : Session}

theorem Reached.grows {disk disk' : Disk} (reached : Reached disk) (grows : LogGrows disk disk')
    (installed : disk'.checkpoints.installed = disk.checkpoints.installed)
    (below : ∀ entry ∈ scan none (disk'.log.getD []), entry.sequenceNumber < 2 ^ 64 - 1) : Reached disk' := by
  intro checkpoint loaded
  obtain ⟨more, grows⟩ := grows
  rw [CheckpointManager.loadCheckpoint, installed] at loaded
  exact (reached checkpoint loaded).trans_le (WAL.open_mono grows below)

def Saves (start : World) (disk disk' : Disk) : Prop :=
  disk'.checkpoints.installed = disk.checkpoints.installed ∨
    disk'.log.getD [] = start.disk.log.getD [] ∧ ∃ sstables, disk'.checkpoints.installed =
      some (.complete ⟨start.engine.wal.currentSequenceNumber, sstables⟩)

def installed (world : World) : Option CheckpointFile := world.disk.checkpoints.installed

theorem onStore_installed {α : Type} (x : Action Status Store α) (world : World) :
    installed ((onStore x).final world) = installed world := by
  rw [onStore, Action.final_zoom]
  rfl

theorem atomic_installed {α : Type} (x : Action Status Store α) : (Program.atomic (onStore x)).Keeps installed :=
  .atomic fun world => onStore_installed x world

theorem writeSst_installed (path : Path) (toFlush : MemTable) :
    (Program.tearing (tornSst path) (writeSst io path toFlush)).Keeps installed := by
  refine .tearing ?_ fun world => onStore_installed _ world
  rintro s t ⟨bytes, rfl⟩
  rfl

theorem finishFlush_installed : (Program.atomic finishFlush).Keeps installed := .atomic fun _ => rfl

theorem flushMemTable_installs (crash : (flushMemTable pf .none).Crash world crashed) :
    crashed.disk.checkpoints.installed = world.disk.checkpoints.installed ∨
      ∃ sstables, crashed.disk.checkpoints.installed =
        some (.complete ⟨world.engine.wal.currentSequenceNumber, sstables⟩) := by
  by_cases empty : world.engine.activeMemtable.isEmpty = true
  · obtain rfl := flushMemTable_crash_empty ((MemTable.isEmpty_iff _).mp empty) crash
    exact .inl rfl
  rcases Program.crash_atomic_bind (swapMemTables_filled pf empty) crash with rfl | crash
  · exact .inl rfl
  rcases Program.crash_atomic_bind (captureLsn_run _) crash with rfl | crash
  · exact .inl rfl
  rcases Program.crash_atomic_bind (drawSstSequence_run _) crash with rfl | crash
  · exact .inl rfl
  rcases Program.crash_atomic_bind (Action.get_eq _) crash with rfl | crash
  · exact .inl rfl
  -- Whatever becomes of the table and its entry in the catalogue, neither touches the checkpoint.
  rcases (writeSst_installed _ _).crash_bind crash with kept | ⟨⟨⟩, written, kept, -, crash⟩
  · exact .inl kept
  rcases (atomic_installed _).crash_bind crash with kept' | ⟨⟨⟩, registered, kept', -, crash⟩
  · exact .inl (kept'.trans kept)
  rcases Program.crash_atomic_bind (Action.get_eq _) crash with rfl | crash
  · exact .inl (kept'.trans kept)
  rcases Program.crash_bind crash with inside | ⟨⟨⟩, saved, save, crash⟩
  · obtain ⟨files, rfl, old | new⟩ := saveCheckpoint_crash inside
    · exact .inl (old.trans (kept'.trans kept))
    · exact .inr ⟨_, new⟩
  · rw [saveCheckpoint_run] at save
    cases save
    exact .inr ⟨_, finishFlush_installed _ _ crash⟩

theorem flushMemTable_saves (crash : (flushMemTable pf .none).Crash world crashed) :
    Saves world world.disk crashed.disk := by
  have log : crashed.disk.log = world.disk.log := congrArg Prod.fst (flushMemTable_keeps _ _ crash)
  exact (flushMemTable_installs crash).imp id fun new => ⟨by rw [log], new⟩

theorem writeEntry_saves {m : Mutation} (crash : (writeEntry pf .none device m).Crash world crashed) :
    Saves ((appendLog device m).final world) world.disk crashed.disk := by
  rcases Program.crash_bind crash with inside | ⟨⟨⟩, logged, ran, crash⟩
  · left
    rcases Program.crash_tearing inside with rfl | ⟨-, kept, -, rfl⟩ | ⟨status, failed⟩ | ⟨⟨⟩, appended⟩
    · rfl
    · rfl
    · obtain ⟨wal, file, appends, rfl⟩ := appendLog_failed.mp failed
      rfl
    · obtain ⟨lsn, wal, file, appends, rfl⟩ := appendLog_ok.mp appended
      rfl
  · rw [Program.run_tearing] at ran
    rw [Action.final_of_ok ran]
    obtain ⟨lsn, wal, file, appends, rfl⟩ := appendLog_ok.mp ran
    rcases Program.crash_atomic_bind (applyMutation_run m _) crash with rfl | crash
    · exact .inl rfl
    · split_ifs at crash
      · exact flushMemTable_saves crash
      · obtain rfl := Program.crash_pure crash
        exact .inl rfl

theorem Command.saves {command : Command} (crash : (command.program pf .none device).Crash world crashed) :
    Saves (command.append device world) world.disk crashed.disk := by
  cases command with
  | put key value => exact writeEntry_saves crash
  | delete key => exact writeEntry_saves crash
  | flush => exact flushMemTable_saves crash

theorem close_installs (crash : (close pf .none).Crash world crashed) :
    crashed.disk.checkpoints.installed = world.disk.checkpoints.installed ∨
      ∃ sstables, crashed.disk.checkpoints.installed =
        some (.complete ⟨world.engine.wal.currentSequenceNumber, sstables⟩) := by
  rcases Program.crash_atomic_bind (Action.get_eq world) crash with rfl | crash
  · exact .inl rfl
  split_ifs at crash
  · obtain rfl := Program.crash_pure crash
    exact .inl rfl
  · rcases Program.crash_bind crash with inside | ⟨result, flushed, ran, crash⟩
    · exact flushMemTable_installs (Program.crash_attempt inside)
    · obtain rfl := Program.crash_pure crash
      exact flushMemTable_installs (Program.crash_attempt (.ended ran))

theorem closedDisk_log {world' : World} (passed : Nat) (kept : logView world' = logView world) :
    (closedDisk world' passed).log = (closedDisk world passed).log := by
  obtain ⟨log, wal⟩ := Prod.mk.inj kept
  rw [closedDisk, closedDisk, log, wal]

theorem closedDisk_grows (world : World) (passed : Nat) : LogGrows world.disk (closedDisk world passed) := by
  rw [LogGrows, closedDisk]
  cases world.disk.log with
  | none => exact ⟨[], rfl⟩
  | some file => exact ⟨_, rfl⟩

theorem Session.Current.reached_after {disk : Disk} (current : before.Current)
    (grows : LogGrows before.world.disk disk) {start : World} (saves : Saves start before.world.disk disk)
    (synced : disk.checkpoints.installed ≠ before.world.disk.checkpoints.installed → Synced start)
    (below : ∀ entry ∈ scan none (disk.log.getD []), entry.sequenceNumber < 2 ^ 64 - 1) : Reached disk := by
  by_cases installed : disk.checkpoints.installed = before.world.disk.checkpoints.installed
  · exact current.reached.grows grows installed below
  · obtain ⟨log, sstables, new⟩ := saves.resolve_left installed
    intro checkpoint loaded
    rw [CheckpointManager.loadCheckpoint, new] at loaded
    have next := synced installed
    rw [Synced, WAL.open_eq, ← log, ← WAL.open_eq] at next
    rwa [← Except.ok.inj loaded]

theorem Session.Current.opens {disk : Disk} {incident : Incident} (current : before.Current)
    (sound : Sound before incident after) (grows : LogGrows before.world.disk disk)
    (saves : Saves (incident.atFlush before) before.world.disk disk) (opens : after.Opens pf config disk) :
    after.Current := by
  obtain ⟨opens, ⟨checkpoint, loaded, isLoaded⟩, none⟩ := opens
  obtain ⟨checkpoint', opened⟩ := opened_of_ok opens
  have reached : Reached after.world.disk := by
    refine current.reached_after ?_ ?_ sound.saved sound.records
    · rw [opened.disk]
      exact grows
    · rw [opened.disk]
      exact saves
  refine ⟨reached, ?_, by simp [none]⟩
  rw [opened.disk] at reached
  rw [isLoaded, opened.wal]
  have next := reached checkpoint loaded
  rwa [WAL.open_eq] at next ⊢

theorem call_step {command : Command} (steps : (Incident.call command device).Step pf before after) :
    after.world = (command.program pf .none device).run.final before.world ∧ after.loaded = before.loaded ∧
      ∀ record ∈ after.acknowledged,
        record ∈ before.acknowledged ∨ record.lsn = before.world.engine.wal.nextSequenceNumber := by
  rw [Incident.Step] at steps
  split at steps
  next ran =>
    subst steps
    refine ⟨(Action.final_of_ok ran).symm, rfl, fun record member => ?_⟩
    rcases List.mem_append.mp member with old | new
    · exact .inl old
    · obtain ⟨m, -, rfl⟩ := List.mem_map.mp new
      exact .inr rfl
  next ran =>
    subst steps
    exact ⟨(Action.final_of_error ran).symm, rfl, fun record member => .inl member⟩

theorem Session.Current.step {incident : Incident} (current : before.Current) (steps : incident.Step pf before after)
    (sound : Sound before incident after) : after.Current := by
  cases incident with
  | call command device =>
    obtain ⟨world, loaded, acknowledged⟩ := call_step steps
    have crash : (command.program pf .none device).Crash before.world after.world := by
      rw [world]
      exact .final _ _
    refine ⟨current.reached_after (Command.grows crash) (Command.saves crash) sound.saved sound.records, ?_,
      fun record member => ?_⟩
    · rw [world, loaded]
      exact current.next.trans_le (command.le_next sound.counter)
    · rw [loaded]
      rcases acknowledged record member with old | new
      · exact current.acknowledged record old
      · exact current.next.trans_eq new.symm
  | close passed memtableSizeBytes =>
    obtain ⟨closed, ran, opens⟩ := steps
    have log := closedDisk_log passed (close_keeps _ _ (.ended ran))
    refine current.opens sound ?_ ?_ opens
    · rw [LogGrows, log]
      exact closedDisk_grows before.world passed
    · exact (close_installs (.ended ran)).imp id fun new => ⟨congrArg (Option.getD · []) log, new⟩
  | crash command device memtableSizeBytes =>
    obtain ⟨crashed, crash, opens⟩ := steps
    exact current.opens sound (Command.grows crash) (Command.saves crash) opens

def Session.fresh (pf : Platform) (config : StorageConfig) : Session := ⟨StorageEngine.fresh pf config, 0, []⟩

theorem current_fresh (pf : Platform) (config : StorageConfig) : (Session.fresh pf config).Current := by
  refine ⟨fun checkpoint loaded => ?_, Nat.zero_lt_one, by simp [Session.fresh]⟩
  cases loaded
  exact Nat.zero_lt_one

/-- If checkpoints are saved only when a scan of the log gets past their numbers, every write acknowledged
after an `Open` has a number above the one that `Open` loaded, and recovery does not skip it. -/
theorem acknowledged_above_loaded {incidents : List Incident} {session : Session}
    (run : Trace (Incident.SoundStep pf) (Session.fresh pf config) incidents session) :
    ∀ record ∈ session.acknowledged, session.loaded < record.lsn ∧
      ∀ memtable count, RecoveryManager.recoverEntry pf session.loaded (memtable, count) record.entry =
        .ok (memtable.apply pf record.mutation, count + 1) := by
  have current : session.Current := run.induct (P := fun _ session => session.Current) (current_fresh pf config)
    fun _ _ _ _ _ current steps => current.step steps.1 steps.2
  intro record member
  have above := current.acknowledged record member
  refine ⟨above, fun memtable count => ?_⟩
  rw [LogRecord.entry, RecoveryManager.recoverEntry_mutation _ _ _ _ (Mutation.isMutation_entry _ _),
    Mutation.sequenceNumber_entry, if_pos above, Mutation.mutation_entry]

section Runs
variable {flushed unflushed : List Mutation}

theorem afterFlush_loads (world : World) (table : SSTable) :
    CheckpointManager.loadCheckpoint (afterFlush pf world table).disk.checkpoints =
      .ok ⟨world.engine.wal.currentSequenceNumber, (afterFlush pf world table).engine.compactionManager.files⟩ := rfl

theorem call_ok {command : Command} (ran : (command.program pf .none device).run before.world = .ok () world) :
    (Incident.call command device).Step pf before ⟨world, before.loaded, before.acknowledged ++
      command.mutations.map fun m => ⟨m, before.world.engine.wal.nextSequenceNumber⟩⟩ := by
  simp only [Incident.Step, ran]

theorem call_failed {command : Command} {status : Status}
    (ran : (command.program pf .none device).run before.world = .error status world) :
    (Incident.call command device).Step pf before { before with world } := by
  simp only [Incident.Step, ran]

theorem Logged.synced (logged : Logged flushed unflushed world)
    (short : ∀ m ∈ flushed ++ unflushed, m.payloadSize ≤ kMaxPayload) : Synced world := by
  have next := (logged.holds.log short).open_next torn_nil
  rw [List.append_nil, ← logged.log] at next
  rw [Synced, next, logged.holds.currentSequenceNumber_eq]
  exact Nat.lt_succ_self _

theorem Logged.records (logged : Logged flushed unflushed world)
    (short : ∀ m ∈ flushed ++ unflushed, m.payloadSize ≤ kMaxPayload) :
    ∀ entry ∈ scan none (world.disk.log.getD []), entry.sequenceNumber < 2 ^ 64 - 1 := by
  intro entry member
  have log := logged.holds.log short
  have few := length_lt_of_room log.room
  rw [logged.log, Option.getD_some, logBytes, ← List.append_nil (List.flatMap _ _),
    scan_records none _ _ (log.readable none (by simp)) (readRecord_nil none)] at member
  have number := List.mem_map_of_mem (f := WALEntry.sequenceNumber) member
  rw [stamped_sequenceNumbers, List.mem_range'_1] at number
  omega

theorem Logged.append (logged : Logged flushed unflushed world) (command : Command)
    (room : (logBytes (flushed ++ unflushed ++ command.mutations)).length ≤ maxFileSize) :
    Logged flushed (unflushed ++ command.mutations) (command.append .faultless world) := by
  have write : ∀ m, (logBytes (flushed ++ unflushed ++ [m])).length ≤ maxFileSize →
      Logged flushed (unflushed ++ [m]) ((appendLog .faultless m).final world) := by
    intro m room
    obtain ⟨lsn, wal, file, appends⟩ := logged.holds.append_room room
    rw [Action.final_of_ok (appendLog_ok.mpr ⟨lsn, wal, file, appends, rfl⟩)]
    refine ⟨?_, rfl, logged.checkpoint⟩
    rw [← List.append_assoc]
    exact (logged.holds.append_ok appends).2
  cases command with
  | put key value => exact write _ room
  | delete key => exact write _ room
  | flush =>
    rw [Command.mutations, List.append_nil]
    exact logged

theorem Command.logged {command : Command} {world' : World} (levels : 0 < world.engine.compactionManager.maxLevel)
    (logged : Logged flushed unflushed world) (ran : (command.program pf .none .faultless).run world = .ok () world') :
    ∃ flushed' unflushed', flushed' ++ unflushed' = flushed ++ unflushed ++ command.mutations ∧
      Logged flushed' unflushed' world' := by
  obtain ⟨between, wrote, rfl | ⟨nonempty, rfl⟩⟩ := command.run_cases levels ran
  · exact ⟨flushed, unflushed ++ command.mutations, by simp, wrote.logged logged⟩
  · exact ⟨_, [], by simp, (wrote.logged logged).afterFlush _⟩

theorem Logged.opens {config : StorageConfig} {checkpoint : Checkpoint} {world' : World}
    (logged : Logged flushed unflushed world) (short : ∀ m ∈ flushed ++ unflushed, m.payloadSize ≤ kMaxPayload)
    (opened : Opened config world.disk checkpoint world') : Logged flushed unflushed world' := by
  cases opened.loaded.symm.trans logged.checkpoint
  refine ⟨opened.holds (logged.holds.log short) logged.log, ?_, ?_⟩
  · rw [opened.disk]
    rfl
  · rw [opened.disk, opened.manager]
    exact logged.checkpoint

variable (pf before) in
theorem call_sound (command : Command) (levels : 0 < before.world.engine.compactionManager.maxLevel)
    (logged : Logged flushed unflushed before.world)
    (short : ∀ m ∈ flushed ++ unflushed ++ command.mutations, m.payloadSize ≤ kMaxPayload)
    (room : (logBytes (flushed ++ unflushed ++ command.mutations)).length ≤ maxFileSize) :
    ∃ after flushed' unflushed', (Incident.call command .faultless).SoundStep pf before after ∧
      (command.program pf .none .faultless).run before.world = .ok () after.world ∧
      flushed' ++ unflushed' = flushed ++ unflushed ++ command.mutations ∧ Logged flushed' unflushed' after.world ∧
      after.acknowledged = before.acknowledged ++
        command.mutations.map fun m => ⟨m, before.world.engine.wal.nextSequenceNumber⟩ := by
  obtain ⟨⟨⟩, world, ran⟩ := command.succeeds levels logged.holds room
  obtain ⟨flushed', unflushed', all, logged'⟩ := command.logged levels logged ran
  have few := length_lt_of_room logged.holds.room
  have synced := (logged.append command room).synced (List.append_assoc _ _ _ ▸ short)
  have sound : Sound before (.call command .faultless) ⟨world, before.loaded, before.acknowledged ++
      command.mutations.map fun m => ⟨m, before.world.engine.wal.nextSequenceNumber⟩⟩ :=
    ⟨fun _ => synced, by rw [logged.holds.next]; omega, logged'.records (all ▸ short)⟩
  exact ⟨_, flushed', unflushed', ⟨call_ok ran, sound⟩, ran, all, logged', rfl⟩

end Runs

theorem acknowledged_above_loaded_reopened : ∃ session record,
    Trace (Incident.SoundStep .reference) (Session.fresh .reference {}) [.call (.put [1] [2]) .faultless,
      .call .flush .faultless, .crash .flush .faultless 0, .call (.put [3] [4]) .faultless] session ∧
    record ∈ session.acknowledged ∧ session.loaded < record.lsn := by
  have serving := serving_fresh .reference {}
  obtain ⟨first, flushed, unflushed, put, putRan, all, logged, -⟩ := call_sound .reference
    (Session.fresh .reference {}) (.put [1] [2]) serving.levels (logged_fresh _ _) (by decide)
    (by rw [logBytes_length]; decide)
  obtain ⟨recent, serving⟩ := serving.command putRan
  rw [List.append_nil, List.nil_append] at all
  obtain ⟨second, flushed', unflushed', flush, flushRan, all', logged', -⟩ := call_sound .reference first .flush
    serving.levels logged (by rw [all]; decide) (by rw [all, logBytes_length]; decide)
  obtain ⟨recent, serving⟩ := serving.command flushRan
  rw [all] at all'
  have short : ∀ m ∈ flushed' ++ unflushed', m.payloadSize ≤ kMaxPayload := by
    rw [all']
    decide
  obtain ⟨engine, opens, opened⟩ := opens_log .reference { second.world.engine.config with memtableSizeBytes := 0 }
    (logged'.holds.log short) logged'.log logged'.checkpoint serving.file_levels
  have logged'' := logged'.opens short opened
  obtain ⟨session, flushed'', unflushed'', last, -, -, -, acknowledged⟩ := call_sound .reference
    ⟨⟨second.world.disk, engine⟩, flushed'.length, []⟩ (.put [3] [4]) opened.levels logged''
    (by rw [all']; decide) (by rw [all', logBytes_length]; decide)
  have crash : Incident.SoundStep .reference second (.crash .flush .faultless 0)
      ⟨⟨second.world.disk, engine⟩, flushed'.length, []⟩ := by
    refine ⟨⟨_, .before _ _, opens, ⟨_, opened.loaded, rfl⟩, rfl⟩, fun _ => logged'.synced short, ?_,
      logged''.records short⟩
    rw [logged'.holds.next, all']
    decide
  have run := (((Trace.nil.snoc put).snoc flush).snoc crash).snoc last
  obtain ⟨record, member⟩ : ∃ record, record ∈ session.acknowledged := by
    rw [acknowledged]
    exact ⟨_, List.mem_singleton_self _⟩
  exact ⟨session, record, run, member, (acknowledged_above_loaded run record member).1⟩

private theorem flushed_past_log : ∃ session unflushed,
    Trace (Incident.Step .reference) (Session.fresh .reference {}) [.call (.put [1] [2]) .faultless,
      .call (.put [3] [4]) .rejecting, .call .flush .faultless] session ∧
    Serving .reference {} unflushed session.world ∧ session.world.disk.log = some (logBytes [.put [1] [2]]) ∧
    CheckpointManager.loadCheckpoint session.world.disk.checkpoints =
      .ok ⟨2, session.world.engine.compactionManager.files⟩ := by
  obtain ⟨first, put, serving, -, holds, -⟩ := (resting_fresh .reference {}).write (.put [1] [2])
    (by rw [logBytes_length]; decide) (by decide)
  obtain ⟨status, wal, refused, number⟩ := holds.append_rejected (.put [3] [4])
  obtain ⟨second, isSecond⟩ : ∃ second : World, second =
    ⟨{ first.disk with log := some (first.disk.log.getD []) }, { first.engine with wal }⟩ := ⟨_, rfl⟩
  have rejected : (Command.program .reference .none .rejecting (.put [3] [4])).run first = .error status second :=
    isSecond ▸ writeEntry_failed refused
  have serving : Serving .reference {} [.put [1] [2]] second := by
    rw [isSecond]
    exact ⟨serving.configured, serving.reachable, serving.unused, serving.stamps, serving.active, serving.immutable⟩
  have nonempty := serving.active_eq_nil.not.mpr (by simp)
  have flush : (Command.program .reference .none .faultless .flush).run second = .ok () _ :=
    flushMemTable_run .reference nonempty serving.levels
  have called : Incident.Step .reference (Session.fresh .reference {}) (.call (.put [1] [2]) .faultless) _ :=
    call_ok put
  refine ⟨_, [], ((Trace.nil.snoc called).snoc (call_failed rejected)).snoc (call_ok flush), serving.afterFlush _, ?_, ?_⟩
  · change second.disk.log = _
    rw [isSecond, ← List.nil_append [_], ← holds.contents]
  · have lsn : second.engine.wal.currentSequenceNumber = 2 := by
      rw [isSecond]
      exact number
    rw [afterFlush_loads, lsn]

theorem rejected_append_reuses_lsn : ∃ session record,
    Trace (Incident.Step .reference) (Session.fresh .reference {}) [.call (.put [1] [2]) .faultless,
      .call (.put [3] [4]) .rejecting, .call .flush .faultless, .crash .flush .faultless 0,
      .call (.put [5] [6]) .faultless] session ∧
    record ∈ session.acknowledged ∧ record.lsn ≤ session.loaded := by
  obtain ⟨third, unflushed, run, serving, isLog, loaded⟩ := flushed_past_log
  have log : LogFile [.put [1] [2]] := ⟨by decide, by rw [logBytes_length]; decide⟩
  obtain ⟨engine, opens, opened⟩ := opens_log .reference { third.world.engine.config with memtableSizeBytes := 0 }
    log isLog loaded serving.file_levels
  have reopened := opened.holds log isLog
  have room : (logBytes ([.put [1] [2]] ++ [.put [5] [6]])).length ≤ maxFileSize := by
    rw [logBytes_length]
    decide
  obtain ⟨⟨⟩, last, ran⟩ : Action.Succeeds (Command.program .reference .none .faultless (.put [5] [6])).run
    ⟨third.world.disk, engine⟩ := Command.succeeds opened.levels reopened room
  have crash : Incident.Step .reference third (.crash .flush .faultless 0) ⟨⟨third.world.disk, engine⟩, 2, []⟩ :=
    ⟨_, .before _ _, opens, ⟨_, loaded, rfl⟩, rfl⟩
  exact ⟨_, ⟨.put [5] [6], _⟩, (run.snoc crash).snoc (call_ok ran), List.mem_singleton_self _, reopened.next.le⟩

end StorageEngine

end VectorDb.Storage
