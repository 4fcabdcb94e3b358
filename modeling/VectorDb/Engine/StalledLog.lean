import VectorDb.Engine.LsnFreshness

namespace VectorDb.Storage
open Lib Common

theorem WAL.append_error {wal wal' : WAL} {file file' : Bytes} {entry : WALEntry} {device : Device} {status : Status}
    (failed : append device wal file entry = (.error status, wal', file')) : wal'.writeFile.good = false := by
  rw [append] at failed
  dsimp only at failed
  split_ifs at failed with bad
  · simp only [Prod.mk.injEq, reduceCtorEq, false_and] at failed
  · cases failed
    exact Bool.not_eq_true _ ▸ bad

namespace StorageEngine

structure Attempt where
  event : Event
  io : Faults
  device : Device

namespace Attempt

def program (pf : Platform) (attempt : Attempt) : Program Status World Unit :=
  attempt.event.program pf attempt.io attempt.device

def after (pf : Platform) (world : World) (attempt : Attempt) : World := (attempt.program pf).run.final world

end Attempt

structure Stalled (file : Bytes) (world : World) : Prop where
  bad : world.engine.wal.writeFile.good = false
  contents : world.disk.log = some file

variable {pf : Platform} {io : Faults} {device : Device} {world crashed : World} {file : Bytes}

theorem appendLog_stalls {m : Mutation} {status : Status} (failed : appendLog device m world = .error status crashed) :
    ∃ file, Stalled file crashed := by
  obtain ⟨wal, file, refused, rfl⟩ := appendLog_failed.mp failed
  exact ⟨file, WAL.append_error refused, rfl⟩

theorem compactionPass_keeps : (compactionPass pf io).Keeps logView := by
  refine .bind (.atomic fun _ => rfl) fun world => ?_
  split_ifs
  · refine .bind (.attempt ?_) fun _ => .bind (.atomic fun _ => rfl) fun lsn => .bind (.atomic fun _ => rfl) fun _ =>
      .bind (saveCheckpoint_keeps _).attempt fun _ => .pure ()
    intro before after crash
    obtain ⟨store, -, rfl⟩ := Program.crash_zoom World.store_withStore World.withStore_withStore (fun _ => rfl) crash
    rfl
  · exact .pure ()

namespace Stalled

theorem of_kept (stalled : Stalled file world) (kept : logView crashed = logView world) : Stalled file crashed where
  bad := (congrArg (fun view => view.2.writeFile.good) kept).trans stalled.bad
  contents := (congrArg Prod.fst kept).trans stalled.contents

theorem append (stalled : Stalled file world) (device : Device) (m : Mutation) :
    world.engine.wal.append device (world.disk.log.getD []) (m.entry 0) = (.error (ioError "WAL write failed"),
      ⟨world.engine.wal.writeFile, (world.engine.wal.nextSequenceNumber + 1) % 2 ^ 64⟩, file) := by
  rw [WAL.append_bad device _ _ _ stalled.bad, stalled.contents]
  rfl

theorem writeEntry_run (stalled : Stalled file world) (m : Mutation) :
    ∃ refused, (writeEntry pf io device m).run world = .error (ioError "WAL write failed") refused ∧
      refused.disk = world.disk ∧ ∀ io key, get pf io refused key = get pf io world key := by
  have disk : { world.disk with log := some file } = world.disk := by rw [← stalled.contents]
  refine ⟨_, writeEntry_failed (stalled.append device m), disk, fun io key => ?_⟩
  rfl

theorem writeEntry_crash {m : Mutation} (stalled : Stalled file world)
    (crash : (writeEntry pf io device m).Crash world crashed) : Stalled file crashed := by
  have refused := stalled.append device m
  rcases Program.crash_bind crash with inside | ⟨⟨⟩, logged, ran, -⟩
  · rcases Program.crash_tearing inside with rfl | ⟨good, -⟩ | ⟨status, failed⟩ | ⟨⟨⟩, appended⟩
    · exact stalled
    · cases good.symm.trans stalled.bad
    · obtain ⟨wal, written, appends, rfl⟩ := appendLog_failed.mp failed
      cases refused.symm.trans appends
      exact ⟨stalled.bad, rfl⟩
    · obtain ⟨lsn, wal, written, appends, rfl⟩ := appendLog_ok.mp appended
      cases refused.symm.trans appends
  · rw [Program.run_tearing] at ran
    obtain ⟨lsn, wal, written, appends, rfl⟩ := appendLog_ok.mp ran
    cases refused.symm.trans appends

theorem crash {attempt : Attempt} (stalled : Stalled file world) (crash : (attempt.program pf).Crash world crashed) :
    Stalled file crashed := by
  obtain ⟨event, io, device⟩ := attempt
  cases event with
  | compaction => exact stalled.of_kept (compactionPass_keeps _ _ crash)
  | call command =>
    cases command with
    | put key value => exact stalled.writeEntry_crash crash
    | delete key => exact stalled.writeEntry_crash crash
    | flush => exact stalled.of_kept (flushMemTable_keeps _ _ crash)

theorem attempts (stalled : Stalled file world) (attempts : List Attempt) :
    Stalled file (attempts.foldl (Attempt.after pf) world) := by
  induction attempts generalizing world with
  | nil => exact stalled
  | cons attempt attempts ih => exact ih (stalled.crash (.final _ _))

end Stalled

/-- The log fails for good: until the engine is opened again its file stays as it is, at a crash as well, and every
write is refused and changes nothing on disk and nothing that `Get` returns. -/
theorem stalled_log_stays (stalled : Stalled file world) (attempts : List Attempt) :
    let after := attempts.foldl (Attempt.after pf) world
    after.disk.log = some file ∧
    (∀ (attempt : Attempt) (crashed : World), (attempt.program pf).Crash after crashed → crashed.disk.log = some file) ∧
    ∀ (m : Mutation) (io : Faults) (device : Device), ∃ refused,
      (writeEntry pf io device m).run after = .error (ioError "WAL write failed") refused ∧
      refused.disk = after.disk ∧ ∀ io key, get pf io refused key = get pf io after key := by
  intro after
  have still : Stalled file after := stalled.attempts attempts
  exact ⟨still.contents, fun attempt crashed crash => (still.crash crash).contents,
    fun m io device => still.writeEntry_run m⟩

theorem stalled_log_stays_refused : ∃ failed status,
    appendLog .rejecting (.put [1] [2]) (fresh .reference {}) = .error status failed ∧
      let after := [Attempt.mk (.call .flush) .none .faultless].foldl (Attempt.after .reference) failed
      ∃ refused, (writeEntry .reference .none .faultless (.put [3] [4])).run after =
        .error (ioError "WAL write failed") refused := by
  obtain ⟨status, wal, refused, -⟩ := WAL.holds_new.append_rejected (.put [1] [2])
  have failed : appendLog .rejecting (.put [1] [2]) (fresh .reference {}) = .error status _ :=
    appendLog_failed.mpr ⟨wal, [], refused, rfl⟩
  obtain ⟨file, stalled⟩ := appendLog_stalls failed
  obtain ⟨-, -, writes⟩ := stalled_log_stays stalled [⟨.call .flush, .none, .faultless⟩]
  obtain ⟨again, refusal, -⟩ := writes (.put [3] [4]) .none .faultless
  exact ⟨_, status, failed, again, refusal⟩

end StorageEngine

end VectorDb.Storage
