import VectorDb.Wal.Contents

namespace VectorDb.Storage
open Lib Common

inductive LogEvent where
  | append (m : Mutation)
  | crash (inFlight : Mutation) (kept : Nat)
  | reopen
deriving DecidableEq, Repr

namespace LogEvent

def Short : LogEvent → Prop
  | append m => m.payloadSize ≤ kMaxPayload
  | crash inFlight _ => inFlight.payloadSize ≤ kMaxPayload
  | reopen => True

def Tears : LogEvent → Prop
  | crash _ kept => 0 < kept
  | _ => False

def Writes : LogEvent → Prop
  | append _ => True
  | crash _ kept => 0 < kept
  | reopen => False

end LogEvent

structure LogHistory where
  file : Bytes
  wal : Option WAL
  acked : List WALEntry

namespace LogHistory

def new : LogHistory := ⟨[], some (WAL.open none), []⟩

def acknowledge (acked : List WALEntry) (m : Mutation) : ErrorOr Nat → List WALEntry
  | .ok lsn => acked ++ [m.entry lsn]
  | .error _ => acked

def step (h : LogHistory) : LogEvent → LogHistory
  | .append m =>
    match h.wal with
    | none => h
    | some wal =>
      let (result, wal, file) := wal.append .faultless h.file (m.entry 0)
      ⟨file, some wal, acknowledge h.acked m result⟩
  | .crash inFlight kept =>
    match h.wal with
    | none => h
    | some wal =>
      let record := serializeEntry (inFlight.entry wal.nextSequenceNumber)
      let part := if wal.writeFile.good then record.dropLast.take kept else []
      ⟨h.file ++ part, none, h.acked⟩
  | .reopen => { h with wal := some (WAL.open (some h.file)) }

def run (events : List LogEvent) : LogHistory := events.foldl step new

/-- What a final `Open` and `ReadAll` must give: every acknowledged entry, in append order, and no
sequence number twice. -/
def Durable (h : LogHistory) : Prop :=
  h.acked.Sublist (WAL.readAll h.file) ∧ ((WAL.readAll h.file).map WALEntry.sequenceNumber).Nodup

structure Holds (h : LogHistory) (events : List LogEvent) (ms : List Mutation) (tail : Bytes) : Prop where
  log : LogFile ms
  contents : h.file = logBytes ms ++ tail
  torn : Torn tail
  tornBy : tail ≠ [] → ∃ event ∈ events, event.Tears
  acked : h.acked = (stamped ms).map LogRecord.entry
  clean : ∀ wal ∈ h.wal, wal.writeFile.good → wal.writeFile = ⟨true, []⟩
  next : ∀ wal ∈ h.wal, wal.writeFile.good → wal.nextSequenceNumber = ms.length + 1

theorem holds_new : new.Holds [] [] [] :=
  ⟨.nil, rfl, torn_nil, by simp, rfl, by simp [new, WAL.open], by simp [new, WAL.open]⟩

namespace Holds

variable {h : LogHistory} {events : List LogEvent} {ms : List Mutation} {tail : Bytes}

theorem tail_eq_nil (holds : h.Holds events ms tail) (event : LogEvent) (writes : event.Writes)
    (ordered : ∀ earlier ∈ events, earlier.Tears → ¬ event.Writes) : tail = [] := by
  by_contra left
  obtain ⟨earlier, member, tears⟩ := holds.tornBy left
  exact ordered earlier member tears writes

theorem extend (holds : h.Holds events ms tail) (event : LogEvent) : h.Holds (events ++ [event]) ms tail where
  log := holds.log
  contents := holds.contents
  torn := holds.torn
  tornBy left := by
    obtain ⟨earlier, member, tears⟩ := holds.tornBy left
    exact ⟨earlier, by simp [member], tears⟩
  acked := holds.acked
  clean := holds.clean
  next := holds.next

theorem refused (holds : h.Holds events ms tail) (event : LogEvent) {wal : WAL}
    (bad : wal.writeFile.good = false) :
    LogHistory.Holds ⟨h.file, some wal, h.acked⟩ (events ++ [event]) ms tail where
  log := holds.log
  contents := holds.contents
  torn := holds.torn
  tornBy := (holds.extend event).tornBy
  acked := holds.acked
  clean := by simp [bad]
  next := by simp [bad]

theorem append_step (holds : h.Holds events ms tail) {m : Mutation} (short : m.payloadSize ≤ kMaxPayload)
    (ordered : ∀ earlier ∈ events, earlier.Tears → ¬ (LogEvent.append m).Writes) :
    ∃ ms' tail', (h.step (.append m)).Holds (events ++ [.append m]) ms' tail' := by
  obtain rfl := holds.tail_eq_nil (.append m) trivial ordered
  cases alive : h.wal with
  | none =>
    rw [step, alive]
    exact ⟨ms, [], holds.extend _⟩
  | some wal =>
    rw [step, alive]
    by_cases good : wal.writeFile.good
    · have inner : wal.Holds h.file ms := ⟨holds.log.room, by simpa using holds.contents,
        holds.clean wal alive good, holds.next wal alive good⟩
      simp only [WAL.append_faultless _ _ _ inner.clean]
      split
      next room =>
        obtain ⟨-, after⟩ := inner.append_ok (by rw [WAL.append_faultless _ _ _ inner.clean, if_pos room])
        have short' : ∀ other ∈ ms ++ [m], other.payloadSize ≤ kMaxPayload :=
          List.forall_mem_append.mpr ⟨holds.log.short, by simpa using short⟩
        refine ⟨ms ++ [m], [], after.log short', by simpa using after.contents, torn_nil, by simp, ?_, ?_, ?_⟩
        · simp [acknowledge, holds.acked, stamped_concat, inner.next, LogRecord.entry]
        · simp
        · simpa using after.next
      next => exact ⟨ms, [], holds.refused _ rfl⟩
    · rw [Bool.not_eq_true] at good
      simp only [WAL.append_bad _ _ _ _ good]
      exact ⟨ms, [], holds.refused _ good⟩

theorem crash_step (holds : h.Holds events ms tail) {m : Mutation} {kept : Nat}
    (short : m.payloadSize ≤ kMaxPayload)
    (ordered : ∀ earlier ∈ events, earlier.Tears → ¬ (LogEvent.crash m kept).Writes) :
    ∃ ms' tail', (h.step (.crash m kept)).Holds (events ++ [.crash m kept]) ms' tail' := by
  cases alive : h.wal with
  | none =>
    rw [step, alive]
    exact ⟨ms, tail, holds.extend _⟩
  | some wal =>
    simp only [step, alive]
    generalize partEq : (if wal.writeFile.good then
      (serializeEntry (m.entry wal.nextSequenceNumber)).dropLast.take kept else []) = part
    by_cases silent : part = []
    · subst silent
      exact ⟨ms, tail, holds.log, by simpa using holds.contents, holds.torn, (holds.extend _).tornBy, holds.acked,
        by simp, by simp⟩
    · have tears : 0 < kept := by
        by_contra none
        obtain rfl : kept = 0 := by omega
        exact silent (by simp [← partEq])
      obtain rfl := holds.tail_eq_nil (.crash m kept) tears ordered
      have partTorn : Torn part := by
        split at partEq
        next =>
          rw [List.dropLast_eq_take, List.take_take] at partEq
          refine ⟨m, wal.nextSequenceNumber, _, short, ?_, partEq.symm⟩
          simp only [serializeEntry_length, kWALHeaderSize]
          omega
        next => exact absurd partEq.symm silent
      exact ⟨ms, part, holds.log, by simpa using holds.contents, partTorn,
        fun _ => ⟨.crash m kept, by simp, tears⟩, holds.acked, by simp, by simp⟩

theorem reopen_step (holds : h.Holds events ms tail) :
    (h.step .reopen).Holds (events ++ [.reopen]) ms tail := by
  refine ⟨holds.log, holds.contents, holds.torn, (holds.extend _).tornBy, holds.acked, ?_, ?_⟩
  · simp [step, WAL.open]
  · simp only [step, Option.mem_some_iff, forall_eq', holds.contents]
    exact fun _ => holds.log.open_next holds.torn

theorem durable (holds : h.Holds events ms tail) : h.Durable := by
  rw [Durable, holds.contents, holds.log.readAll_eq holds.torn, holds.acked]
  exact ⟨List.Sublist.refl _, by rw [stamped_sequenceNumbers]; exact List.nodup_range'⟩

end Holds

theorem run_holds (events : List LogEvent) (short : ∀ event ∈ events, event.Short)
    (ordered : events.Pairwise fun earlier later => earlier.Tears → ¬ later.Writes) :
    ∃ ms tail, (run events).Holds events ms tail := by
  induction events using List.reverseRecOn with
  | nil => exact ⟨[], [], holds_new⟩
  | append_singleton events event ih =>
    rw [List.pairwise_append] at ordered
    obtain ⟨before, -, last⟩ := ordered
    obtain ⟨ms, tail, holds⟩ := ih (fun other member => short other (by simp [member])) before
    have lastShort := short event (by simp)
    have lastOrdered := fun earlier member => last earlier member event (by simp)
    rw [run, List.foldl_append, List.foldl_cons, List.foldl_nil]
    cases event with
    | append m => exact holds.append_step lastShort lastOrdered
    | crash m kept => exact holds.crash_step lastShort lastOrdered
    | reopen => exact ⟨ms, tail, holds.reopen_step⟩

theorem run_durable (events : List LogEvent) (short : ∀ event ∈ events, event.Short)
    (ordered : events.Pairwise fun earlier later => earlier.Tears → ¬ later.Writes) : (run events).Durable := by
  obtain ⟨ms, tail, holds⟩ := run_holds events short ordered
  exact holds.durable

theorem run_durable_torn_put :
    (run [.append (.put [97] [1]), .reopen, .append (.delete [97]), .crash (.put [98] [2]) 9, .reopen]).Durable :=
  run_durable _ (by simp [LogEvent.Short, Mutation.payloadSize, kMaxPayload])
    (by simp [LogEvent.Tears, LogEvent.Writes])

theorem append_behind_torn_lost :
    ¬ ∀ events : List LogEvent, (∀ event ∈ events, event.Short) → (run events).Durable := by
  intro durable
  have lost := (durable [.append (.put [97] [1]), .crash (.put [98] [2]) 1, .reopen, .append (.put [99] [3])]
    (by simp [LogEvent.Short, Mutation.payloadSize, kMaxPayload])).1.length_le
  revert lost
  decide +kernel

end LogHistory

end VectorDb.Storage
