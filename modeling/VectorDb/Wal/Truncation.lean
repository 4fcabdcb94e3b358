import VectorDb.Wal.Durability

namespace VectorDb.Storage
open Lib Common

def recordEnds : Nat → List WALEntry → List (WALEntry × Nat)
  | _, [] => []
  | start, entry :: entries =>
    let stop := start + (serializeEntry entry).length
    (entry, stop) :: recordEnds stop entries

def recordsWithin (n : Nat) (entries : List WALEntry) : List WALEntry :=
  ((recordEnds 0 entries).filter (·.2 ≤ n)).map Prod.fst

theorem le_of_mem_recordEnds {start : Nat} {entries : List WALEntry} {record : WALEntry × Nat}
    (member : record ∈ recordEnds start entries) : start ≤ record.2 := by
  induction entries generalizing start with
  | nil => simp [recordEnds] at member
  | cons entry entries ih =>
    obtain rfl | later := List.mem_cons.mp member
    · simp
    · have := ih later
      omega

theorem scan_take (limit : Option Nat) (records : List LogRecord) (start n : Nat)
    (readable : ∀ record ∈ records, record.Readable limit) :
    scan limit ((records.flatMap LogRecord.bytes).take (n - start)) =
      ((recordEnds start (records.map LogRecord.entry)).filter (·.2 ≤ n)).map Prod.fst := by
  induction records generalizing start with
  | nil => simp [recordEnds, scan_stop (readRecord_nil limit)]
  | cons record records ih =>
    have fine := readable record (by simp)
    by_cases whole : start + record.bytes.length ≤ n
    · have read : ∀ back, readRecord limit (record.bytes ++ back) = some (record.entry, record.bytes.length) := by
        intro back
        rw [record.bytes_length]
        exact readRecord_serializeEntry limit _ _ _ fine.lsnFits fine.fits fine.within
      have rest := ih (start + record.bytes.length) fun other member => readable other (by simp [member])
      rw [List.flatMap_cons, List.take_append, List.take_of_length_le (by omega), scan_cons (read _), List.drop_left,
        Nat.sub_sub, rest, List.map_cons, recordEnds,
        List.filter_cons_of_pos (a := (record.entry, start + (serializeEntry record.entry).length)) (decide_eq_true whole)]
      rfl
    · -- The cut is inside this record, and every later one ends behind it.
      have torn : readRecord limit (record.bytes.take (n - start)) = none := by
        by_cases empty : n < start
        · rw [Nat.sub_eq_zero_of_le empty.le, List.take_zero, readRecord_nil]
        · exact readRecord_torn limit _ _ _ fine.fits (by
            change n - start < record.bytes.length
            omega)
      have behind : ∀ later ∈ recordEnds start ((record :: records).map LogRecord.entry), ¬ later.2 ≤ n := by
        intro later member
        obtain rfl | after := List.mem_cons.mp member
        · exact whole
        · exact fun inside => whole ((le_of_mem_recordEnds after).trans inside)
      rw [List.flatMap_cons, List.take_append_of_le_length (by omega), scan_stop torn,
        List.filter_eq_nil_iff.mpr (by simpa using behind), List.map_nil]

namespace WAL

def readAllAt (path : String) : Option Bytes → ErrorOr (List WALEntry)
  | none => .error (ioError ("Cannot open WAL for reading: " ++ path))
  | some file => .ok (readAll file)

end WAL

namespace LogEvent

def Clean : LogEvent → Prop
  | crash _ _ => False
  | _ => True

def appends (events : List LogEvent) : List Mutation :=
  events.filterMap fun
    | append m => some m
    | _ => none

theorem appends_concat (events : List LogEvent) (event : LogEvent) :
    appends (events ++ [event]) = appends events ++ appends [event] := by
  simp [appends]

theorem short_appends {events : List LogEvent} (short : ∀ event ∈ events, event.Short) :
    ∀ m ∈ appends events, m.payloadSize ≤ kMaxPayload := by
  intro m member
  obtain ⟨event, isEvent, appended⟩ := List.mem_filterMap.mp member
  cases event <;> simp at appended
  subst appended
  exact short _ isEvent

end LogEvent

namespace LogHistory

open LogEvent

theorem run_clean {events : List LogEvent} (clean : ∀ event ∈ events, event.Clean)
    (short : ∀ event ∈ events, event.Short) (room : (logBytes (appends events)).length ≤ maxFileSize) :
    ∃ wal, (run events).wal = some wal ∧ wal.Holds (run events).file (appends events) ∧
      (run events).acked = (stamped (appends events)).map LogRecord.entry := by
  induction events using List.reverseRecOn with
  | nil => exact ⟨_, rfl, WAL.holds_new, rfl⟩
  | append_singleton events event ih =>
    have before := appends_concat events event
    obtain ⟨wal, alive, holds, acked⟩ := ih (fun other member => clean other (by simp [member]))
      (fun other member => short other (by simp [member]))
      ((logBytes_length_le _ (appends [event])).trans (before ▸ room))
    have runs : run (events ++ [event]) = (run events).step event := by simp [run, List.foldl_append]
    rw [runs]
    cases event with
    | crash m kept => exact (clean (.crash m kept) (by simp)).elim
    | append m =>
      obtain ⟨lsn, wal', file', done⟩ := holds.append_room (m := m) (by simpa [appends] using before ▸ room)
      obtain ⟨rfl, holds'⟩ := holds.append_ok done
      rw [step, alive]
      simp only [done]
      refine ⟨wal', rfl, by simpa [appends] using holds', ?_⟩
      simp [acknowledge, acked, appends, stamped_concat, LogRecord.entry]
    | reopen =>
      have same : appends (events ++ [.reopen]) = appends events := by simp [appends]
      have log := holds.log (short_appends fun other member => short other (by simp [member]))
      rw [same]
      exact ⟨_, rfl, by simpa only [step, holds.contents] using WAL.holds_open log, acked⟩

theorem clean_contents {events : List LogEvent} (clean : ∀ event ∈ events, event.Clean)
    (short : ∀ event ∈ events, event.Short) :
    ∃ ms, LogFile ms ∧ (run events).file = logBytes ms ∧ (run events).acked = (stamped ms).map LogRecord.entry := by
  have whole : ∀ event ∈ events, ¬ event.Tears := by
    intro event member
    have := clean event member
    cases event <;> simp_all [Clean, Tears]
  obtain ⟨ms, tail, holds⟩ := run_holds events short
    (List.pairwise_iff_forall_sublist.mpr fun sub tears => (whole _ (sub.subset (by simp)) tears).elim)
  have untorn : tail = [] := by
    by_contra left
    obtain ⟨event, member, tears⟩ := holds.tornBy left
    exact whole event member tears
  exact ⟨ms, holds.log, by simpa [untorn] using holds.contents, holds.acked⟩

theorem readAll_truncated (path : String) (events : List LogEvent) (clean : ∀ event ∈ events, event.Clean)
    (short : ∀ event ∈ events, event.Short) :
    (run events).acked.map WALEntry.sequenceNumber = List.range' 1 (run events).acked.length ∧
    (run events).file = (run events).acked.flatMap serializeEntry ∧
    (∀ n ≤ (run events).file.length,
      WAL.readAllAt path (some ((run events).file.take n)) = .ok (recordsWithin n (run events).acked)) ∧
    ((logBytes (appends events)).length ≤ maxFileSize →
      (run events).acked = ((appends events).zipIdx 1).map fun (m, lsn) => m.entry lsn) := by
  obtain ⟨ms, log, file, acked⟩ := clean_contents clean short
  refine ⟨?_, ?_, ?_, ?_⟩
  · rw [acked, stamped_sequenceNumbers, List.length_map, stamped_length]
  · rw [file, acked, List.flatMap_map]
    rfl
  · intro n _
    have cut := scan_take (some kMaxPayload) (stamped ms) 0 n (log.readable _ (by simp))
    rw [file, acked, WAL.readAllAt, WAL.readAll]
    exact congrArg Except.ok cut
  · intro room
    obtain ⟨-, -, -, every⟩ := run_clean clean short room
    rw [every, stamped, List.map_map]
    rfl

theorem readAll_truncated_delete :
    (run [.append (.put [97] [1]), .reopen, .append (.delete [97])]).acked.length = 2 ∧
    WAL.readAllAt "wal.log"
        (some ((run [.append (.put [97] [1]), .reopen, .append (.delete [97])]).file.take 40)) =
      .ok (recordsWithin 40 (run [.append (.put [97] [1]), .reopen, .append (.delete [97])]).acked) := by
  have truncated := readAll_truncated "wal.log" [.append (.put [97] [1]), .reopen, .append (.delete [97])]
    (by simp [Clean]) (by simp [LogEvent.Short, Mutation.payloadSize, kMaxPayload])
  exact ⟨by decide +kernel, truncated.2.2.1 40 (by decide +kernel)⟩

end LogHistory

end VectorDb.Storage
