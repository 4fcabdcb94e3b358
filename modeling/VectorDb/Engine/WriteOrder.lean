import VectorDb.Engine.Phases

namespace VectorDb.Storage
open Lib Common CompactionManager

namespace StorageEngine

variable {pf : Platform} {config : StorageConfig} {ι : Type} [DecidableEq ι]

theorem replayed_and_live {phase : ι → Phase} {moves : List (Move Phase ι)} {calls : Calls ι}
    (run : Interleaved pf .faultless ⟨fresh pf config, phase⟩ moves calls)
    (unflushed : ∀ move ∈ moves, move.source ≠ .swap)
    (short : ∀ m ∈ appended moves, m.payloadSize ≤ kMaxPayload) :
    ∃ replayed count,
      RecoveryManager.recoverMemTable pf calls.state.disk.log (MemTable.new pf) 0 = .ok (replayed, count) ∧
      ∀ key, find BlockEntry.key replayed.entries key = newest BlockEntry.key (effects (appended moves)) key ∧
        find BlockEntry.key calls.state.engine.activeMemtable.entries key =
          newest BlockEntry.key (effects (applied moves)) key := by
  have holds := run.holds (holds_fresh pf config)
  have replayed := RecoveryManager.recoverMemTable_log pf (holds.log short) torn_nil 0
  rw [List.append_nil, ← run.log_eq (holds_fresh pf config) rfl] at replayed
  have live := run.active_entries (serving_fresh pf config).active
  rw [active_unswapped _ unflushed] at live
  refine ⟨_, _, replayed, fun key => ⟨?_, ?_⟩⟩
  · rw [MemTable.entries_applyAll_new, find_replay, find_nil, Option.or_none]
    rfl
  · rw [live, find_replay, find_nil, Option.or_none]
    rfl

/-- Concurrent writers without a flush: replaying the log gives the live MemTable exactly when for
every key the last append and the last MemTable update agree. -/
theorem replay_eq_live_iff {start : World} {phase : ι → Phase} {moves : List (Move Phase ι)} {calls : Calls ι}
    (opened : «open» pf config Disk.empty = .ok start.engine start.disk)
    (run : Interleaved pf .faultless ⟨start, phase⟩ moves calls)
    (unflushed : ∀ move ∈ moves, move.source ≠ .swap)
    (short : ∀ m ∈ appended moves, m.payloadSize ≤ kMaxPayload) :
    ∃ replayed count,
      RecoveryManager.recoverMemTable pf calls.state.disk.log (MemTable.new pf) 0 = .ok (replayed, count) ∧
      ((∀ key, find BlockEntry.key replayed.entries key =
          find BlockEntry.key calls.state.engine.activeMemtable.entries key) ↔
        ∀ key, newest BlockEntry.key (effects (appended moves)) key =
          newest BlockEntry.key (effects (applied moves)) key) := by
  obtain rfl := opened_eq_fresh opened
  obtain ⟨replayed, count, recovered, entries⟩ := replayed_and_live run unflushed short
  refine ⟨replayed, count, recovered, forall_congr' fun key => ?_⟩
  rw [(entries key).1, (entries key).2]

theorem crossed_run (first second : Mutation) (room : (logBytes [first, second]).length ≤ maxFileSize)
    (one : ((MemTable.new .reference).apply .reference second).approximateMemoryUsage < 64 * 1024 * 1024)
    (two : (((MemTable.new .reference).apply .reference second).apply .reference first).approximateMemoryUsage <
      64 * 1024 * 1024) :
    ∃ calls, Interleaved .reference .faultless
        ⟨fresh .reference {}, fun other : Bool => .append (if other then second else first)⟩
        [⟨false, .append first, .apply first⟩, ⟨true, .append second, .apply second⟩,
          ⟨true, .apply second, .returned⟩, ⟨false, .apply first, .returned⟩] calls ∧
      ∀ i, calls.phase i = .returned := by
  have holds := holds_fresh .reference {}
  obtain ⟨lsn, wal, file, appendFirst⟩ := holds.append_room ((logBytes_length_le [first] [second]).trans room)
  obtain ⟨lsn', wal', file', appendSecond⟩ := (holds.append_ok appendFirst).2.append_room room
  refine ⟨_, .snoc (.snoc (.snoc (.snoc .refl false rfl (.append appendFirst)) true rfl (.append appendSecond)) true rfl
      (.apply_small (MemTable.new .reference) (64 * 1024 * 1024) rfl rfl one)) false rfl
      (.apply_small ((MemTable.new .reference).apply .reference second) (64 * 1024 * 1024) rfl rfl two), fun i => ?_⟩
  cases i with
  | false => rfl
  | true => rfl

theorem replay_eq_live_two_keys : ∃ start moves calls replayed count,
    «open» .reference {} Disk.empty = .ok start.engine start.disk ∧
    Interleaved .reference .faultless
      ⟨start, fun other : Bool => .append (if other then .put [2] [3] else .put [1] [3])⟩ moves calls ∧
    RecoveryManager.recoverMemTable .reference calls.state.disk.log (MemTable.new .reference) 0 =
      .ok (replayed, count) ∧
    ∀ key, find BlockEntry.key replayed.entries key =
      find BlockEntry.key calls.state.engine.activeMemtable.entries key := by
  obtain ⟨calls, run, -⟩ := crossed_run (.put [1] [3]) (.put [2] [3]) (by rw [logBytes_length]; decide) (by decide)
    (by decide)
  obtain ⟨replayed, count, recovered, same⟩ := replay_eq_live_iff rfl run (by simp) (by decide)
  refine ⟨fresh .reference {}, _, calls, replayed, count, rfl, run, recovered, same.mpr fun key => ?_⟩
  change newest BlockEntry.key [⟨[1], [3], false⟩, ⟨[2], [3], false⟩] key =
    newest BlockEntry.key [⟨[2], [3], false⟩, ⟨[1], [3], false⟩] key
  by_cases one : [1] = key
  · simp [newest, find_cons, ← one]
  · simp [newest, find_cons, one]

theorem crossed_writers_replay_differs : ∃ moves calls replayed count,
    Interleaved .reference .faultless
      ⟨fresh .reference {}, fun other : Bool => .append (if other then .put [1] [3] else .put [1] [2])⟩ moves calls ∧
    (∀ i, calls.phase i = .returned) ∧ (∀ move ∈ moves, move.source ≠ .swap) ∧
    RecoveryManager.recoverMemTable .reference calls.state.disk.log (MemTable.new .reference) 0 =
      .ok (replayed, count) ∧
    find BlockEntry.key replayed.entries [1] = some ⟨[1], [3], false⟩ ∧
    find BlockEntry.key calls.state.engine.activeMemtable.entries [1] = some ⟨[1], [2], false⟩ := by
  obtain ⟨calls, run, returned⟩ := crossed_run (.put [1] [2]) (.put [1] [3]) (by rw [logBytes_length]; decide)
    (by decide) (by decide)
  obtain ⟨replayed, count, recovered, entries⟩ := replayed_and_live run (by simp) (by decide)
  exact ⟨_, calls, replayed, count, run, returned, by simp, recovered, (entries [1]).1, (entries [1]).2⟩

end StorageEngine

end VectorDb.Storage
