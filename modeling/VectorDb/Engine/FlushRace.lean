import VectorDb.Engine.CrashSafety
import VectorDb.Engine.OneFlush

namespace VectorDb.Storage
open Lib Common CompactionManager

namespace StorageEngine

variable {pf : Platform} {device : Device} {config : StorageConfig} {base world : World} {batch : List Mutation}
  {lsn : Nat}

theorem FlushDone.stored {recent flushed : List Mutation}
    (done : FlushDone pf base (replay BlockEntry.key (effects batch) []) lsn world)
    (serving : Serving pf config recent base) (stored : Stored pf flushed base) :
    ∃ after, after.store = world.store ∧ Serving pf config [] after ∧ Stored pf (flushed ++ batch) after := by
  obtain ⟨table, entries, store, -⟩ := done
  obtain ⟨toFlush, filled⟩ : ∃ toFlush : MemTable, toFlush.entries = replay BlockEntry.key (effects batch) [] :=
    ⟨_, MemTable.entries_applyAll_new pf batch⟩
  have nonempty : toFlush.entries ≠ [] := by
    rw [filled, ← entries]
    exact table.nonempty
  have same : table = .ofMemTable toFlush nonempty := SSTable.ext (entries.trans filled.symm)
  have begun : Serving pf config batch { base with engine := { base.engine with activeMemtable := toFlush } } :=
    ⟨serving.configured, serving.reachable, serving.unused, serving.stamps, filled, serving.immutable⟩
  have kept : Stored pf flushed { base with engine := { base.engine with activeMemtable := toFlush } } := stored
  refine ⟨_, ?_, begun.afterFlush _, kept.afterFlush begun nonempty⟩
  rw [store, same]
  rfl

theorem FlushDone.readable {entries : List BlockEntry} (done : FlushDone pf base entries lsn world) (new : NewFile base)
    (readable : Readable base.store) (small : dataSize entries ≤ 2 ^ 30) : Readable world.store := by
  obtain ⟨table, rfl, store, -⟩ := done
  rw [store]
  exact new.readable_afterFlush readable small

theorem newest_stamped {ms : List Mutation} {record : LogRecord} (member : record ∈ stamped ms) :
    ∃ later ∈ stamped ms, later.mutation.key = record.mutation.key ∧ record.lsn ≤ later.lsn ∧
      newest BlockEntry.key (effects ms) record.mutation.key = some later.mutation.effect := by
  induction ms using List.reverseRecOn with
  | nil => simp [stamped] at member
  | append_singleton ms m ih =>
    have last : (⟨m, ms.length + 1⟩ : LogRecord) ∈ stamped (ms ++ [m]) := by simp [stamped_concat]
    by_cases overwritten : m.key = record.mutation.key
    · refine ⟨_, last, overwritten, ?_, newest_effects_same ms overwritten⟩
      have := (mem_stamped member).2.2
      simpa using this
    · have old : record ∈ stamped ms := by
        rw [stamped_concat] at member
        rcases List.mem_append.mp member with old | isLast
        · exact old
        · rw [List.mem_singleton.mp isLast] at overwritten
          exact absurd rfl overwritten
      obtain ⟨later, inside, key, lsn, newest⟩ := ih old
      refine ⟨later, ?_, key, lsn, (newest_effects_other ms overwritten).trans newest⟩
      rw [stamped_concat]
      exact List.mem_append_left _ inside

def listed (world : World) (checkpoint : Checkpoint) : Store :=
  ⟨world.disk.tables, { world.engine.compactionManager with files := checkpoint.sstables }⟩

/-- For every record up to the checkpoint's sequence number, the listed tables give the effect of that
record or of a later one of its key. -/
def Covers (pf : Platform) (world : World) (checkpoint : Checkpoint) (ms : List Mutation) : Prop :=
  ∀ record ∈ stamped ms, record.lsn ≤ checkpoint.lastFlushedLsn →
    ∃ later ∈ stamped ms, later.mutation.key = record.mutation.key ∧ record.lsn ≤ later.lsn ∧
      newestEntry pf (listed world checkpoint) record.mutation.key = some later.mutation.effect

theorem stamped_append (ms later : List Mutation) :
    ∃ records, stamped (ms ++ later) = stamped ms ++ records ∧ ∀ record ∈ records, ms.length < record.lsn := by
  induction later using List.reverseRecOn with
  | nil => exact ⟨[], by simp, by simp⟩
  | append_singleton later m ih =>
    obtain ⟨records, split, above⟩ := ih
    refine ⟨records ++ [⟨m, (ms ++ later).length + 1⟩], ?_, List.forall_mem_append.mpr ⟨above, ?_⟩⟩
    · rw [← List.append_assoc, stamped_concat, split, List.append_assoc]
    · simp

theorem newest_covered {ms later : List Mutation} {record : LogRecord} (member : record ∈ stamped (ms ++ later))
    (below : record.lsn ≤ ms.length) :
    ∃ last ∈ stamped (ms ++ later), last.mutation.key = record.mutation.key ∧ record.lsn ≤ last.lsn ∧
      newest BlockEntry.key (effects ms) record.mutation.key = some last.mutation.effect := by
  obtain ⟨records, split, above⟩ := stamped_append ms later
  rw [split] at member ⊢
  have early : record ∈ stamped ms := by
    rcases List.mem_append.mp member with early | late
    · exact early
    · have := above record late
      omega
  obtain ⟨last, inside, covers⟩ := newest_stamped early
  exact ⟨last, List.mem_append_left _ inside, covers⟩

theorem covers_of_initial {ms later : List Mutation} {checkpoint : Checkpoint}
    (count : checkpoint.lastFlushedLsn = ms.length)
    (newestOf : ∀ key, newestEntry pf (listed world checkpoint) key = newest BlockEntry.key (effects ms) key) :
    Covers pf world checkpoint (ms ++ later) := by
  intro record member below
  rw [newestOf]
  exact newest_covered member (count ▸ below)

section Concurrent
variable {ι : Type} [DecidableEq ι]

theorem beforeSwap_unswapped {flusher : ι} {moves : List (Move Phase ι)}
    (alone : ∀ move ∈ moves, move.source = .swap → move.thread = flusher) :
    ∀ move ∈ beforeSwap flusher moves, move.source ≠ .swap := by
  intro move member isSwap
  have thread := alone move (beforeFirst_initial.subset member) isSwap
  have before := List.mem_takeWhile_imp member
  simp [thread, isSwap, Phase.isSwap] at before

theorem appended_beforeCapture (flusher : ι) (moves : List (Move Phase ι)) :
    ∃ later, appended moves = appended (beforeCapture flusher moves) ++ later := by
  obtain ⟨rest, split⟩ : beforeCapture flusher moves <+: moves := beforeFirst_initial
  refine ⟨appended rest, ?_⟩
  conv_lhs => rw [← split]
  exact List.filterMap_append

theorem Interleaved.agree {start calls : Calls ι} {moves : List (Move Phase ι)}
    (run : Interleaved pf device start moves calls) (idle : ∀ i, (start.phase i).flushes = false)
    (unswapped : ∀ move ∈ moves, move.source ≠ .swap) :
    Agree start.state calls.state ∧ (∀ i, (calls.phase i).flushes = false) ∧
      ∀ move ∈ moves, move.source.flushes = false := by
  refine run.induct (P := fun moves calls => (∀ move ∈ moves, move.source ≠ .swap) →
    Agree start.state calls.state ∧ (∀ i, (calls.phase i).flushes = false) ∧
      ∀ move ∈ moves, move.source.flushes = false) (fun _ => ⟨⟨rfl, rfl, rfl, rfl⟩, idle, by simp⟩) ?_ unswapped
  intro moves calls i target world' _ before next unswapped
  obtain ⟨unswapped, last⟩ := List.forall_mem_append.mp unswapped
  obtain ⟨agree, idle, sources⟩ := before unswapped
  have stays := last _ (List.mem_singleton_self _)
  refine ⟨agree.trans (next.bystander (idle i) stays), fun j => ?_,
    List.forall_mem_append.mpr ⟨sources, by simpa using idle i⟩⟩
  by_cases isMover : j = i
  · rw [isMover, Pool.after_phase_self]
    exact next.target_idle (idle i) stays
  · rw [calls.after_phase_of_ne isMover]
    exact idle j

theorem Interleaved.serving {start calls : Calls ι} {moves : List (Move Phase ι)} {unflushed : List Mutation}
    (run : Interleaved pf device start moves calls) (idle : ∀ i, (start.phase i).flushes = false)
    (unswapped : ∀ move ∈ moves, move.source ≠ .swap) (serving : Serving pf config unflushed start.state) :
    Serving pf config (unflushed ++ applied moves) calls.state := by
  obtain ⟨agree, -⟩ := run.agree idle unswapped
  have live := run.active_entries serving.active
  rw [active_unswapped _ unswapped] at live
  refine ⟨agree.config.trans serving.configured, ?_, ?_, ?_, live, run.immutable_none serving.immutable⟩
  · rw [agree.store]
    exact serving.reachable
  · rw [agree.files, agree.sequence]
    exact serving.unused
  · rw [agree.files, agree.sequence]
    exact serving.stamps

theorem concurrent_flush_saves {start calls : Calls ι} {flushed unflushed all : List Mutation} {flusher : ι}
    {moves : List (Move Phase ι)} {checkpoint : Checkpoint} (serving : Serving pf config unflushed start.state)
    (stored : Stored pf flushed start.state) (holds : start.state.engine.wal.Holds (start.state.disk.log.getD []) all)
    (idle : ∀ i, (start.phase i).flushes = false) (run : Interleaved pf .faultless start moves calls)
    (alone : ∀ move ∈ moves, move.source = .swap → move.thread = flusher)
    (saved : ∃ move ∈ moves, move.thread = flusher ∧ move.source = .save checkpoint) :
    calls.state.disk.checkpoints.installed = some (.complete checkpoint) ∧
      checkpoint.lastFlushedLsn = (all ++ appended (beforeCapture flusher moves)).length ∧
      ∃ after, after.store = listed calls.state checkpoint ∧ Serving pf config [] after ∧
        Stored pf (flushed ++ unflushed ++ applied (beforeSwap flusher moves)) after ∧
        (Readable start.state.store →
          dataSize (replay BlockEntry.key (effects (unflushed ++ applied (beforeSwap flusher moves))) []) ≤ 2 ^ 30 →
          Readable after.store) := by
  have swaps : ∃ move ∈ moves, (decide (move.thread = flusher) && move.source.isSwap) = true := by
    by_contra none
    have unswapped : ∀ move ∈ moves, move.source ≠ .swap := fun move member isSwap =>
      none ⟨move, member, by simp [alone move member isSwap, isSwap, Phase.isSwap]⟩
    obtain ⟨move, member, -, isSave⟩ := saved
    have := (run.agree idle unswapped).2.2 move member
    rw [isSave] at this
    cases this
  -- The run up to the swap has no flush in it, and from there on it has one.
  obtain ⟨swap, late, split, isSwap, -⟩ := exists_first swaps
  rw [Bool.and_eq_true, decide_eq_true_iff, Phase.isSwap_iff] at isSwap
  obtain ⟨thread, isSwap⟩ := isSwap
  have unswapped := beforeSwap_unswapped alone
  change moves = beforeSwap flusher moves ++ swap :: late at split
  generalize beforeSwap flusher moves = early at split unswapped ⊢
  subst split
  obtain ⟨middle, before, after⟩ : ∃ middle, Interleaved pf .faultless start early middle ∧
    Interleaved pf .faultless middle (swap :: late) calls := run.split early
  obtain ⟨agree, idle', sources⟩ := before.agree idle unswapped
  have stands : middle.phase flusher = .swap := by rw [← thread, after.first_source, isSwap]
  have one : OneFlush pf middle.state flusher (unflushed ++ applied early) _ (swap :: late) calls :=
    .of_run stands (fun i _ => idle' i) (before.serving idle unswapped serving).active (before.holds holds) after
      fun move member => alone move (List.mem_append_right _ member)
  have uncaptured : ∀ move ∈ early, (decide (move.thread = flusher) && move.source.isCapture) = false := by
    intro move member
    rw [Phase.isCapture_of_idle (sources move member), Bool.and_false]
  have captures : beforeCapture flusher (early ++ swap :: late) = early ++ beforeCapture flusher (swap :: late) :=
    beforeFirst_append_none uncaptured _
  have first : beforeSwap flusher (swap :: late) = [] := by simp [beforeSwap, beforeFirst, thread, isSwap, Phase.isSwap]
  have savedLate : ∃ move ∈ swap :: late, move.thread = flusher ∧ move.source = .save checkpoint := by
    obtain ⟨move, member, own, isSave⟩ := saved
    rcases List.mem_append.mp member with inEarly | inLate
    · have := sources move inEarly
      rw [isSave] at this
      cases this
    · exact ⟨move, inLate, own, isSave⟩
  obtain ⟨-, -, done, rfl⟩ := one.saved checkpoint savedLate
  have storedMiddle : Stored pf flushed middle.state := by rwa [Stored, agree.store]
  have readable := done.readable (before.serving idle unswapped serving).newFile
  obtain ⟨after, store, serving', stored'⟩ := done.stored (before.serving idle unswapped serving) storedMiddle
  rw [first, active, List.foldl_nil] at stored' readable
  rw [← List.append_assoc] at stored'
  refine ⟨?_, ?_, after, store, serving', stored', fun reads small => ?_⟩
  · obtain ⟨-, -, -, installed⟩ := done
    exact installed
  · simp [captures, appended, Nat.add_assoc]
  · rw [store]
    exact readable (agree.store ▸ reads) small

/-- One flush among any number of writers: what its checkpoint covers is in the listed tables, these read back, and a
crash loses nothing, when for every key the last mutation appended before the capture is the last one
applied before the swap and the flushed MemTable is within the limits of the file format. -/
theorem concurrent_flush_covers {start : World} {commands : List Command} {phase : ι → Phase} {flusher : ι}
    {moves : List (Move Phase ι)} {calls : Calls ι} {checkpoint : Checkpoint}
    (opened : «open» pf config Disk.empty = .ok start.engine start.disk)
    (ran : runAll pf .faultless commands start = .ok () world) (moderate : Moderate pf config (written commands))
    (callers : ∀ i, phase i = .swap ∨ ∃ m, phase i = .append m)
    (run : Interleaved pf .faultless ⟨world, phase⟩ moves calls)
    (small : dataSize (effects (applied (beforeSwap flusher moves))) ≤ 2 ^ 29)
    (alone : ∀ move ∈ moves, move.source = .swap → move.thread = flusher)
    (saved : ∃ move ∈ moves, move.thread = flusher ∧ move.source = .save checkpoint)
    (ordered : ∀ key, newest BlockEntry.key (effects (written commands ++ appended (beforeCapture flusher moves))) key =
      newest BlockEntry.key (effects (written commands ++ applied (beforeSwap flusher moves))) key) :
    calls.state.disk.checkpoints.installed = some (.complete checkpoint) ∧
      Covers pf calls.state checkpoint (written commands ++ appended moves) ∧ Readable (listed calls.state checkpoint) ∧
      ((∀ m ∈ written commands ++ appended moves, m.payloadSize ≤ kMaxPayload) →
        Recovers pf config calls.state.disk (written commands ++ appended moves)) := by
  obtain rfl := opened_eq_fresh opened
  obtain ⟨flushed, unflushed, all, serving, stored, logged⟩ := runAll_logged ran
  have idle : ∀ i, (phase i).flushes = false := by
    intro i
    obtain isSwap | ⟨m, isAppend⟩ := callers i
    · simp [isSwap, Phase.flushes]
    · simp [isAppend, Phase.flushes]
  obtain ⟨installed, count, after, store, serving', stored', reads⟩ :=
    concurrent_flush_saves serving stored logged.holds idle run alone saved
  obtain ⟨-, sized⟩ := runAll_sized moderate ran
  have readable : Readable after.store := by
    refine reads (sized.readable serving.searchable) ?_
    have threshold : world.engine.config.memtableSizeBytes ≤ 2 ^ 29 := serving.configured ▸ moderate.threshold
    have active := sized.active
    rw [effects_append, replay_append, ← serving.active]
    refine (load_replay_le _ _ _ _).trans ?_
    change dataSize _ + dataSize _ ≤ _
    omega
  have log := run.log_eq logged.holds logged.created
  have holds := run.holds logged.holds
  obtain ⟨later, split⟩ := appended_beforeCapture flusher moves
  rw [all] at count stored' log holds
  have newestOf : Stored pf (written commands ++ appended (beforeCapture flusher moves)) after :=
    fun key => (stored' key).trans (ordered key).symm
  rw [split, ← List.append_assoc] at log holds ⊢
  refine ⟨installed, covers_of_initial count fun key => ?_, store ▸ readable, fun short => ?_⟩
  · rw [← store]
    exact newestOf key
  · refine serving'.recovers readable newestOf (holds.log short) torn_nil (by simpa using log) ?_ fun file _ => ?_
    · have files : after.engine.compactionManager.files = checkpoint.sstables :=
        congrArg (fun store : Store => store.manager.files) store
      rw [CheckpointManager.loadCheckpoint, installed, ← count, files]
    · exact congrFun (congrArg Store.tables store.symm) _

end Concurrent

def flushAndWrite (m : Mutation) (flushes : Bool) : Phase := if flushes then .swap else .append m

section Runs
variable {all : List Mutation} {first m : Mutation}
  (serving : Serving .reference {} [first] world) (holds : world.engine.wal.Holds (world.disk.log.getD []) all)
  (room : (logBytes (all ++ [m])).length ≤ maxFileSize)
  (small : ((MemTable.new .reference).apply .reference m).approximateMemoryUsage < 64 * 1024 * 1024)
include serving holds room small

theorem flush_then_write : ∃ table calls, Interleaved .reference .faultless ⟨world, flushAndWrite m⟩
    (flushMoves true world table ++ [⟨false, .append m, .apply m⟩] ++ [⟨false, .apply m, .returned⟩]) calls ∧
    ∀ i, calls.phase i = .returned := by
  have none : Interleaved .reference .faultless ⟨world, flushAndWrite m⟩ [] _ := .refl
  have flushed := none.flush true rfl (serving.active_eq_nil.not.mpr (by simp)) serving.levels
  obtain ⟨lsn, wal, file, appends⟩ := holds.append_room room
  have logged := flushed.snoc false rfl (.append appends)
  have applied := logged.snoc false rfl (.apply_small (MemTable.new .reference) (64 * 1024 * 1024) rfl
    (congrArg StorageConfig.memtableSizeBytes serving.configured) small)
  refine ⟨_, _, applied, fun i => ?_⟩
  cases i with
  | false => rfl
  | true => rfl

theorem flush_inside_write : ∃ between table calls, Interleaved .reference .faultless ⟨world, flushAndWrite m⟩
    ([⟨false, .append m, .apply m⟩] ++ flushMoves true between table ++ [⟨false, .apply m, .returned⟩]) calls ∧
    ∀ i, calls.phase i = .returned := by
  have none : Interleaved .reference .faultless ⟨world, flushAndWrite m⟩ [] _ := .refl
  obtain ⟨lsn, wal, file, appends⟩ := holds.append_room room
  have logged := none.snoc false rfl (.append appends)
  have flushed := logged.flush true rfl (serving.active_eq_nil.not.mpr (by simp)) serving.levels
  have applied := flushed.snoc false rfl (.apply_small (MemTable.new .reference) (64 * 1024 * 1024) rfl
    (congrArg StorageConfig.memtableSizeBytes serving.configured) small)
  refine ⟨_, _, _, applied, fun i => ?_⟩
  cases i with
  | false => rfl
  | true => rfl

end Runs

theorem concurrent_flush_covers_before : ∃ world moves calls checkpoint,
    runAll .reference .faultless [.put [1] [2]] (fresh .reference {}) = .ok () world ∧
    Interleaved .reference .faultless ⟨world, flushAndWrite (.put [3] [4])⟩ moves calls ∧
    (∀ i, calls.phase i = .returned) ∧ calls.state.disk.checkpoints.installed = some (.complete checkpoint) ∧
    Covers .reference calls.state checkpoint ([.put [1] [2]] ++ appended moves) ∧
    Readable (listed calls.state checkpoint) := by
  obtain ⟨world, put, serving, -, holds, -⟩ := (resting_fresh .reference {}).write (.put [1] [2])
    (by rw [logBytes_length]; decide) (by decide)
  have ran : runAll .reference .faultless ([] ++ [.put [1] [2]]) (fresh .reference {}) = .ok () world :=
    runAll_concat.mpr ⟨_, rfl, put⟩
  obtain ⟨table, calls, run, returned⟩ := flush_then_write (m := .put [3] [4]) serving holds
    (by rw [logBytes_length]; decide) (by decide)
  have alone : ∀ move ∈ flushMoves true world table ++ [⟨false, .append (.put [3] [4]), .apply (.put [3] [4])⟩] ++
      [⟨false, .apply (.put [3] [4]), .returned⟩], move.source = .swap → move.thread = true := by
    simp [flushMoves, swappedMoves]
  obtain ⟨checkpoint, move, member, save⟩ := flushMoves_save true world table
  have moderate : Moderate .reference {} (written ([] ++ [.put [1] [2]])) :=
    ⟨⟨by decide, by decide⟩, by decide, by decide⟩
  obtain ⟨installed, covers, readable, -⟩ := concurrent_flush_covers rfl ran moderate (by simp [flushAndWrite]) run
    (by simp [beforeSwap, beforeFirst, flushMoves, swappedMoves, Phase.isSwap, applied, effects]) alone
    ⟨move, by simp [member], save⟩ fun key => by rfl
  exact ⟨world, _, calls, checkpoint, ran, run, returned, installed, covers, readable⟩

/-- A flush between the two steps of a writer: the checkpoint counts the record, no table has it, and
`Open` skips it. -/
theorem flush_inside_write_loses : ∃ world moves calls checkpoint recovered,
    runAll .reference .faultless [.put [1] [2]] (fresh .reference {}) = .ok () world ∧
    Interleaved .reference .faultless ⟨world, flushAndWrite (.put [3] [4])⟩ moves calls ∧
    (∀ i, calls.phase i = .returned) ∧
    (∃ move ∈ moves, move.thread = true ∧ move.source = .save checkpoint) ∧
    calls.state.disk.log = some (logBytes [.put [1] [2], .put [3] [4]]) ∧ checkpoint.lastFlushedLsn = 2 ∧
    newestEntry .reference (listed calls.state checkpoint) [3] = none ∧
    «open» .reference {} calls.state.disk = .ok recovered.engine recovered.disk ∧
    get .reference .none recovered [3] = .ok none := by
  obtain ⟨world, put, serving, stored, holds, -⟩ := (resting_fresh .reference {}).write (.put [1] [2])
    (by rw [logBytes_length]; decide) (by decide)
  have ran : runAll .reference .faultless ([] ++ [.put [1] [2]]) (fresh .reference {}) = .ok () world :=
    runAll_concat.mpr ⟨_, rfl, put⟩
  obtain ⟨between, table, calls, run, returned⟩ := flush_inside_write (m := .put [3] [4]) serving holds
    (by rw [logBytes_length]; decide) (by decide)
  have alone : ∀ move ∈ [⟨false, .append (.put [3] [4]), .apply (.put [3] [4])⟩] ++ flushMoves true between table ++
      [⟨false, .apply (.put [3] [4]), .returned⟩], move.source = .swap → move.thread = true := by
    simp [flushMoves, swappedMoves]
  obtain ⟨checkpoint, move, member, save⟩ := flushMoves_save true between table
  obtain ⟨installed, count, after, store, serving', stored', -⟩ := concurrent_flush_saves serving stored holds
    (by simp [flushAndWrite, Phase.flushes]) run alone ⟨move, by simp [member], save⟩
  obtain ⟨_, _, _, _, _, logged⟩ := runAll_logged ran
  have log : calls.state.disk.log = some (logBytes [.put [1] [2], .put [3] [4]]) := run.log_eq holds logged.created
  have file : LogFile [.put [1] [2], .put [3] [4]] := ⟨by decide, by rw [logBytes_length]; decide⟩
  have files : after.engine.compactionManager.files = checkpoint.sstables :=
    congrArg (fun store : Store => store.manager.files) store
  have loaded : CheckpointManager.loadCheckpoint calls.state.disk.checkpoints =
      .ok ⟨2, after.engine.compactionManager.files⟩ := by
    have two : checkpoint.lastFlushedLsn = 2 := count
    rw [CheckpointManager.loadCheckpoint, installed, files, ← two]
  have absent : newestEntry .reference after.store [3] = none := stored' [3]
  obtain ⟨recovered, opened, got⟩ := serving'.reopens_counted file log loaded (congrArg Store.tables store.symm) [3]
  rw [absent] at got
  exact ⟨world, _, calls, checkpoint, recovered, ran, run, returned, ⟨move, by simp [member], save⟩, log, count,
    store ▸ absent, opened, got⟩

end StorageEngine

end VectorDb.Storage
