import VectorDb.Engine.Phases

namespace VectorDb.Storage
open Lib Common CompactionManager

namespace StorageEngine

def Phase.flushes : Phase → Bool
  | capture _ => true
  | draw _ _ => true
  | write _ _ _ => true
  | register _ _ _ => true
  | catalogue _ => true
  | save _ => true
  | finish => true
  | _ => false

variable {pf : Platform} {device : Device} {config : StorageConfig} {base world world' : World}
  {batch : List BlockEntry} {lsn : Nat}

structure Agree (base world : World) : Prop where
  store : world.store = base.store
  checkpoints : world.disk.checkpoints = base.disk.checkpoints
  sequence : world.engine.nextSstSequence = base.engine.nextSstSequence
  config : world.engine.config = base.engine.config

theorem Agree.trans (first : Agree base world) (second : Agree world world') : Agree base world' where
  store := second.store.trans first.store
  checkpoints := second.checkpoints.trans first.checkpoints
  sequence := second.sequence.trans first.sequence
  config := second.config.trans first.config

theorem Moves.bystander {source target : Phase} (moves : Moves pf device world source target world')
    (idle : source.flushes = false) (unswapped : source ≠ .swap) : Agree world world' := by
  cases moves with
  | append => exact ⟨rfl, rfl, rfl, rfl⟩
  | apply => exact ⟨rfl, rfl, rfl, rfl⟩
  | lookup => exact ⟨rfl, rfl, rfl, rfl⟩
  | search => exact ⟨rfl, rfl, rfl, rfl⟩
  | swap => exact absurd rfl unswapped
  | swapEmpty => exact absurd rfl unswapped
  | _ => cases idle

def FlushDone (pf : Platform) (base : World) (batch : List BlockEntry) (lsn : Nat) (world : World) : Prop :=
  ∃ table : SSTable, table.entries = batch ∧ world.store = (afterFlush pf base table).store ∧
    world.disk.checkpoints.installed = some (.complete ⟨lsn, world.engine.compactionManager.files⟩)

/-- What the rest of a flush can rely on. The flush began in `base`, it swapped out a MemTable with the
entries of the batch, and it captured the sequence number. -/
inductive FlushStage (pf : Platform) (base : World) (batch : List BlockEntry) (lsn : Nat) (world : World) :
    Phase → Prop
  | swap : Agree base world → FlushStage pf base batch lsn world .swap
  | idle : Agree base world → FlushStage pf base batch lsn world .returned
  | capture {toFlush : MemTable} : toFlush.entries = batch → Agree base world →
      FlushStage pf base batch lsn world (.capture toFlush)
  | draw {toFlush : MemTable} : toFlush.entries = batch → Agree base world →
      FlushStage pf base batch lsn world (.draw toFlush lsn)
  | write {toFlush : MemTable} : toFlush.entries = batch →
      world.store = base.store → world.engine.config = base.engine.config →
      FlushStage pf base batch lsn world (.write toFlush lsn base.engine.nextSstSequence)
  | register {table : SSTable} : table.entries = batch →
      world.store = ⟨(afterFlush pf base table).disk.tables, base.engine.compactionManager⟩ →
      FlushStage pf base batch lsn world (.register lsn base.engine.nextSstSequence
        (flushPath base.engine.config.sstDir base.engine.nextSstSequence))
  | catalogue {table : SSTable} : table.entries = batch →
      world.store = (afterFlush pf base table).store → FlushStage pf base batch lsn world (.catalogue lsn)
  | save {table : SSTable} : table.entries = batch →
      world.store = (afterFlush pf base table).store →
      FlushStage pf base batch lsn world (.save ⟨lsn, world.engine.compactionManager.files⟩)
  | finish : FlushDone pf base batch lsn world → FlushStage pf base batch lsn world .finish
  | returned : FlushDone pf base batch lsn world → FlushStage pf base batch lsn world .returned

theorem Agree.files (agree : Agree world world') :
    world'.engine.compactionManager.files = world.engine.compactionManager.files :=
  congrArg (fun store => store.manager.files) agree.store

theorem FlushDone.agree (done : FlushDone pf base batch lsn world) (agree : Agree world world') :
    FlushDone pf base batch lsn world' := by
  obtain ⟨table, entries, store, installed⟩ := done
  exact ⟨table, entries, agree.store.trans store, by rw [agree.checkpoints, installed, agree.files]⟩

theorem FlushStage.agree {phase : Phase} (stage : FlushStage pf base batch lsn world phase)
    (agree : Agree world world') : FlushStage pf base batch lsn world' phase := by
  cases stage with
  | swap same => exact .swap (same.trans agree)
  | idle same => exact .idle (same.trans agree)
  | capture entries same => exact .capture entries (same.trans agree)
  | draw entries same => exact .draw entries (same.trans agree)
  | write entries store config => exact .write entries (agree.store.trans store) (agree.config.trans config)
  | register entries store => exact .register entries (agree.store.trans store)
  | catalogue entries store => exact .catalogue entries (agree.store.trans store)
  | save entries store =>
    rw [← agree.files]
    exact .save entries (agree.store.trans store)
  | finish done => exact .finish (done.agree agree)
  | returned done => exact .returned (done.agree agree)

theorem FlushStage.swapped {target : Phase} (agree : Agree base world)
    (holds : world.engine.activeMemtable.entries = batch)
    (moves : Moves pf device world .swap target world') : FlushStage pf base batch lsn world' target := by
  cases moves with
  | swapEmpty => exact .idle agree
  | swap => exact .capture holds (agree.trans ⟨rfl, rfl, rfl, rfl⟩)

theorem FlushStage.next {phase target : Phase} (stage : FlushStage pf base batch lsn world phase)
    (swapped : phase ≠ .swap) (captured : ∀ toFlush, phase = .capture toFlush →
      world.engine.wal.currentSequenceNumber = lsn)
    (moves : Moves pf device world phase target world') : FlushStage pf base batch lsn world' target := by
  cases stage with
  | swap => exact absurd rfl swapped
  | idle => cases moves
  | returned => cases moves
  | capture entries agree =>
    cases moves
    rw [captured _ rfl]
    exact .draw entries agree
  | draw entries agree =>
    cases moves
    rw [agree.sequence]
    exact .write entries agree.store agree.config
  | write entries store config =>
    cases moves with
    | write flushLsn seq nonempty =>
      have written : (SSTable.ofMemTable _ nonempty).entries = batch := entries
      have tables : world.disk.tables = base.disk.tables := congrArg Store.tables store
      have manager : world.engine.compactionManager = base.engine.compactionManager := congrArg Store.manager store
      rw [config]
      exact .register written (by rw [World.store, manager, tables]; rfl)
  | @register table entries store =>
    cases moves with
    | register =>
      have tables : world.disk.tables = (afterFlush pf base table).disk.tables := congrArg Store.tables store
      have written : (afterFlush pf base table).disk.tables
          (flushPath base.engine.config.sstDir base.engine.nextSstSequence) = some (.complete table) :=
        Function.update_self _ _ _
      refine .catalogue entries ?_
      rw [tables, flushedMeta_eq written, store]
      rfl
  | catalogue entries store =>
    cases moves
    exact .save entries store
  | save entries store =>
    cases moves
    exact .finish ⟨_, entries, store, rfl⟩
  | finish done =>
    cases moves
    exact .returned (done.agree ⟨rfl, rfl, rfl, rfl⟩)

section OneFlush
variable {ι : Type} [DecidableEq ι]

def Phase.isSwap : Phase → Bool
  | swap => true
  | _ => false

theorem Phase.isSwap_iff {phase : Phase} : phase.isSwap = true ↔ phase = .swap := by
  cases phase <;> simp [isSwap]

def Phase.isCapture : Phase → Bool
  | capture _ => true
  | _ => false

theorem Phase.isCapture_of_idle {phase : Phase} (idle : phase.flushes = false) : phase.isCapture = false := by
  cases phase with
  | capture => cases idle
  | _ => rfl

def beforeSwap (flusher : ι) (moves : List (Move Phase ι)) : List (Move Phase ι) :=
  beforeFirst (fun move => decide (move.thread = flusher) && move.source.isSwap) moves

def beforeCapture (flusher : ι) (moves : List (Move Phase ι)) : List (Move Phase ι) :=
  beforeFirst (fun move => decide (move.thread = flusher) && move.source.isCapture) moves

theorem Moves.target_idle {source target : Phase} (moves : Moves pf device world source target world')
    (idle : source.flushes = false) (unswapped : source ≠ .swap) : target.flushes = false := by
  cases moves with
  | append => rfl
  | apply => split_ifs <;> rfl
  | lookup key =>
    rw [Phase.lookupTarget]
    split
    · rfl
    · split <;> rfl
  | search => rfl
  | swap => exact absurd rfl unswapped
  | swapEmpty => rfl
  | _ => cases idle

theorem FlushStage.recapture {toFlush : MemTable} (stage : FlushStage pf base batch lsn world (.capture toFlush))
    (lsn' : Nat) : FlushStage pf base batch lsn' world (.capture toFlush) := by
  cases stage with
  | capture entries agree => exact .capture entries agree

def Captured (flusher : ι) (moves : List (Move Phase ι)) : Prop :=
  ∃ move ∈ moves, move.thread = flusher ∧ move.source.isCapture = true

omit [DecidableEq ι] in
theorem Captured.append {flusher : ι} {moves : List (Move Phase ι)} (captured : Captured flusher moves)
    (later : List (Move Phase ι)) : Captured flusher (moves ++ later) := by
  obtain ⟨move, member, hit⟩ := captured
  exact ⟨move, List.mem_append_left _ member, hit⟩

structure OneFlush (pf : Platform) (base : World) (flusher : ι) (unflushed : List Mutation) (count : Nat)
    (moves : List (Move Phase ι)) (calls : Calls ι) : Prop where
  stage : FlushStage pf base (replay BlockEntry.key (effects (active unflushed (beforeSwap flusher moves))) [])
    (count + (appended (beforeCapture flusher moves)).length) calls.state (calls.phase flusher)
  bystanders : ∀ i ≠ flusher, (calls.phase i).flushes = false
  early : calls.phase flusher = .swap → ∀ move ∈ moves, move.thread ≠ flusher
  swapped : calls.phase flusher ≠ .swap → ∃ move ∈ moves, move.thread = flusher ∧ move.source = .swap
  captured : calls.phase flusher = .swap ∨
    (∃ toFlush, calls.phase flusher = .capture toFlush ∧ ∀ move ∈ moves, move.thread = flusher → move.source = .swap) ∨
    (calls.phase flusher = .returned ∧ Agree base calls.state) ∨
    (Captured flusher moves ∧ (calls.phase flusher).isCapture = false)
  saved : ∀ checkpoint, (∃ move ∈ moves, move.thread = flusher ∧ move.source = .save checkpoint) →
    (calls.phase flusher = .finish ∨ calls.phase flusher = .returned) ∧ Captured flusher moves ∧
    FlushDone pf base (replay BlockEntry.key (effects (active unflushed (beforeSwap flusher moves))) [])
      (count + (appended (beforeCapture flusher moves)).length) calls.state ∧
    checkpoint = ⟨count + (appended (beforeCapture flusher moves)).length, calls.state.engine.compactionManager.files⟩

namespace OneFlush

variable {flusher : ι} {unflushed : List Mutation} {count : Nat} {moves : List (Move Phase ι)} {calls : Calls ι}

theorem start (isSwap : calls.phase flusher = .swap) (bystanders : ∀ i ≠ flusher, (calls.phase i).flushes = false) :
    OneFlush pf calls.state flusher unflushed count [] calls where
  stage := isSwap ▸ .swap ⟨rfl, rfl, rfl, rfl⟩
  bystanders := bystanders
  early _ := by simp
  swapped := absurd isSwap
  captured := .inl isSwap
  saved := by simp

theorem beforeSwap_append (one : OneFlush pf base flusher unflushed count moves calls)
    (left : calls.phase flusher ≠ .swap) (later : List (Move Phase ι)) :
    beforeSwap flusher (moves ++ later) = beforeSwap flusher moves := by
  obtain ⟨move, member, thread, source⟩ := one.swapped left
  exact beforeFirst_append ⟨move, member, by simp [thread, source, Phase.isSwap]⟩ later

theorem beforeCapture_append (captured : Captured flusher moves) (later : List (Move Phase ι)) :
    beforeCapture flusher (moves ++ later) = beforeCapture flusher moves := by
  obtain ⟨move, member, thread, source⟩ := captured
  exact beforeFirst_append ⟨move, member, by simp [thread, source]⟩ later

theorem bystander (one : OneFlush pf base flusher unflushed count moves calls) {i : ι} (other : i ≠ flusher)
    {target : Phase} (unswapped : calls.phase i ≠ .swap)
    (next : Moves pf device calls.state (calls.phase i) target world') :
    OneFlush pf base flusher unflushed count (moves ++ [⟨i, calls.phase i, target⟩]) (calls.after i target world') := by
  have idle := one.bystanders i other
  have agree := next.bystander idle unswapped
  have same := calls.after_phase_of_ne other.symm target world'
  refine ⟨?_, fun j apart => ?_, fun isSwap => ?_, fun left => ?_, ?_, fun checkpoint saved => ?_⟩
  · rw [same]
    rcases one.captured with isSwap | ⟨toFlush, isCapture, -⟩ | ⟨returned, idle⟩ | ⟨captured, -⟩
    · rw [isSwap]
      have stage := one.stage
      rw [isSwap] at stage
      cases stage with
      | swap first => exact .swap (first.trans agree)
    · have stage := one.stage.agree agree
      rw [one.beforeSwap_append (by simp [isCapture]), isCapture]
      rw [isCapture] at stage
      exact stage.recapture _
    · rw [returned]
      exact .idle (idle.trans agree)
    · have left : calls.phase flusher ≠ .swap := by
        intro isSwap
        obtain ⟨move, member, thread, -⟩ := captured
        exact one.early isSwap move member thread
      rw [one.beforeSwap_append left, beforeCapture_append captured]
      exact one.stage.agree agree
  · by_cases isMover : j = i
    · rw [isMover, Pool.after_phase_self]
      exact next.target_idle idle unswapped
    · rw [calls.after_phase_of_ne isMover]
      exact one.bystanders j apart
  · rw [same] at isSwap
    exact List.forall_mem_append.mpr ⟨one.early isSwap, by simpa using other⟩
  · rw [same] at left
    obtain ⟨move, member, hit⟩ := one.swapped left
    exact ⟨move, List.mem_append_left _ member, hit⟩
  · rw [same]
    rcases one.captured with isSwap | ⟨toFlush, isCapture, none⟩ | ⟨returned, idle⟩ | ⟨captured, passed⟩
    · exact .inl isSwap
    · exact .inr (.inl ⟨toFlush, isCapture, List.forall_mem_append.mpr ⟨none, by simp [other]⟩⟩)
    · exact .inr (.inr (.inl ⟨returned, idle.trans agree⟩))
    · exact .inr (.inr (.inr ⟨captured.append _, passed⟩))
  · obtain ⟨move, member, hit⟩ := saved
    have old : move ∈ moves := by
      rcases List.mem_append.mp member with old | last
      · exact old
      · rw [List.mem_singleton.mp last] at hit
        exact absurd hit.1 other
    obtain ⟨phase, captured, done, isCheckpoint⟩ := one.saved checkpoint ⟨move, old, hit⟩
    rw [same, Pool.after_state, one.beforeSwap_append (by rcases phase with phase | phase <;> simp [phase]),
      beforeCapture_append captured, agree.files]
    exact ⟨phase, captured.append _, done.agree agree, isCheckpoint⟩

theorem beforeSwap_swap (one : OneFlush pf base flusher unflushed count moves calls)
    (isSwap : calls.phase flusher = .swap) (target : Phase) :
    beforeSwap flusher (moves ++ [⟨flusher, .swap, target⟩]) = moves := by
  refine beforeFirst_hit (fun move member => ?_) (by simp [Phase.isSwap])
  simp [one.early isSwap move member]

theorem beforeCapture_capture {toFlush : MemTable}
    (none : ∀ move ∈ moves, move.thread = flusher → move.source = .swap) (target : Phase) :
    beforeCapture flusher (moves ++ [⟨flusher, .capture toFlush, target⟩]) = moves := by
  refine beforeFirst_hit (fun move member => ?_) (by simp [Phase.isCapture])
  by_cases thread : move.thread = flusher
  · simp [none move member thread, Phase.isCapture]
  · simp [thread]

theorem swap (one : OneFlush pf base flusher unflushed count moves calls) (isSwap : calls.phase flusher = .swap)
    {target : Phase}
    (live : calls.state.engine.activeMemtable.entries = replay BlockEntry.key (effects (active unflushed moves)) [])
    (next : Moves pf device calls.state .swap target world') :
    OneFlush pf base flusher unflushed count (moves ++ [⟨flusher, .swap, target⟩])
      (calls.after flusher target world') := by
  have agree : Agree base calls.state := by
    have stage := one.stage
    rw [isSwap] at stage
    cases stage with
    | swap agree => exact agree
  refine ⟨?_, fun j apart => ?_, fun isSwap' => ?_, fun _ => ?_, ?_, fun checkpoint saved => ?_⟩
  · rw [one.beforeSwap_swap isSwap, Pool.after_phase_self]
    exact .swapped agree live next
  · rw [calls.after_phase_of_ne apart]
    exact one.bystanders j apart
  · rw [Pool.after_phase_self] at isSwap'
    rw [isSwap'] at next
    cases next
  · exact ⟨_, List.mem_append_right _ (List.mem_singleton_self _), rfl, rfl⟩
  · rw [Pool.after_phase_self]
    cases next with
    | swapEmpty => exact .inr (.inr (.inl ⟨rfl, agree⟩))
    | swap =>
      refine .inr (.inl ⟨_, rfl, List.forall_mem_append.mpr ⟨fun move member thread => ?_, by simp⟩⟩)
      exact absurd thread (one.early isSwap move member)
  · obtain ⟨move, member, thread, source⟩ := saved
    rcases List.mem_append.mp member with old | last
    · exact absurd thread (one.early isSwap move old)
    · rw [List.mem_singleton.mp last] at source
      cases source

theorem capture (one : OneFlush pf base flusher unflushed count moves calls) {toFlush : MemTable}
    (isCapture : calls.phase flusher = .capture toFlush)
    (none : ∀ move ∈ moves, move.thread = flusher → move.source = .swap) {target : Phase}
    (logged : calls.state.engine.wal.currentSequenceNumber = count + (appended moves).length)
    (next : Moves pf device calls.state (.capture toFlush) target world') :
    OneFlush pf base flusher unflushed count (moves ++ [⟨flusher, .capture toFlush, target⟩])
      (calls.after flusher target world') := by
  have left : calls.phase flusher ≠ .swap := by simp [isCapture]
  have captured : Captured flusher (moves ++ [⟨flusher, .capture toFlush, target⟩]) :=
    ⟨_, List.mem_append_right _ (List.mem_singleton_self _), rfl, rfl⟩
  have stage := one.stage
  rw [isCapture] at stage
  have stage := (stage.recapture _).next (by simp) (fun _ _ => logged) next
  cases next
  refine ⟨?_, fun j apart => ?_, fun isSwap => ?_, fun _ => ?_, ?_, fun checkpoint saved => ?_⟩
  · rw [one.beforeSwap_append left, beforeCapture_capture none, Pool.after_phase_self]
    exact stage
  · rw [calls.after_phase_of_ne apart]
    exact one.bystanders j apart
  · simp at isSwap
  · obtain ⟨move, member, hit⟩ := one.swapped left
    exact ⟨move, List.mem_append_left _ member, hit⟩
  · rw [Pool.after_phase_self]
    exact .inr (.inr (.inr ⟨captured, rfl⟩))
  · obtain ⟨move, member, thread, source⟩ := saved
    rcases List.mem_append.mp member with old | last
    · rw [none move old thread] at source
      cases source
    · rw [List.mem_singleton.mp last] at source
      cases source

theorem next (one : OneFlush pf base flusher unflushed count moves calls) (captured : Captured flusher moves)
    (passed : (calls.phase flusher).isCapture = false) {target : Phase}
    (next : Moves pf device calls.state (calls.phase flusher) target world') :
    OneFlush pf base flusher unflushed count (moves ++ [⟨flusher, calls.phase flusher, target⟩])
      (calls.after flusher target world') := by
  have left : calls.phase flusher ≠ .swap := by
    intro isSwap
    obtain ⟨move, member, thread, -⟩ := captured
    exact one.early isSwap move member thread
  have stage := one.stage.next left (fun toFlush isCapture => by simp [isCapture, Phase.isCapture] at passed) next
  have onward : target ≠ .swap ∧ target.isCapture = false := by
    have before := one.stage
    generalize calls.phase flusher = phase at next before left passed
    cases before <;> cases next <;> simp_all [Phase.isCapture]
  refine ⟨?_, fun j apart => ?_, fun isSwap => ?_, fun _ => ?_, ?_, fun checkpoint saved => ?_⟩
  · rw [one.beforeSwap_append left, beforeCapture_append captured, Pool.after_phase_self]
    exact stage
  · rw [calls.after_phase_of_ne apart]
    exact one.bystanders j apart
  · rw [Pool.after_phase_self] at isSwap
    exact absurd isSwap onward.1
  · obtain ⟨move, member, hit⟩ := one.swapped left
    exact ⟨move, List.mem_append_left _ member, hit⟩
  · rw [Pool.after_phase_self]
    exact .inr (.inr (.inr ⟨captured.append _, onward.2⟩))
  · obtain ⟨move, member, thread, source⟩ := saved
    rw [one.beforeSwap_append left, beforeCapture_append captured, Pool.after_phase_self, Pool.after_state]
    rcases List.mem_append.mp member with old | last
    · obtain ⟨phase, -, done, isCheckpoint⟩ := one.saved checkpoint ⟨move, old, thread, source⟩
      rcases phase with phase | phase
      · rw [phase] at next
        cases next
        exact ⟨.inr rfl, captured.append _, done.agree ⟨rfl, rfl, rfl, rfl⟩, isCheckpoint⟩
      · rw [phase] at next
        cases next
    · rw [List.mem_singleton.mp last] at source
      have before := one.stage
      dsimp only at source
      rw [source] at next before
      cases next
      cases stage with
      | finish done =>
        cases before
        exact ⟨.inl rfl, captured.append _, done, rfl⟩

theorem of_run {start : Calls ι} {all : List Mutation} (isSwap : start.phase flusher = .swap)
    (others : ∀ i ≠ flusher, (start.phase i).flushes = false)
    (live : start.state.engine.activeMemtable.entries = replay BlockEntry.key (effects unflushed) [])
    (holds : start.state.engine.wal.Holds (start.state.disk.log.getD []) all)
    (run : Interleaved pf .faultless start moves calls)
    (alone : ∀ move ∈ moves, move.source = .swap → move.thread = flusher) :
    OneFlush pf start.state flusher unflushed all.length moves calls := by
  refine run.induct (P := fun moves calls => (∀ move ∈ moves, move.source = .swap → move.thread = flusher) →
    OneFlush pf start.state flusher unflushed all.length moves calls) (fun _ => .start isSwap others) ?_ alone
  intro moves calls i target world' run before next alone
  obtain ⟨alone, last⟩ := List.forall_mem_append.mp alone
  have one := before alone
  by_cases own : i = flusher
  · subst own
    rcases one.captured with isSwap | ⟨toFlush, isCapture, none⟩ | ⟨returned, -⟩ | ⟨captured, passed⟩
    · rw [isSwap] at next ⊢
      exact one.swap isSwap (run.active_entries live) next
    · have logged := (run.holds holds).currentSequenceNumber_eq
      rw [List.length_append] at logged
      rw [isCapture] at next ⊢
      exact one.capture isCapture none logged next
    · rw [returned] at next
      cases next
    · exact one.next captured passed next
  · refine one.bystander own (fun isSwap => own ?_) next
    exact last _ (List.mem_singleton_self _) isSwap

end OneFlush

end OneFlush

end StorageEngine

end VectorDb.Storage
