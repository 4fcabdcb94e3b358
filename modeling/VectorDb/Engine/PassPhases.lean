import VectorDb.Compaction.ConcurrentFlushes
import VectorDb.Engine.Phases

namespace VectorDb.Storage
open Lib Common CompactionManager

namespace CompactionManager

/-- `RunCompaction` after the selection of the files. -/
def compactFiles (pf : Platform) (io : Faults) (sourceLevel : Int) (sources targets : List SSTableMeta) :
    Action Status Store CompactionStats := do
  let inputs := numberInputs sources targets
  let (newFiles, stats) ← mergeFiles pf io inputs (sourceLevel + 1)
    ⟨sourceLevel, sourceLevel + 1, inputs.length, 0, 0, 0, 0, 0, 0⟩
  forM newFiles registerFile
  modify fun store => (inputs.map SSTableMeta.filepath).foldl dropFile store
  return stats

def compactLevel (pf : Platform) (io : Faults) (sourceLevel : Int) : Action Status Store CompactionStats := do
  let (sources, targets) := (← get).manager.selectCompactionFiles pf sourceLevel
  if sources = [] then throw ⟨.kNotFound, text "No source files selected for compaction"⟩
  compactFiles pf io sourceLevel sources targets

theorem runCompaction_level {pf : Platform} {io : Faults} {store : Store}
    (needed : store.manager.pickCompactionLevel ≠ -1) :
    runCompaction pf io store = compactLevel pf io store.manager.pickCompactionLevel store := by
  rw [runCompaction, Action.bind_of_ok (Action.get_eq store), if_neg needed]
  rfl

theorem runCompaction_unneeded {pf : Platform} {io : Faults} {store : Store}
    (unneeded : store.manager.pickCompactionLevel = -1) : (runCompaction pf io).final store = store := by
  rw [runCompaction, Action.final_bind_of_ok (Action.get_eq store), if_pos unneeded]
  rfl

namespace CataloguePhase

def rank : CataloguePhase → Nat × Nat
  | countLevel0 => (7, 0)
  | sizeLevels waiting => (6, waiting.length)
  | selectSources _ => (5, 0)
  | selectTargets _ _ => (4, 0)
  | merge _ _ _ => (3, 0)
  | register _ waiting => (2, waiting.length)
  | remove _ waiting => (1, 2 * waiting.length)
  | unlink _ _ waiting => (1, 2 * waiting.length + 1)
  | compacted _ => (0, 0)
  | write _ _ => (2, 0)
  | add _ => (1, 0)
  | flushed => (0, 0)

theorem Leads.rank {pf : Platform} {io : Faults} {phase target : CataloguePhase} {store store' : Store}
    (leads : Leads pf io store phase target store') : Prod.Lex (· < ·) (· < ·) target.rank phase.rank := by
  rw [Prod.lex_def]
  cases leads <;> simp [CataloguePhase.rank]
  omega

end CataloguePhase

end CompactionManager

namespace StorageEngine

/-- Where the body of `CompactionLoop` stands between its locked steps. -/
inductive PassPhase where
  | check
  | compact (phase : CataloguePhase)
  | capture
  | catalogue (lastFlushedLsn : Nat)
  | save (checkpoint : Checkpoint)

namespace PassPhase

def rank : PassPhase → Nat × Nat
  | check => (11, 0)
  | compact phase => (phase.rank.1 + 3, phase.rank.2)
  | capture => (2, 0)
  | catalogue _ => (1, 0)
  | save _ => (0, 0)

section Steps
variable (pf : Platform) (io : Faults)

def step (world : World) : PassPhase → Option PassPhase × World
  | check =>
    (if world.engine.compactionManager.needsCompaction = true then some (compact .countLevel0) else none, world)
  | compact phase =>
    match phase.step pf io with
    | none => (some capture, world)
    | some x =>
      -- An error of `RunCompaction` is logged, and the checkpoint is saved all the same.
      match onStore x world with
      | .ok target world => (some (compact target), world)
      | .error _ world => (some capture, world)
  | capture => (some (catalogue world.engine.wal.currentSequenceNumber), world)
  | catalogue lastFlushedLsn => (some (save ⟨lastFlushedLsn, world.engine.compactionManager.files⟩), world)
  | save checkpoint => (none, (saveCheckpoint io checkpoint).run.final world)

end Steps

variable {pf : Platform} {io : Faults} {world : World}

theorem step_compact_ok {phase target : CataloguePhase} {x : Action Status Store CataloguePhase} {store : Store}
    (steps : phase.step pf io = some x) (ran : x world.store = .ok target store) :
    (compact phase).step pf io world = (some (compact target), world.withStore store) := by
  simp only [step, steps, onStore, Action.zoom, ran]

theorem step_compact_error {phase : CataloguePhase} {x : Action Status Store CataloguePhase} {store : Store}
    {status : Status} (steps : phase.step pf io = some x) (ran : x world.store = .error status store) :
    (compact phase).step pf io world = (some capture, world.withStore store) := by
  simp only [step, steps, onStore, Action.zoom, ran]

theorem step_compact_none {phase : CataloguePhase} (steps : phase.step pf io = none) :
    (compact phase).step pf io world = (some capture, world) := by
  simp only [step, steps]

theorem step_rank {phase target : PassPhase} (next : (phase.step pf io world).1 = some target) :
    Prod.Lex (· < ·) (· < ·) target.rank phase.rank := by
  cases phase with
  | check =>
    rw [step] at next
    split_ifs at next
    cases next
    simp [Prod.lex_def, rank, CataloguePhase.rank]
  | compact phase =>
    cases steps : phase.step pf io with
    | none =>
      rw [step_compact_none steps] at next
      cases next
      simp [Prod.lex_def, rank]
    | some x =>
      cases ran : x world.store with
      | ok target store =>
        rw [step_compact_ok steps ran] at next
        cases next
        have lower := (CataloguePhase.step_leads steps ran).rank
        rw [Prod.lex_def] at lower ⊢
        simpa [rank] using lower
      | error status store =>
        rw [step_compact_error steps ran] at next
        cases next
        simp [Prod.lex_def, rank]
  | capture | catalogue =>
    cases next
    simp [Prod.lex_def, rank]
  | save => cases next

variable (pf io) in
def rest (world : World) (phase : PassPhase) : World :=
  match _next : phase.step pf io world with
  | (none, world') => world'
  | (some target, world') => rest world' target
termination_by phase.rank
decreasing_by exact step_rank (congrArg Prod.fst _next)

theorem rest_of_none {phase : PassPhase} {world' : World} (next : phase.step pf io world = (none, world')) :
    rest pf io world phase = world' := by
  rw [rest]
  split
  next other => exact (congrArg Prod.snd (other.symm.trans next))
  next other => cases other.symm.trans next

theorem rest_of_some {phase target : PassPhase} {world' : World}
    (next : phase.step pf io world = (some target, world')) :
    rest pf io world phase = rest pf io world' target := by
  rw [rest]
  split
  next other => cases other.symm.trans next
  next other =>
    cases other.symm.trans next
    rfl

theorem rest_induct {P : World → Prop} (kept : ∀ world phase, P world → P (step pf io world phase).2) (phase : PassPhase)
    (start : P world) : P (rest pf io world phase) := by
  induction world, phase using rest.induct pf io with
  | case1 world phase world' next =>
    rw [rest_of_none next]
    simpa [next] using kept world phase start
  | case2 world phase target world' next ih =>
    rw [rest_of_some next]
    exact ih (by simpa [next] using kept world phase start)

theorem rest_capture : rest pf io world capture =
    (saveCheckpoint io ⟨world.engine.wal.currentSequenceNumber, world.engine.compactionManager.files⟩).run.final world := by
  rw [rest_of_some rfl, rest_of_some rfl, rest_of_none rfl]

def Rests (pf : Platform) (io : Faults) (phase : CataloguePhase) (store final : Store) : Prop :=
  ∀ world : World, world.store = store →
    rest pf io world (compact phase) = rest pf io (world.withStore final) capture

namespace Rests
variable {phase target : CataloguePhase} {x : Action Status Store CataloguePhase} {store between final : Store}

theorem ended (steps : phase.step pf io = none) : Rests pf io phase store store := by
  rintro world rfl
  rw [rest_of_some (step_compact_none steps), World.withStore_store]

theorem error {status : Status} (steps : phase.step pf io = some x) (ran : x store = .error status final) :
    Rests pf io phase store final := by
  rintro world rfl
  rw [rest_of_some (step_compact_error steps ran)]

theorem ok (steps : phase.step pf io = some x) (ran : x store = .ok target between)
    (rests : Rests pf io target between final) : Rests pf io phase store final := by
  rintro world rfl
  rw [rest_of_some (step_compact_ok steps ran), rests _ (World.store_withStore _ _), World.withStore_withStore]

theorem remove (job : Job) (waiting : List Path) (store : Store) :
    Rests pf io (.remove job waiting) store (waiting.foldl dropFile store) := by
  induction waiting generalizing store with
  | nil => exact .ok rfl rfl (.ended rfl)
  | cons path waiting ih => exact .ok rfl rfl (.ok rfl rfl (ih _))

theorem register (job : Job) (waiting : List SSTableMeta) (store : Store) :
    Rests pf io (.register job waiting) store
      (Action.final (do forM waiting registerFile; modify fun store => job.inputs.foldl dropFile store) store) := by
  induction waiting generalizing store with
  | nil => exact .ok rfl rfl (.remove job job.inputs store)
  | cons file waiting ih =>
    rw [List.forM_cons, bind_assoc]
    cases ran : registerFile file store with
    | ok _ between =>
      rw [Action.final_bind_of_ok ran]
      exact .ok rfl (Action.bind_of_ok ran _) (ih between)
    | error status failed =>
      rw [Action.final_bind_of_error ran]
      exact .error rfl (Action.bind_of_error ran _)

theorem merge (level : Int) (sources targets : List SSTableMeta) (store : Store) :
    Rests pf io (.merge level sources targets) store ((compactFiles pf io level sources targets).final store) := by
  cases ran : mergeFiles pf io (numberInputs sources targets) (level + 1)
      ⟨level, level + 1, (numberInputs sources targets).length, 0, 0, 0, 0, 0, 0⟩ store with
  | ok result merged =>
    rw [compactFiles, Action.final_bind_of_ok ran]
    dsimp only
    rw [← bind_assoc, Action.final_bind_pure]
    exact .ok rfl (Action.bind_of_ok ran _) (.register ⟨level, sources, targets, result.1⟩ result.1 merged)
  | error status failed =>
    rw [compactFiles, Action.final_bind_of_error ran]
    exact .error rfl (Action.bind_of_error ran _)

theorem select (level : Int) (store : Store) :
    Rests pf io (.selectSources level) store ((compactLevel pf io level).final store) := by
  obtain ⟨sources, isSources⟩ : ∃ sources, store.manager.selectSources pf level = sources := ⟨_, rfl⟩
  obtain ⟨targets, isTargets⟩ : ∃ targets, store.manager.selectTargets pf level sources = targets := ⟨_, rfl⟩
  have selected : store.manager.selectCompactionFiles pf level = (sources, targets) := by
    rw [selectCompactionFiles_eq, isSources, isTargets]
  rw [compactLevel, Action.final_bind_of_ok (Action.get_eq store)]
  simp only [selected]
  by_cases none : sources = []
  · have refused : (CataloguePhase.step pf io (.selectSources level)).map (fun x => x store) =
        some (.error ⟨.kNotFound, text "No source files selected for compaction"⟩ store) := by
      simp only [CataloguePhase.step, Option.map_some, Action.bind_of_ok (Action.get_eq store), isSources, if_pos none]
      rfl
    obtain ⟨x, steps, ran⟩ := Option.map_eq_some_iff.mp refused
    rw [if_pos none]
    exact .error steps ran
  · have sourced : (CataloguePhase.step pf io (.selectSources level)).map (fun x => x store) =
        some (.ok (.selectTargets level sources) store) := by
      simp only [CataloguePhase.step, Option.map_some, Action.bind_of_ok (Action.get_eq store), isSources, if_neg none]
      rfl
    have targeted : (CataloguePhase.step pf io (.selectTargets level sources)).map (fun x => x store) =
        some (.ok (.merge level sources targets) store) := by
      rw [← isTargets]
      rfl
    obtain ⟨x, steps, ran⟩ := Option.map_eq_some_iff.mp sourced
    obtain ⟨y, steps', ran'⟩ := Option.map_eq_some_iff.mp targeted
    rw [if_neg none]
    exact .ok steps ran (.ok steps' ran' (.merge level sources targets store))

theorem sizes (waiting : List Int) (store : Store) :
    Rests pf io (.sizeLevels waiting) store
      (((waiting.find? fun level => store.manager.totalBytesAtLevel level > leveled.maxBytesForLevel level).map
        fun level => (compactLevel pf io level).final store).getD store) := by
  induction waiting with
  | nil => exact .error rfl rfl
  | cons level waiting ih =>
    by_cases large : store.manager.totalBytesAtLevel level > leveled.maxBytesForLevel level
    · rw [List.find?_cons_of_pos (by simpa using large)]
      refine .ok rfl ?_ (.select level store)
      rw [Action.bind_of_ok (Action.get_eq store)]
      rw [if_pos large]
      rfl
    · rw [List.find?_cons_of_neg (by simpa using large)]
      refine .ok rfl ?_ ih
      rw [Action.bind_of_ok (Action.get_eq store)]
      rw [if_neg large]
      rfl

variable (pf io) in
theorem counted (few : ¬ store.manager.level0FileCount ≥ leveled.kLevel0CompactionTrigger) :
    Rests pf io .countLevel0 store
      (((store.manager.sizedLevels.find? fun level =>
        store.manager.totalBytesAtLevel level > leveled.maxBytesForLevel level).map
        fun level => (compactLevel pf io level).final store).getD store) := by
  refine .ok rfl ?_ (.sizes store.manager.sizedLevels store)
  rw [Action.bind_of_ok (Action.get_eq store), if_neg few]
  rfl

theorem run (store : Store) : Rests pf io .countLevel0 store ((runCompaction pf io).final store) := by
  by_cases full : store.manager.level0FileCount ≥ leveled.kLevel0CompactionTrigger
  · have picked : store.manager.pickCompactionLevel = 0 := if_pos full
    have final : (runCompaction pf io).final store = (compactLevel pf io 0).final store := by
      rw [Action.final, runCompaction_level (by rw [picked]; decide), picked, ← Action.final]
    rw [final]
    refine .ok rfl ?_ (.select 0 store)
    rw [Action.bind_of_ok (Action.get_eq store)]
    rw [if_pos full]
    rfl
  · have small := counted pf io full
    have picked : store.manager.pickCompactionLevel = _ := if_neg full
    cases found : store.manager.sizedLevels.find? fun level =>
        store.manager.totalBytesAtLevel level > leveled.maxBytesForLevel level with
    | none =>
      rw [found] at small picked
      rwa [runCompaction_unneeded picked]
    | some level =>
      rw [found] at small picked
      have positive := sizedLevels_pos (List.mem_of_find?_eq_some found)
      have picked : store.manager.pickCompactionLevel = level := picked
      have final : (runCompaction pf io).final store = (compactLevel pf io level).final store := by
        rw [Action.final, runCompaction_level (by omega), picked, ← Action.final]
      rwa [final]

end Rests

theorem rest_check : rest pf io world check = (compactionPass pf io).run.final world := by
  rw [compactionPass, Program.run_bind, Program.run_atomic, Action.final_bind_of_ok (Action.get_eq world)]
  by_cases needed : world.engine.compactionManager.needsCompaction = true
  · have begins : check.step pf io world = (some (compact .countLevel0), world) := by rw [step, if_pos needed]
    obtain ⟨result, attempted⟩ := Action.attempt_run
      ((compactionSteps pf io).zoom World.store World.withStore).run world
    rw [Program.run_zoom World.store_withStore World.withStore_withStore World.withStore_store, compactionSteps_run,
      Action.final_zoom] at attempted
    rw [if_pos needed, rest_of_some begins, Rests.run world.store world rfl, rest_capture, Program.run_bind,
      Program.run_attempt, Program.run_zoom World.store_withStore World.withStore_withStore World.withStore_store,
      compactionSteps_run, Action.final_bind_of_ok attempted]
    simp only [Program.run_bind, Program.run_atomic, Program.run_attempt, Program.run_pure]
    rw [Action.final_bind_of_ok (captureLsn_run _), Action.final_bind_of_ok (Action.get_eq _), Action.final_bind_pure,
      Action.final_attempt]
  · have ends : check.step pf io world = (none, world) := by rw [step, if_neg needed]
    rw [if_neg needed, rest_of_none ends]
    rfl

end PassPhase

end StorageEngine

end VectorDb.Storage
