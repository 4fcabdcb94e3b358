import VectorDb.Lib.Interleaving
import Mathlib.Data.List.FinRange

namespace VectorDb.Common
open Lib
open scoped List

/-- The members of the pool that its threads share. A task is named by the call of `Enqueue` that made
it. `exited` has the workers whose thread function has returned, which is what `join` waits for. -/
structure ThreadPool (numThreads : Nat) where
  tasks : List Nat
  stop : Bool
  exited : List (Fin numThreads)

namespace ThreadPool

inductive Thread (numThreads : Nat) where
  | enqueue (call : Nat)
  | worker (worker : Fin numThreads)
  | destructor
deriving DecidableEq

inductive Phase (numThreads : Nat) where
  | enqueue (task : Nat)
  | enqueued (task : Nat)
  | refused (task : Nat) (error : String)
  | waiting (worker : Fin numThreads)
  | running (worker : Fin numThreads) (task : Nat)
  | returned (worker : Fin numThreads)
  | destroy
  | joining (next : Nat)
  | destroyed
deriving DecidableEq

variable {numThreads : Nat}

def enqueue (task : Nat) : Action Unit (ThreadPool numThreads) (Phase numThreads) := do
  let pool ← get
  if pool.stop = true then
    -- the call throws
    return .refused task "Enqueue on stopped ThreadPool"
  else
    set { pool with tasks := pool.tasks ++ [task] }
    return .enqueued task

/-- The worker's loop under the lock. It is blocked while the predicate of `condition_.wait` is false. -/
def nextTask (worker : Fin numThreads) : Action Unit (ThreadPool numThreads) (Phase numThreads) := do
  let pool ← get
  if pool.stop = true ∨ pool.tasks ≠ [] then
    if pool.stop = true ∧ pool.tasks = [] then
      set { pool with exited := worker :: pool.exited }
      return .returned worker
    else
      match pool.tasks with
      | [] => throw ()
      | task :: tasks =>
        set { pool with tasks := tasks }
        return .running worker task
  else throw ()

def join (next : Nat) : Action Unit (ThreadPool numThreads) (Phase numThreads) := do
  let pool ← get
  if bound : next < numThreads then
    if ⟨next, bound⟩ ∈ pool.exited then return .joining (next + 1) else throw ()
  else return .destroyed

def Phase.step : Phase numThreads → Option (Action Unit (ThreadPool numThreads) (Phase numThreads))
  | enqueue task => some (ThreadPool.enqueue task)
  | waiting worker => some (nextTask worker)
  -- the task runs outside the lock
  | running worker _ => some (return waiting worker)
  | destroy => some do
    modify ({ · with stop := true })
    return joining 0
  | joining next => some (join next)
  | enqueued _ => none
  | refused _ _ => none
  | returned _ => none
  | destroyed => none

def new (numThreads : Nat) : Pool (ThreadPool numThreads) (Phase numThreads) (Thread numThreads) where
  state := ⟨[], false, []⟩
  phase
    | .enqueue call => .enqueue call
    | .worker worker => .waiting worker
    | .destructor => .destroy

abbrev History (numThreads : Nat) := List (Move (Phase numThreads) (Thread numThreads))

namespace Phase

def pushed : Phase numThreads → Option Nat
  | enqueued task => some task
  | _ => none

def held : Phase numThreads → Option Nat
  | running _ task => some task
  | _ => none

theorem pushed_iff {phase : Phase numThreads} {task : Nat} : phase.pushed = some task ↔ phase = .enqueued task := by
  cases phase <;> simp [pushed]

end Phase

def pushed (moves : History numThreads) : List Nat := moves.filterMap fun move => move.target.pushed

def popped (moves : History numThreads) : List Nat := moves.filterMap fun move => move.target.held

def ran (moves : History numThreads) : List Nat := moves.filterMap fun move => move.source.held

inductive Steps : Phase numThreads → ThreadPool numThreads → Phase numThreads → ThreadPool numThreads → Prop
  | refuse {task : Nat} {pool : ThreadPool numThreads} : pool.stop = true →
      Steps (.enqueue task) pool (.refused task "Enqueue on stopped ThreadPool") pool
  | push {task : Nat} {pool : ThreadPool numThreads} :
      pool.stop = false → Steps (.enqueue task) pool (.enqueued task) { pool with tasks := pool.tasks ++ [task] }
  | exit {worker : Fin numThreads} {pool : ThreadPool numThreads} : pool.stop = true → pool.tasks = [] →
      Steps (.waiting worker) pool (.returned worker) { pool with exited := worker :: pool.exited }
  | pop {worker : Fin numThreads} {pool : ThreadPool numThreads} {task : Nat} {tasks : List Nat} :
      pool.tasks = task :: tasks → Steps (.waiting worker) pool (.running worker task) { pool with tasks := tasks }
  | run {worker : Fin numThreads} {pool : ThreadPool numThreads} {task : Nat} :
      Steps (.running worker task) pool (.waiting worker) pool
  | stop {pool : ThreadPool numThreads} : Steps .destroy pool (.joining 0) { pool with stop := true }
  | join {pool : ThreadPool numThreads} {worker : Fin numThreads} : worker ∈ pool.exited →
      Steps (.joining worker) pool (.joining (worker + 1)) pool
  | destroyed {pool : ThreadPool numThreads} {next : Nat} : numThreads ≤ next →
      Steps (.joining next) pool .destroyed pool

theorem steps_of_step {source target : Phase numThreads} {x : Action Unit (ThreadPool numThreads) (Phase numThreads)}
    {pool pool' : ThreadPool numThreads} (steps : source.step = some x) (ran : x pool = .ok target pool') :
    Steps source pool target pool' := by
  cases source with
  | enqueue task =>
    cases steps
    obtain ⟨tasks, stop, exited⟩ := pool
    cases stop with
    | true =>
      cases ran
      exact .refuse rfl
    | false =>
      cases ran
      exact .push rfl
  | waiting worker =>
    cases steps
    obtain ⟨tasks, stop, exited⟩ := pool
    cases tasks with
    | nil =>
      cases stop with
      | true =>
        cases ran
        exact .exit rfl rfl
      | false => cases ran
    | cons task tasks =>
      simp [nextTask, bind, EStateM.bind] at ran
      obtain ⟨rfl, rfl⟩ := ran
      exact .pop rfl
  | running worker task =>
    cases steps
    cases ran
    exact .run
  | destroy =>
    cases steps
    cases ran
    exact .stop
  | joining next =>
    cases steps
    by_cases bound : next < numThreads
    · by_cases exited : ⟨next, bound⟩ ∈ pool.exited
      · simp [join, bound, exited, bind, EStateM.bind] at ran
        obtain ⟨rfl, rfl⟩ := ran
        exact .join exited
      · simp [join, bound, exited, bind, EStateM.bind] at ran
    · simp [join, bound, bind, EStateM.bind] at ran
      obtain ⟨rfl, rfl⟩ := ran
      exact .destroyed (not_lt.mp bound)
  | enqueued task => cases steps
  | refused task error => cases steps
  | returned worker => cases steps
  | destroyed => cases steps

def Phase.thread : Phase numThreads → Thread numThreads
  | enqueue task => .enqueue task
  | enqueued task => .enqueue task
  | refused task _ => .enqueue task
  | waiting worker => .worker worker
  | running worker _ => .worker worker
  | returned worker => .worker worker
  | destroy => .destructor
  | joining _ => .destructor
  | destroyed => .destructor

def Phase.joined : Phase numThreads → Nat
  | joining next => next
  | destroyed => numThreads
  | _ => 0

theorem Steps.thread {source target : Phase numThreads} {pool pool' : ThreadPool numThreads}
    (step : Steps source pool target pool') : target.thread = source.thread := by
  cases step <;> rfl

variable {pool : Pool (ThreadPool numThreads) (Phase numThreads) (Thread numThreads)} {moves : History numThreads}
variable {i : Thread numThreads} {source target : Phase numThreads} {state : ThreadPool numThreads}

def inHand (pool : Pool (ThreadPool numThreads) (Phase numThreads) (Thread numThreads)) : List Nat :=
  (List.finRange numThreads).filterMap fun worker => (pool.phase (.worker worker)).held

theorem inHand_same (unchanged : target.held = (pool.phase i).held) : inHand (pool.after i target state) = inHand pool := by
  refine List.filterMap_congr fun worker _ => ?_
  by_cases same : Thread.worker worker = i
  · subst same
    rw [Pool.after_phase_self, unchanged]
  · rw [Pool.after_phase_of_ne _ same]

theorem inHand_perm {other : Pool (ThreadPool numThreads) (Phase numThreads) (Thread numThreads)} {worker : Fin numThreads}
    {task : Nat} (idle : (pool.phase (.worker worker)).held = none)
    (busy : (other.phase (.worker worker)).held = some task)
    (others : ∀ w, w ≠ worker → other.phase (.worker w) = pool.phase (.worker w)) :
    inHand other ~ task :: inHand pool := by
  have first := List.perm_cons_erase (List.mem_finRange worker)
  have rest : ((List.finRange numThreads).erase worker).filterMap (fun w => (other.phase (.worker w)).held) =
      ((List.finRange numThreads).erase worker).filterMap fun w => (pool.phase (.worker w)).held := by
    refine List.filterMap_congr fun w member => ?_
    rw [others w fun same => (List.nodup_finRange numThreads).not_mem_erase (same ▸ member)]
  have here := first.filterMap fun w => (pool.phase (.worker w)).held
  have there := first.filterMap fun w => (other.phase (.worker w)).held
  simp only [List.filterMap_cons, idle] at here
  simp only [List.filterMap_cons, busy, rest] at there
  exact there.trans (here.symm.cons task)

structure Sound (moves : History numThreads)
    (pool : Pool (ThreadPool numThreads) (Phase numThreads) (Thread numThreads)) : Prop where
  placed : ∀ i, (pool.phase i).thread = i
  fifo : popped moves ++ pool.state.tasks = pushed moves
  once : (pushed moves).Nodup
  accepted : ∀ call, call ∈ pushed moves ↔ pool.phase (.enqueue call) = .enqueued call
  conserved : popped moves ~ ran moves ++ inHand pool
  exited : ∀ worker, worker ∈ pool.state.exited ↔ pool.phase (.worker worker) = .returned worker
  drained : pool.state.exited ≠ [] → pool.state.stop = true ∧ pool.state.tasks = []
  joined : ∀ worker : Fin numThreads, worker < (pool.phase .destructor).joined → worker ∈ pool.state.exited

theorem sound_new : Sound [] (new numThreads) where
  placed i := by cases i <;> rfl
  fifo := rfl
  once := List.nodup_nil
  accepted call := by simp [pushed, new]
  conserved := by
    have idle : inHand (new numThreads) = [] := List.filterMap_eq_nil_iff.mpr fun _ _ => rfl
    rw [idle]
    exact .refl _
  exited worker := by simp [new]
  drained := by simp [new]
  joined worker := by simp [new, Phase.joined]

@[simp] theorem pushed_concat (move : Move (Phase numThreads) (Thread numThreads)) :
    pushed (moves ++ [move]) = pushed moves ++ move.target.pushed.toList := by
  cases target : move.target.pushed <;> simp [pushed, target]

@[simp] theorem popped_concat (move : Move (Phase numThreads) (Thread numThreads)) :
    popped (moves ++ [move]) = popped moves ++ move.target.held.toList := by
  cases target : move.target.held <;> simp [popped, target]

@[simp] theorem ran_concat (move : Move (Phase numThreads) (Thread numThreads)) :
    ran (moves ++ [move]) = ran moves ++ move.source.held.toList := by
  cases source : move.source.held <;> simp [ran, source]

namespace Steps
variable {before after : ThreadPool numThreads}

theorem not_final (step : Steps source before target after) :
    (∀ call, source ≠ .enqueued call) ∧ ∀ worker, source ≠ .returned worker := by
  cases step <;> simp

theorem fifo (step : Steps source before target after) :
    target.held.toList ++ after.tasks = before.tasks ++ target.pushed.toList := by
  cases step with
  | pop queue => simp [Phase.held, Phase.pushed, queue]
  | _ => simp [Phase.held, Phase.pushed]

theorem exited (step : Steps source before target after) (worker : Fin numThreads) :
    worker ∈ after.exited ↔ worker ∈ before.exited ∨ target = .returned worker := by
  cases step <;> simp [or_comm, eq_comm]

theorem drained (step : Steps source before target after)
    (drained : before.exited ≠ [] → before.stop = true ∧ before.tasks = []) (some : after.exited ≠ []) :
    after.stop = true ∧ after.tasks = [] := by
  cases step with
  | push running => simp [running] at drained; contradiction
  | exit stopped empty => exact ⟨stopped, empty⟩
  | pop queue => simp [queue] at drained; contradiction
  | stop => exact ⟨rfl, (drained some).2⟩
  | _ => exact drained some

theorem joined (step : Steps source before target after)
    (joined : ∀ worker : Fin numThreads, worker < source.joined → worker ∈ before.exited) (worker : Fin numThreads)
    (below : worker < target.joined) : worker ∈ after.exited := by
  cases step with
  | join exited =>
    obtain less | same := Nat.lt_succ_iff_lt_or_eq.mp below
    · exact joined worker less
    · exact Fin.ext same ▸ exited
  | destroyed all => exact joined worker (worker.isLt.trans_le all)
  | _ => simp [Phase.joined] at below

end Steps

theorem final_iff (placed : ∀ i, (pool.phase i).thread = i) (step : Steps (pool.phase i) pool.state target state)
    {final : Phase numThreads} (stays : pool.phase i ≠ final) :
    (pool.after i target state).phase final.thread = final ↔ pool.phase final.thread = final ∨ target = final := by
  by_cases same : final.thread = i
  · rw [same, Pool.after_phase_self]
    exact (or_iff_right stays).symm
  · rw [Pool.after_phase_of_ne _ same, or_iff_left]
    rintro rfl
    exact same (step.thread.trans (placed i))

namespace Sound

theorem fifo_step (sound : Sound moves pool) (step : Steps (pool.phase i) pool.state target state) :
    popped (moves ++ [⟨i, pool.phase i, target⟩]) ++ state.tasks = pushed (moves ++ [⟨i, pool.phase i, target⟩]) := by
  rw [popped_concat, pushed_concat, List.append_assoc, step.fifo, ← List.append_assoc, sound.fifo]

theorem accepted_step (sound : Sound moves pool) (step : Steps (pool.phase i) pool.state target state) (call : Nat) :
    call ∈ pushed (moves ++ [⟨i, pool.phase i, target⟩]) ↔
      (pool.after i target state).phase (.enqueue call) = .enqueued call := by
  rw [pushed_concat, List.mem_append, Option.mem_toList, Phase.pushed_iff, sound.accepted]
  exact (final_iff sound.placed step (step.not_final.1 call)).symm

theorem once_step (sound : Sound moves pool) (step : Steps (pool.phase i) pool.state target state) :
    (pushed (moves ++ [⟨i, pool.phase i, target⟩])).Nodup := by
  rw [pushed_concat]
  cases pushes : target.pushed with
  | none => simpa using sound.once
  | some call =>
    have fresh : call ∉ pushed moves := by
      rw [sound.accepted]
      -- the call that pushes has not pushed before
      have place : Thread.enqueue call = i := by
        rw [← sound.placed i, ← step.thread, Phase.pushed_iff.mp pushes]
        rfl
      rw [place]
      exact step.not_final.1 call
    exact sound.once.append (List.nodup_singleton call) (by simpa using fresh)

theorem conserved_step (sound : Sound moves pool) (step : Steps (pool.phase i) pool.state target state) :
    popped (moves ++ [⟨i, pool.phase i, target⟩]) ~
      ran (moves ++ [⟨i, pool.phase i, target⟩]) ++ inHand (pool.after i target state) := by
  rw [popped_concat, ran_concat]
  generalize stands : pool.phase i = source at step
  have place := sound.placed i
  rw [stands] at place
  -- only a pop and the end of a run change what the workers hold
  have same : target.held = source.held → inHand (pool.after i target state) = inHand pool :=
    fun unchanged => inHand_same (unchanged.trans (congrArg Phase.held stands.symm))
  cases step with
  | @pop worker _ task tasks queue =>
    obtain rfl : Thread.worker worker = i := place
    have more : inHand (pool.after (.worker worker) (.running worker task) { pool.state with tasks := tasks }) ~
        task :: inHand pool := by
      refine inHand_perm (by rw [stands]; rfl) (by rw [Pool.after_phase_self]; rfl) fun w other => ?_
      exact Pool.after_phase_of_ne _ (by simpa using other) _ _
    simp only [Phase.held, Option.toList_some, Option.toList_none, List.append_nil]
    calc popped moves ++ [task]
      _ ~ ran moves ++ inHand pool ++ [task] := sound.conserved.append_right [task]
      _ = ran moves ++ (inHand pool ++ [task]) := List.append_assoc _ _ _
      _ ~ ran moves ++ task :: inHand pool := (List.perm_append_singleton _ _).append_left _
      _ ~ _ := more.symm.append_left _
  | @run worker _ task =>
    obtain rfl : Thread.worker worker = i := place
    have fewer : inHand pool ~ task :: inHand (pool.after (.worker worker) (.waiting worker) pool.state) := by
      refine inHand_perm (by rw [Pool.after_phase_self]; rfl) (by rw [stands]; rfl) fun w other => ?_
      exact (Pool.after_phase_of_ne _ (by simpa using other) _ _).symm
    simpa [Phase.held] using sound.conserved.trans (fewer.append_left (ran moves))
  | _ => simpa [Phase.held, same rfl] using sound.conserved

theorem exited_step (sound : Sound moves pool) (step : Steps (pool.phase i) pool.state target state)
    (worker : Fin numThreads) :
    worker ∈ state.exited ↔ (pool.after i target state).phase (.worker worker) = .returned worker := by
  rw [step.exited, sound.exited]
  exact (final_iff sound.placed step (step.not_final.2 worker)).symm

theorem joined_step (sound : Sound moves pool) (step : Steps (pool.phase i) pool.state target state)
    (worker : Fin numThreads) (below : worker < ((pool.after i target state).phase .destructor).joined) :
    worker ∈ state.exited := by
  by_cases same : Thread.destructor = i
  · subst same
    rw [Pool.after_phase_self] at below
    exact step.joined sound.joined worker below
  · rw [Pool.after_phase_of_ne _ same] at below
    exact (step.exited worker).mpr (.inl (sound.joined worker below))

theorem step (sound : Sound moves pool) (step : Steps (pool.phase i) pool.state target state) :
    Sound (moves ++ [⟨i, pool.phase i, target⟩]) (pool.after i target state) where
  placed j := by
    by_cases same : j = i
    · subst same
      rw [Pool.after_phase_self, step.thread, sound.placed]
    · rw [Pool.after_phase_of_ne _ same, sound.placed]
  fifo := sound.fifo_step step
  once := sound.once_step step
  accepted := sound.accepted_step step
  conserved := sound.conserved_step step
  exited := sound.exited_step step
  drained := step.drained sound.drained
  joined := sound.joined_step step

theorem run (run : Pool.Run Phase.step (new numThreads) moves pool) : Sound moves pool := by
  refine run.induct sound_new ?_
  intro moves pool i x target state _ sound steps ran
  exact sound.step (steps_of_step steps ran)

theorem inHand_returned (returned : ∀ worker, pool.phase (.worker worker) = .returned worker) : inHand pool = [] := by
  refine List.filterMap_eq_nil_iff.mpr fun worker _ => ?_
  rw [returned]
  rfl

theorem drained_returned (sound : Sound moves pool) (worker : Fin numThreads)
    (returned : pool.phase (.worker worker) = .returned worker) : pool.state.tasks = [] :=
  (sound.drained (List.ne_nil_of_mem ((sound.exited worker).mpr returned))).2

theorem popped_nodup (sound : Sound moves pool) : (popped moves).Nodup :=
  (List.nodup_append.mp (sound.fifo ▸ sound.once)).1

theorem ran_nodup (sound : Sound moves pool) : (ran moves).Nodup :=
  (List.nodup_append.mp (sound.conserved.nodup sound.popped_nodup)).1

theorem ran_of_returned (sound : Sound moves pool) (empty : pool.state.tasks = [])
    (returned : ∀ worker, pool.phase (.worker worker) = .returned worker) {call : Nat}
    (accepted : pool.phase (.enqueue call) = .enqueued call) : call ∈ ran moves := by
  have isPushed := (sound.accepted call).mpr accepted
  rw [← sound.fifo, empty, List.append_nil] at isPushed
  have isRan := sound.conserved.mem_iff.mp isPushed
  rwa [inHand_returned returned, List.append_nil] at isRan

end Sound

theorem pushed_of_popped {early late : History numThreads} {move : Move (Phase numThreads) (Thread numThreads)} {task : Nat}
    (run : Pool.Run Phase.step (new numThreads) (early ++ move :: late) pool) (pops : move.target.held = some task) :
    task ∈ pushed early := by
  rw [List.append_cons] at run
  obtain ⟨middle, run, -⟩ := run.split
  have member : task ∈ pushed (early ++ [move]) := by
    rw [← (Sound.run run).fifo, popped_concat, pops]
    simp
  have notPush : move.target.pushed = none := by
    cases target : move.target <;> simp_all [Phase.held, Phase.pushed]
  simpa [notPush] using member

/-- Whatever the interleaving, no task is popped twice or before it was pushed. Once all the workers have returned, which the
destructor waits for, every task that was accepted has been run once. -/
theorem tasks_run_once (workers : 0 < numThreads) (run : Pool.Run Phase.step (new numThreads) moves pool) :
    (popped moves).Nodup ∧
    (∀ early move late task, moves = early ++ move :: late → move.target.held = some task → task ∈ pushed early) ∧
    (∀ task, (ran moves).count task ≤ 1) ∧
    ((∀ worker, pool.phase (.worker worker) = .returned worker) → pool.state.tasks = [] ∧
      ∀ call, pool.phase (.enqueue call) = .enqueued call → (ran moves).count call = 1) ∧
    (pool.phase .destructor = .destroyed → ∀ worker, pool.phase (.worker worker) = .returned worker) := by
  have sound := Sound.run run
  refine ⟨sound.popped_nodup, ?_, List.nodup_iff_count_le_one.mp sound.ran_nodup, fun returned => ?_, ?_⟩
  · rintro early move late task rfl pops
    exact pushed_of_popped run pops
  · have empty := sound.drained_returned ⟨0, workers⟩ (returned _)
    refine ⟨empty, fun call accepted => ?_⟩
    exact List.count_eq_one_of_mem sound.ran_nodup (sound.ran_of_returned empty returned accepted)
  · intro destroyed worker
    rw [← sound.exited]
    exact sound.joined worker (by rw [destroyed]; exact worker.isLt)

theorem tasks_run_once_shutdown : ∃ moves pool, Pool.Run Phase.step (new 2) moves pool ∧
    pool.phase .destructor = .destroyed ∧ pool.phase (.enqueue 9) = .refused 9 "Enqueue on stopped ThreadPool" ∧
    pool.state.tasks = [] ∧ (ran moves).count 7 = 1 ∧ (ran moves).count 8 = 1 := by
  have run := (Pool.Run.refl : Pool.Run Phase.step (new 2) [] _)
  have run := run.snoc (.enqueue 7) rfl rfl rfl
  have run := run.snoc (.worker 0) rfl rfl rfl
  have run := run.snoc (.enqueue 8) rfl rfl rfl
  have run := run.snoc .destructor rfl rfl rfl
  have run := run.snoc (.enqueue 9) rfl rfl rfl
  have run := run.snoc (.worker 1) rfl rfl rfl
  have run := run.snoc (.worker 0) rfl rfl rfl
  have run := run.snoc (.worker 0) rfl rfl rfl
  have run := run.snoc (.worker 1) rfl rfl rfl
  have run := run.snoc (.worker 1) rfl rfl rfl
  have run := run.snoc .destructor rfl rfl rfl
  have run := run.snoc .destructor rfl rfl rfl
  have run := run.snoc .destructor rfl rfl rfl
  obtain ⟨-, -, -, drained, joined⟩ := tasks_run_once (by decide) run
  obtain ⟨empty, once⟩ := drained (joined rfl)
  exact ⟨_, _, run, rfl, rfl, empty, once 7 rfl, once 8 rfl⟩

end ThreadPool

end VectorDb.Common
