import VectorDb.Common.ThreadPool
import VectorDb.Lib.Trace
import VectorDb.Lib.Wakeups

namespace VectorDb.Common
open Lib

namespace ThreadPool

/-- A worker is blocked while it is inside `condition_.wait` without the lock. -/
inductive WorkerPhase (numCalls : Nat) where
  | waiting
  | blocked
  | running (task : Fin numCalls)
  | returned
deriving DecidableEq

/-- `Enqueue` notifies after it has given the lock back. -/
inductive CallPhase where
  | enqueue
  | notify
  | enqueued
  | refused (error : String)
deriving DecidableEq

inductive DestructorPhase where
  | destroy
  | notify
  | joining (next : Nat)
  | destroyed
deriving DecidableEq

variable {numThreads numCalls : Nat}

def CallPhase.pending : CallPhase → Nat
  | notify => 1
  | _ => 0

namespace WorkerPhase

def idle : WorkerPhase numCalls → Nat
  | waiting => 1
  | _ => 0

def asleep : WorkerPhase numCalls → Nat
  | blocked => 1
  | _ => 0

theorem asleep_eq_zero (phase : WorkerPhase numCalls) : phase.asleep = 0 ↔ phase ≠ .blocked := by
  cases phase <;> simp [asleep]

end WorkerPhase

/-- The pool with its condition variable. `ready` has the calls whose future has its result. -/
structure Scheduler (numThreads numCalls : Nat) where
  tasks : List (Fin numCalls)
  stop : Bool
  worker : Fin numThreads → WorkerPhase numCalls
  call : Fin numCalls → CallPhase
  destructor : DestructorPhase
  ready : List (Fin numCalls)

/-- The steps, with what the condition variable chooses: which thread `notify_one` wakes, and a wake-up
without a notification. -/
inductive Label (numThreads numCalls : Nat) where
  | enqueue (call : Fin numCalls)
  | notifyOne (call : Fin numCalls) (woken : Option (Fin numThreads))
  | check (worker : Fin numThreads)
  | wake (worker : Fin numThreads)
  | finish (worker : Fin numThreads)
  | stop
  | notifyAll
  | join
deriving DecidableEq

namespace Scheduler

def setWorker (s : Scheduler numThreads numCalls) (worker : Fin numThreads) (phase : WorkerPhase numCalls) :
    Scheduler numThreads numCalls := { s with worker := Function.update s.worker worker phase }

def setCall (s : Scheduler numThreads numCalls) (call : Fin numCalls) (phase : CallPhase) :
    Scheduler numThreads numCalls := { s with call := Function.update s.call call phase }

def rouse (s : Scheduler numThreads numCalls) : Scheduler numThreads numCalls :=
  { s with worker := fun worker => if s.worker worker = .blocked then .waiting else s.worker worker }

def new (numThreads numCalls : Nat) : Scheduler numThreads numCalls :=
  ⟨[], false, fun _ => .waiting, fun _ => .enqueue, .destroy, []⟩

def check (worker : Fin numThreads) (s : Scheduler numThreads numCalls) : Scheduler numThreads numCalls :=
  -- the predicate of the wait, under the lock
  if s.stop = true ∨ s.tasks ≠ [] then
    if s.stop = true ∧ s.tasks = [] then s.setWorker worker .returned
    else
      match s.tasks with
      | [] => s
      | task :: tasks => { s with tasks }.setWorker worker (.running task)
  else s.setWorker worker .blocked

def step : Label numThreads numCalls → Scheduler numThreads numCalls → Option (Scheduler numThreads numCalls)
  | .enqueue call, s =>
    if s.call call = .enqueue then
      if s.stop = true then some (s.setCall call (.refused "Enqueue on stopped ThreadPool"))
      else some ({ s with tasks := s.tasks ++ [call] }.setCall call .notify)
    else none
  | .notifyOne call (some worker), s =>
    if s.call call = .notify ∧ s.worker worker = .blocked then
      some ((s.setCall call .enqueued).setWorker worker .waiting)
    else none
  | .notifyOne call none, s =>
    if s.call call = .notify ∧ ∀ worker, s.worker worker ≠ .blocked then some (s.setCall call .enqueued) else none
  | .check worker, s => if s.worker worker = .waiting then some (check worker s) else none
  | .wake worker, s => if s.worker worker = .blocked then some (s.setWorker worker .waiting) else none
  | .finish worker, s =>
    match s.worker worker with
    | .running task => some ({ s with ready := s.ready ++ [task] }.setWorker worker .waiting)
    | _ => none
  | .stop, s => if s.destructor = .destroy then some { s with stop := true, destructor := .notify } else none
  | .notifyAll, s => if s.destructor = .notify then some { s.rouse with destructor := .joining 0 } else none
  | .join, s =>
    match s.destructor with
    | .joining next =>
      if bound : next < numThreads then
        if s.worker ⟨next, bound⟩ = .returned then some { s with destructor := .joining (next + 1) } else none
      else some { s with destructor := .destroyed }
    | _ => none

def Next (s : Scheduler numThreads numCalls) (label : Label numThreads numCalls) (s' : Scheduler numThreads numCalls) :
    Prop := step label s = some s'

inductive Steps (s : Scheduler numThreads numCalls) : Label numThreads numCalls → Scheduler numThreads numCalls → Prop
  | refuse {call : Fin numCalls} : s.call call = .enqueue → s.stop = true →
      Steps s (.enqueue call) (s.setCall call (.refused "Enqueue on stopped ThreadPool"))
  | push {call : Fin numCalls} : s.call call = .enqueue → s.stop = false →
      Steps s (.enqueue call) ({ s with tasks := s.tasks ++ [call] }.setCall call .notify)
  | notifyOne {call : Fin numCalls} {worker : Fin numThreads} : s.call call = .notify → s.worker worker = .blocked →
      Steps s (.notifyOne call (some worker)) ((s.setCall call .enqueued).setWorker worker .waiting)
  | unheard {call : Fin numCalls} : s.call call = .notify → (∀ worker, s.worker worker ≠ .blocked) →
      Steps s (.notifyOne call none) (s.setCall call .enqueued)
  | pop {worker : Fin numThreads} {task : Fin numCalls} {tasks : List (Fin numCalls)} : s.worker worker = .waiting →
      s.tasks = task :: tasks → Steps s (.check worker) ({ s with tasks }.setWorker worker (.running task))
  | exit {worker : Fin numThreads} : s.worker worker = .waiting → s.stop = true → s.tasks = [] →
      Steps s (.check worker) (s.setWorker worker .returned)
  | block {worker : Fin numThreads} : s.worker worker = .waiting → s.stop = false → s.tasks = [] →
      Steps s (.check worker) (s.setWorker worker .blocked)
  | wake {worker : Fin numThreads} : s.worker worker = .blocked → Steps s (.wake worker) (s.setWorker worker .waiting)
  | finish {worker : Fin numThreads} {task : Fin numCalls} : s.worker worker = .running task →
      Steps s (.finish worker) ({ s with ready := s.ready ++ [task] }.setWorker worker .waiting)
  | stop : s.destructor = .destroy → Steps s .stop { s with stop := true, destructor := .notify }
  | notifyAll : s.destructor = .notify → Steps s .notifyAll { s.rouse with destructor := .joining 0 }
  | join {worker : Fin numThreads} : s.destructor = .joining worker → s.worker worker = .returned →
      Steps s .join { s with destructor := .joining (worker + 1) }
  | destroyed {next : Nat} : s.destructor = .joining next → numThreads ≤ next →
      Steps s .join { s with destructor := .destroyed }

variable {s s' : Scheduler numThreads numCalls} {label : Label numThreads numCalls}
  {labels : List (Label numThreads numCalls)}

theorem check_steps {worker : Fin numThreads} (stands : s.worker worker = .waiting) :
    Steps s (.check worker) (check worker s) := by
  unfold check
  cases queue : s.tasks with
  | cons task tasks => simpa using Steps.pop stands queue
  | nil =>
    cases stopped : s.stop with
    | true => simpa using Steps.exit stands stopped queue
    | false => simpa using Steps.block stands stopped queue

theorem steps_of_next (next : Next s label s') : Steps s label s' := by
  unfold Next at next
  cases label with
  | enqueue call =>
    simp only [step, Option.ite_none_right_eq_some] at next
    obtain ⟨stands, next⟩ := next
    split at next
    next stopped =>
      cases next
      exact .refuse stands stopped
    next running =>
      cases next
      exact .push stands (by simpa using running)
  | notifyOne call woken =>
    cases woken with
    | some worker =>
      simp only [step, Option.ite_none_right_eq_some, Option.some.injEq] at next
      obtain ⟨⟨stands, asleep⟩, rfl⟩ := next
      exact .notifyOne stands asleep
    | none =>
      simp only [step, Option.ite_none_right_eq_some, Option.some.injEq] at next
      obtain ⟨⟨stands, awake⟩, rfl⟩ := next
      exact .unheard stands awake
  | check worker =>
    simp only [step, Option.ite_none_right_eq_some, Option.some.injEq] at next
    obtain ⟨stands, rfl⟩ := next
    exact check_steps stands
  | wake worker =>
    simp only [step, Option.ite_none_right_eq_some, Option.some.injEq] at next
    obtain ⟨stands, rfl⟩ := next
    exact .wake stands
  | finish worker =>
    cases stands : s.worker worker with
    | running task =>
      simp only [step, stands, Option.some.injEq] at next
      exact next ▸ .finish stands
    | _ => simp [step, stands] at next
  | stop =>
    simp only [step, Option.ite_none_right_eq_some, Option.some.injEq] at next
    obtain ⟨stands, rfl⟩ := next
    exact .stop stands
  | notifyAll =>
    simp only [step, Option.ite_none_right_eq_some, Option.some.injEq] at next
    obtain ⟨stands, rfl⟩ := next
    exact .notifyAll stands
  | join =>
    cases stands : s.destructor with
    | joining k =>
      by_cases bound : k < numThreads
      · simp only [step, stands, bound, dif_pos, Option.ite_none_right_eq_some, Option.some.injEq] at next
        obtain ⟨returned, rfl⟩ := next
        exact @Steps.join _ _ _ ⟨k, bound⟩ stands returned
      · simp only [step, stands, bound, dif_neg, not_false_eq_true, Option.some.injEq] at next
        exact next ▸ .destroyed stands (not_lt.mp bound)
    | _ => simp [step, stands] at next

def watch (s : Scheduler numThreads numCalls) : Watch where
  work := s.tasks.length
  pending := ∑ call, (s.call call).pending
  idle := ∑ worker, (s.worker worker).idle
  blocked := ∑ worker, (s.worker worker).asleep

theorem blocked_eq_zero : s.watch.blocked = 0 ↔ ∀ worker, s.worker worker ≠ .blocked := by
  simp only [watch, Finset.sum_eq_zero_iff, Finset.mem_univ, true_implies, WorkerPhase.asleep_eq_zero]

theorem watch_setWorker (s : Scheduler numThreads numCalls) (worker : Fin numThreads) (phase : WorkerPhase numCalls) :
    (s.setWorker worker phase).watch.idle + (s.worker worker).idle = s.watch.idle + phase.idle ∧
      (s.setWorker worker phase).watch.blocked + (s.worker worker).asleep = s.watch.blocked + phase.asleep :=
  ⟨sum_update WorkerPhase.idle s.worker worker phase, sum_update WorkerPhase.asleep s.worker worker phase⟩

theorem watch_setCall (s : Scheduler numThreads numCalls) (call : Fin numCalls) (phase : CallPhase) :
    (s.setCall call phase).watch.pending + (s.call call).pending = s.watch.pending + phase.pending :=
  sum_update CallPhase.pending s.call call phase

theorem rouse_awake (s : Scheduler numThreads numCalls) (worker : Fin numThreads) : s.rouse.worker worker ≠ .blocked := by
  unfold rouse
  dsimp only
  split_ifs with asleep
  · simp
  · exact asleep

theorem watch_rouse (s : Scheduler numThreads numCalls) : Watch.Step s.watch s.rouse.watch := by
  refine .notifyAll rfl rfl ?_ (blocked_eq_zero.mpr s.rouse_awake)
  simp only [watch, rouse, ← Finset.sum_add_distrib]
  refine Finset.sum_congr rfl fun worker _ => ?_
  cases s.worker worker <;> simp [WorkerPhase.idle, WorkerPhase.asleep]

theorem Steps.watch (steps : Steps s label s') : Watch.Step s.watch s'.watch := by
  cases steps with
  | @refuse call stands stopped =>
    have calls := s.watch_setCall call (.refused "Enqueue on stopped ThreadPool")
    simp only [stands, CallPhase.pending, Nat.add_zero] at calls
    exact .stay (by simp only [Scheduler.watch] at calls ⊢; rw [calls]; rfl)
  | @push call stands running =>
    have calls := s.watch_setCall call .notify
    simp only [stands, CallPhase.pending, Nat.add_zero] at calls
    exact .post (by simp [Scheduler.watch, setCall]) calls rfl rfl
  | @notifyOne call worker stands asleep =>
    have calls := s.watch_setCall call .enqueued
    obtain ⟨idle, sleep⟩ := s.watch_setWorker worker .waiting
    simp only [stands, CallPhase.pending, Nat.add_zero] at calls
    simp only [asleep, WorkerPhase.idle, WorkerPhase.asleep, Nat.add_zero] at idle sleep
    exact .notifyOne rfl calls.symm idle sleep.symm
  | @unheard call stands awake =>
    have calls := s.watch_setCall call .enqueued
    simp only [stands, CallPhase.pending, Nat.add_zero] at calls
    exact .unheard rfl calls.symm rfl (blocked_eq_zero.mpr awake) (blocked_eq_zero.mpr awake)
  | @pop worker task tasks stands queue =>
    obtain ⟨idle, sleep⟩ := s.watch_setWorker worker (.running task)
    simp only [stands, WorkerPhase.idle, WorkerPhase.asleep, Nat.add_zero] at idle sleep
    exact .take (by simp [Scheduler.watch, setWorker, queue]) rfl idle.symm sleep
  | @exit worker stands stopped empty =>
    obtain ⟨idle, sleep⟩ := s.watch_setWorker worker .returned
    simp only [stands, WorkerPhase.idle, WorkerPhase.asleep, Nat.add_zero] at idle sleep
    exact .leave (congrArg List.length empty) (congrArg List.length empty) rfl idle.symm sleep
  | @block worker stands running empty =>
    obtain ⟨idle, sleep⟩ := s.watch_setWorker worker .blocked
    simp only [stands, WorkerPhase.idle, WorkerPhase.asleep, Nat.add_zero] at idle sleep
    exact .block (congrArg List.length empty) (congrArg List.length empty) rfl idle.symm sleep
  | @wake worker stands =>
    obtain ⟨idle, sleep⟩ := s.watch_setWorker worker .waiting
    simp only [stands, WorkerPhase.idle, WorkerPhase.asleep, Nat.add_zero] at idle sleep
    exact .spurious rfl rfl idle sleep.symm
  | @finish worker task stands =>
    obtain ⟨idle, sleep⟩ := s.watch_setWorker worker .waiting
    simp only [stands, WorkerPhase.idle, WorkerPhase.asleep, Nat.add_zero] at idle sleep
    exact .resume rfl rfl idle sleep
  | stop stands => exact .stay rfl
  | notifyAll stands => exact s.watch_rouse
  | join stands returned => exact .stay rfl
  | destroyed stands all => exact .stay rfl

structure Awake (s : Scheduler numThreads numCalls) : Prop where
  stopped : s.destructor ≠ .destroy → s.stop = true
  roused : s.destructor ≠ .destroy → s.destructor ≠ .notify → ∀ worker, s.worker worker ≠ .blocked

theorem setWorker_awake {phase : WorkerPhase numCalls} {worker : Fin numThreads}
    (awake : ∀ worker, s.worker worker ≠ .blocked) (rouses : phase ≠ .blocked) :
    ∀ w, (s.setWorker worker phase).worker w ≠ .blocked := by
  intro w
  by_cases same : w = worker
  · subst same
    simpa [setWorker] using rouses
  · simpa [setWorker, same] using awake w

theorem Steps.awake (steps : Steps s label s') (awake : Awake s) : Awake s' := by
  obtain ⟨stopped, roused⟩ := awake
  cases steps with
  | refuse | push | unheard => exact ⟨stopped, roused⟩
  | notifyOne | pop | exit | wake | finish =>
    exact ⟨stopped, fun begun notified => setWorker_awake (roused begun notified) (by simp)⟩
  | block stands running empty =>
    -- A worker blocks only after it has read `stop_` as false.
    refine ⟨stopped, fun begun => ?_⟩
    rw [stopped begun] at running
    cases running
  | stop stands => exact ⟨fun _ => rfl, fun _ notified => absurd rfl notified⟩
  | notifyAll stands =>
    exact ⟨fun _ => stopped (by simp [stands]), fun _ _ => s.rouse_awake⟩
  | join stands | destroyed stands =>
    exact ⟨fun _ => stopped (by simp [stands]), fun _ _ => roused (by simp [stands]) (by simp [stands])⟩

theorem run_covered (run : Trace Next (new numThreads numCalls) labels s) : s.watch.Covered ∧ Awake s := by
  refine run.induct (P := fun _ s => s.watch.Covered ∧ Awake s) ⟨?_, ?_⟩ ?_
  · intro blocked
    exact Nat.zero_le _
  · exact ⟨fun begun => absurd rfl begun, fun begun => absurd rfl begun⟩
  · intro labels before label after _ invariant next
    have steps := steps_of_next next
    exact ⟨steps.watch.covered invariant.1, steps.awake invariant.2⟩

/-- No wake-up is lost: while a worker is blocked, every task in the queue has a call about to notify or a
worker on its way to the queue. Once the destructor has notified, no worker is blocked. -/
theorem wakeups_cover (run : Trace Next (new numThreads numCalls) labels s) :
    ((∃ worker, s.worker worker = .blocked) → s.tasks.length ≤
      (∑ call, if s.call call = .notify then 1 else 0) + ∑ worker, if s.worker worker = .waiting then 1 else 0) ∧
    (s.destructor ≠ .destroy → s.destructor ≠ .notify → ∀ worker, s.worker worker ≠ .blocked) := by
  obtain ⟨covered, awake⟩ := run_covered run
  refine ⟨fun ⟨worker, asleep⟩ => ?_, awake.roused⟩
  have blocked : 0 < s.watch.blocked := Nat.pos_of_ne_zero fun zero => blocked_eq_zero.mp zero worker asleep
  have pending : ∀ phase : CallPhase, (if phase = .notify then 1 else 0) = phase.pending := by
    intro phase
    cases phase <;> simp [CallPhase.pending]
  have idle : ∀ phase : WorkerPhase numCalls, (if phase = .waiting then 1 else 0) = phase.idle := by
    intro phase
    cases phase <;> simp [WorkerPhase.idle]
  simp only [pending, idle]
  exact covered blocked

theorem wakeups_cover_asleep : ∃ s, Trace Next (new 1 1) [.check 0, .enqueue 0] s ∧ s.worker 0 = .blocked ∧
    s.tasks.length = 1 ∧ s.tasks.length ≤
      (∑ call, if s.call call = .notify then 1 else 0) + ∑ worker, if s.worker worker = .waiting then 1 else 0 := by
  have run : Trace Next (new 1 1) ([] ++ [.check 0] ++ [.enqueue 0]) _ := .snoc (.snoc .nil rfl) rfl
  exact ⟨_, run, rfl, rfl, (wakeups_cover run).1 ⟨0, rfl⟩⟩

end Scheduler

end ThreadPool

end VectorDb.Common
