import VectorDb.Common.PoolWakeups

namespace VectorDb.Common
open Lib

namespace ThreadPool

variable {numThreads numCalls : Nat}

theorem Steps.step {source target : Phase numThreads} {pool pool' : ThreadPool numThreads}
    (steps : Steps source pool target pool') : ∃ x, source.step = some x ∧ x pool = .ok target pool' := by
  cases steps with
  | refuse stopped =>
    refine ⟨_, rfl, ?_⟩
    rw [enqueue, Action.bind_of_ok (Action.get_eq _), if_pos stopped]
    rfl
  | push running =>
    refine ⟨_, rfl, ?_⟩
    rw [enqueue, Action.bind_of_ok (Action.get_eq _), if_neg (by simp [running])]
    rfl
  | exit stopped empty =>
    refine ⟨_, rfl, ?_⟩
    rw [nextTask, Action.bind_of_ok (Action.get_eq _), if_pos (.inl stopped), if_pos ⟨stopped, empty⟩]
    rfl
  | pop queue =>
    refine ⟨_, rfl, ?_⟩
    rw [nextTask, Action.bind_of_ok (Action.get_eq _), if_pos (.inr (by simp [queue])), if_neg (by simp [queue]), queue]
    rfl
  | run => exact ⟨_, rfl, rfl⟩
  | stop => exact ⟨_, rfl, rfl⟩
  | @join _ worker exited =>
    refine ⟨_, rfl, ?_⟩
    rw [ThreadPool.join, Action.bind_of_ok (Action.get_eq _), dif_pos worker.isLt, if_pos exited]
    rfl
  | destroyed all =>
    refine ⟨_, rfl, ?_⟩
    rw [ThreadPool.join, Action.bind_of_ok (Action.get_eq _), dif_neg (not_lt.mpr all)]
    rfl

def CallPhase.weight : CallPhase → Nat
  | enqueue => 5
  | notify => 2
  | enqueued => 0
  | refused _ => 0

def WorkerPhase.weight : WorkerPhase numCalls → Nat
  | waiting => 2
  | blocked => 1
  | running _ => 3
  | returned => 0

def DestructorPhase.weight (numThreads : Nat) : DestructorPhase → Nat
  | destroy => 2 * numThreads + 3
  | notify => 2 * numThreads + 2
  | joining next => numThreads - next + 1
  | destroyed => 0

namespace WorkerPhase

def phase (worker : Fin numThreads) : WorkerPhase numCalls → Phase numThreads
  | waiting => .waiting worker
  | blocked => .waiting worker
  | running task => .running worker task
  | returned => .returned worker

end WorkerPhase

def CallPhase.phase (call : Nat) : CallPhase → Phase numThreads
  | enqueue => .enqueue call
  | notify => .enqueued call
  | enqueued => .enqueued call
  | refused error => .refused call error

def DestructorPhase.phase : DestructorPhase → Phase numThreads
  | destroy => .destroy
  | notify => .joining 0
  | joining next => .joining next
  | destroyed => .destroyed

def Label.spurious : Label numThreads numCalls → Bool
  | wake _ => true
  | _ => false

namespace Scheduler

variable {s s' : Scheduler numThreads numCalls} {label : Label numThreads numCalls}
  {labels : List (Label numThreads numCalls)}

/-- The steps that are left, if no worker wakes without a notification. -/
def effort (s : Scheduler numThreads numCalls) : Nat :=
  2 * s.tasks.length + ∑ call, (s.call call).weight + ∑ worker, (s.worker worker).weight +
    s.destructor.weight numThreads

theorem effort_new : (new numThreads numCalls).effort = 5 * numCalls + 4 * numThreads + 3 := by
  simp [effort, new, CallPhase.weight, WorkerPhase.weight, DestructorPhase.weight]
  omega

theorem effort_setCall (s : Scheduler numThreads numCalls) (call : Fin numCalls) (phase : CallPhase) :
    (s.setCall call phase).effort + (s.call call).weight = s.effort + phase.weight := by
  have := sum_update CallPhase.weight s.call call phase
  simp only [effort, setCall]
  omega

theorem effort_setWorker (s : Scheduler numThreads numCalls) (worker : Fin numThreads) (phase : WorkerPhase numCalls) :
    (s.setWorker worker phase).effort + (s.worker worker).weight = s.effort + phase.weight := by
  have := sum_update WorkerPhase.weight s.worker worker phase
  simp only [effort, setWorker]
  omega

theorem effort_rouse (s : Scheduler numThreads numCalls) : s.rouse.effort ≤ s.effort + numThreads := by
  have each : ∀ worker, (s.rouse.worker worker).weight ≤ (s.worker worker).weight + 1 := by
    intro worker
    dsimp only [rouse]
    cases s.worker worker <;> simp [WorkerPhase.weight]
  have all := Finset.sum_le_sum fun worker (_ : worker ∈ Finset.univ) => each worker
  rw [Finset.sum_add_distrib, Finset.sum_const, Finset.card_univ, Fintype.card_fin, smul_eq_mul, Nat.mul_one] at all
  simp only [effort, rouse] at all ⊢
  omega

theorem Steps.effort (steps : Steps s label s') :
    s'.effort + 1 ≤ s.effort + if label.spurious then 2 else 0 := by
  cases steps with
  | @refuse call stands stopped =>
    have calls := s.effort_setCall call (.refused "Enqueue on stopped ThreadPool")
    simp only [stands, CallPhase.weight] at calls
    simp only [Label.spurious]
    omega
  | @push call stands running =>
    have calls := { s with tasks := s.tasks ++ [call] }.effort_setCall call .notify
    have longer : { s with tasks := s.tasks ++ [call] }.effort = s.effort + 2 := by
      simp [Scheduler.effort]
      omega
    simp only [stands, CallPhase.weight] at calls
    simp only [Label.spurious]
    omega
  | @notifyOne call worker stands asleep =>
    have calls := s.effort_setCall call .enqueued
    have workers := (s.setCall call .enqueued).effort_setWorker worker .waiting
    have asleep' : (s.setCall call .enqueued).worker worker = .blocked := asleep
    simp only [stands, CallPhase.weight] at calls
    simp only [asleep', WorkerPhase.weight] at workers
    simp only [Label.spurious]
    omega
  | @unheard call stands awake =>
    have calls := s.effort_setCall call .enqueued
    simp only [stands, CallPhase.weight] at calls
    simp only [Label.spurious]
    omega
  | @pop worker task tasks stands queue =>
    have workers := { s with tasks }.effort_setWorker worker (.running task)
    have shorter : s.effort = { s with tasks }.effort + 2 := by
      simp [Scheduler.effort, queue]
      omega
    simp only [stands, WorkerPhase.weight] at workers
    simp only [Label.spurious]
    omega
  | @exit worker stands stopped empty =>
    have workers := s.effort_setWorker worker .returned
    simp only [stands, WorkerPhase.weight] at workers
    simp only [Label.spurious]
    omega
  | @block worker stands running empty =>
    have workers := s.effort_setWorker worker .blocked
    simp only [stands, WorkerPhase.weight] at workers
    simp only [Label.spurious]
    omega
  | @wake worker stands =>
    have workers := s.effort_setWorker worker .waiting
    simp only [stands, WorkerPhase.weight] at workers
    simp only [Label.spurious, if_true]
    omega
  | @finish worker task stands =>
    have workers := { s with ready := s.ready ++ [task] }.effort_setWorker worker .waiting
    have same : { s with ready := s.ready ++ [task] }.effort = s.effort := rfl
    simp only [stands, WorkerPhase.weight] at workers
    simp only [Label.spurious]
    omega
  | stop stands =>
    simp only [Scheduler.effort, stands, DestructorPhase.weight, Label.spurious]
    omega
  | notifyAll stands =>
    have roused := s.effort_rouse
    have unmoved : s.rouse.destructor = .notify := stands
    simp only [Scheduler.effort, stands, unmoved, DestructorPhase.weight, Label.spurious] at roused ⊢
    omega
  | @join worker stands returned =>
    have := worker.isLt
    simp only [Scheduler.effort, stands, DestructorPhase.weight, Label.spurious]
    omega
  | destroyed stands all =>
    simp only [Scheduler.effort, stands, DestructorPhase.weight, Label.spurious]
    omega

/-- A pool in which nothing moves any more, but for wake-ups without a notification. -/
def Quiet (s : Scheduler numThreads numCalls) : Prop := ∀ label s', Next s label s' → label.spurious = true

theorem exists_quiet (s : Scheduler numThreads numCalls) :
    ∃ labels s', Trace Next s labels s' ∧ Quiet s' ∧ labels.countP Label.spurious = 0 := by
  induction left : s.effort using Nat.strong_induction_on generalizing s with
  | _ effort ih =>
    by_cases quiet : Quiet s
    · exact ⟨[], s, .nil, quiet, rfl⟩
    · simp only [Quiet, not_forall] at quiet
      obtain ⟨label, between, next, caused⟩ := quiet
      have spends := (steps_of_next next).effort
      rw [if_neg caused] at spends
      obtain ⟨labels, s', run, quiet, rest⟩ := ih between.effort (by omega) between rfl
      exact ⟨label :: labels, s', run.cons next, quiet, by rw [List.countP_cons_of_neg caused, rest]⟩

theorem run_bounded (run : Trace Next (new numThreads numCalls) labels s) :
    labels.length ≤ 5 * numCalls + 4 * numThreads + 3 + 2 * labels.countP Label.spurious := by
  have spent : labels.length + s.effort ≤
      5 * numCalls + 4 * numThreads + 3 + 2 * labels.countP Label.spurious := by
    refine run.induct (P := fun labels s => labels.length + s.effort ≤
      5 * numCalls + 4 * numThreads + 3 + 2 * labels.countP Label.spurious) ?_ ?_
    · rw [effort_new]
      simp
    · intro labels before label after _ bound next
      have spends := (steps_of_next next).effort
      rw [List.length_append, List.countP_append]
      cases kind : label.spurious <;> simp [kind] at spends ⊢ <;> omega
  omega

theorem run_bounded_three_calls : ∃ labels s, Trace Next (new 2 3) labels s ∧ Quiet s ∧ labels.length ≤ 26 := by
  obtain ⟨labels, s, run, quiet, caused⟩ := exists_quiet (new 2 3)
  have bound := run_bounded run
  exact ⟨labels, s, run, quiet, by simpa [caused] using bound⟩

namespace Quiet

theorem stuck (quiet : Quiet s) (label : Label numThreads numCalls) (counts : label.spurious = false) : step label s = none := by
  cases next : step label s with
  | none => rfl
  | some s' => exact absurd (quiet label s' next) (by simp [counts])

theorem call (quiet : Quiet s) (call : Fin numCalls) : s.call call = .enqueued ∨ ∃ error, s.call call = .refused error := by
  cases stands : s.call call with
  | enqueue =>
    have stuck := quiet.stuck (.enqueue call) rfl
    cases stopped : s.stop <;> simp [step, stands, stopped] at stuck
  | notify =>
    by_cases sleeper : ∃ worker, s.worker worker = .blocked
    · obtain ⟨worker, asleep⟩ := sleeper
      have stuck := quiet.stuck (.notifyOne call (some worker)) rfl
      simp [step, stands, asleep] at stuck
    · have awake := not_exists.mp sleeper
      have stuck := quiet.stuck (.notifyOne call none) rfl
      simp [step, stands] at stuck
      obtain ⟨worker, asleep⟩ := stuck
      exact absurd asleep (awake worker)
  | enqueued => exact .inl rfl
  | refused error => exact .inr ⟨error, rfl⟩

theorem worker (quiet : Quiet s) (worker : Fin numThreads) :
    s.worker worker = .blocked ∨ s.worker worker = .returned := by
  cases stands : s.worker worker with
  | waiting =>
    have stuck := quiet.stuck (.check worker) rfl
    simp [step, stands] at stuck
  | running task =>
    have stuck := quiet.stuck (.finish worker) rfl
    simp [step, stands] at stuck
  | blocked => exact .inl rfl
  | returned => exact .inr rfl

theorem destructor (quiet : Quiet s) (awake : Awake s) :
    s.destructor = .destroyed ∧ ∀ worker, s.worker worker = .returned := by
  have begun : s.destructor ≠ .destroy := fun stands => by
    have stuck := quiet.stuck .stop rfl
    simp [step, stands] at stuck
  have notified : s.destructor ≠ .notify := fun stands => by
    have stuck := quiet.stuck .notifyAll rfl
    simp [step, stands] at stuck
  -- Nobody sleeps after the notification, and a worker that is awake could move.
  have returned : ∀ worker, s.worker worker = .returned := fun worker =>
    (quiet.worker worker).resolve_left (awake.roused begun notified worker)
  refine ⟨?_, returned⟩
  cases stands : s.destructor with
  | destroy => exact absurd stands begun
  | notify => exact absurd stands notified
  | joining next =>
    have stuck := quiet.stuck .join rfl
    by_cases bound : next < numThreads <;> simp [step, stands, bound, returned] at stuck
  | destroyed => rfl

end Quiet

def phases (s : Scheduler numThreads numCalls) : Thread numThreads → Phase numThreads
  | .worker worker => (s.worker worker).phase worker
  | .enqueue call => if bound : call < numCalls then (s.call ⟨call, bound⟩).phase call else .enqueue call
  | .destructor => s.destructor.phase

theorem phases_call (s : Scheduler numThreads numCalls) (call : Fin numCalls) :
    s.phases (.enqueue call) = (s.call call).phase call := by
  simp [phases]

theorem phases_new : (new numThreads numCalls).phases = (ThreadPool.new numThreads).phase := by
  funext thread
  cases thread with
  | worker worker => rfl
  | enqueue call =>
    unfold phases
    dsimp only
    split_ifs <;> rfl
  | destructor => rfl

theorem phases_setWorker (s : Scheduler numThreads numCalls) (worker : Fin numThreads) (phase : WorkerPhase numCalls) :
    (s.setWorker worker phase).phases = Function.update s.phases (.worker worker) (phase.phase worker) := by
  funext thread
  cases thread with
  | worker w =>
    by_cases same : w = worker
    · subst same
      simp [phases, setWorker]
    · simp [phases, setWorker, same]
  | enqueue call => rw [Function.update_of_ne (by simp)]; rfl
  | destructor => rw [Function.update_of_ne (by simp)]; rfl

theorem phases_setCall (s : Scheduler numThreads numCalls) (call : Fin numCalls) (phase : CallPhase) :
    (s.setCall call phase).phases = Function.update s.phases (.enqueue call) (phase.phase call) := by
  funext thread
  cases thread with
  | worker w => rw [Function.update_of_ne (by simp)]; rfl
  | enqueue c =>
    by_cases same : c = call
    · subst same
      simp [phases, setCall]
    · have other : ∀ bound : c < numCalls, (⟨c, bound⟩ : Fin numCalls) ≠ call := fun _ here => same (Fin.ext_iff.mp here)
      simp [phases, setCall, same, other]
  | destructor => rw [Function.update_of_ne (by simp)]; rfl

theorem phases_setDestructor (s : Scheduler numThreads numCalls) (stop : Bool) (destructor : DestructorPhase) :
    { s with stop, destructor }.phases = Function.update s.phases .destructor destructor.phase := by
  funext thread
  cases thread with
  | worker w => rw [Function.update_of_ne (by simp)]; rfl
  | enqueue call => rw [Function.update_of_ne (by simp)]; rfl
  | destructor => simp [phases]

theorem phases_rouse (s : Scheduler numThreads numCalls) : s.rouse.phases = s.phases := by
  funext thread
  cases thread with
  | worker w =>
    dsimp only [phases, rouse]
    cases s.worker w <;> simp [WorkerPhase.phase]
  | enqueue call => rfl
  | destructor => rfl

theorem phases_asleep {worker : Fin numThreads} {phase : WorkerPhase numCalls}
    (same : phase.phase worker = (s.worker worker).phase worker) : (s.setWorker worker phase).phases = s.phases := by
  rw [phases_setWorker, same]
  exact Function.update_eq_self _ _

theorem phases_notified {call : Fin numCalls} (stands : s.call call = .notify) :
    (s.setCall call .enqueued).phases = s.phases := by
  rw [phases_setCall]
  refine Function.update_eq_self_iff.mpr ?_
  simp [phases, stands, CallPhase.phase]

structure Refines (s : Scheduler numThreads numCalls) (moves : History numThreads)
    (pool : Pool (ThreadPool numThreads) (Phase numThreads) (Thread numThreads)) : Prop where
  run : Pool.Run Phase.step (ThreadPool.new numThreads) moves pool
  phases : pool.phase = s.phases
  tasks : pool.state.tasks = s.tasks.map Fin.val
  stop : pool.state.stop = s.stop
  ready : ran moves = s.ready.map Fin.val

theorem refines_new : Refines (new numThreads numCalls) [] (ThreadPool.new numThreads) :=
  ⟨.refl, phases_new.symm, rfl, rfl, rfl⟩

namespace Refines
variable {moves : History numThreads} {pool : Pool (ThreadPool numThreads) (Phase numThreads) (Thread numThreads)}

theorem stutter (refines : Refines s moves pool) (phases : s'.phases = s.phases) (tasks : s'.tasks = s.tasks)
    (stop : s'.stop = s.stop) (ready : s'.ready = s.ready) :
    ∃ moves pool, Refines s' moves pool := by
  refine ⟨moves, pool, refines.run, refines.phases.trans phases.symm, ?_, ?_, ?_⟩
  · rw [refines.tasks, tasks]
  · rw [refines.stop, stop]
  · rw [refines.ready, ready]

theorem move (refines : Refines s moves pool) (i : Thread numThreads) {source target : Phase numThreads}
    (state : ThreadPool numThreads) (steps : ThreadPool.Steps source pool.state target state)
    (stands : s.phases i = source) (phases : s'.phases = Function.update s.phases i target)
    (tasks : state.tasks = s'.tasks.map Fin.val) (stop : state.stop = s'.stop)
    (ready : s'.ready.map Fin.val = s.ready.map Fin.val ++ source.held.toList) :
    ∃ moves pool, Refines s' moves pool := by
  obtain ⟨x, step, moved⟩ := steps.step
  refine ⟨_, _, refines.run.snoc i (by rw [refines.phases, stands]) step moved, ?_, tasks, stop, ?_⟩
  · rw [phases, ← refines.phases]
    rfl
  · rw [ran_concat, refines.ready, ready]

theorem steps (refines : Refines s moves pool) (steps : Steps s label s') : ∃ moves pool, Refines s' moves pool := by
  have tasks := refines.tasks
  have stop := refines.stop
  have call {c : Fin numCalls} {phase : CallPhase} (stands : s.call c = phase) :
      s.phases (.enqueue c) = phase.phase c := by rw [s.phases_call, stands]
  have worker {w : Fin numThreads} {phase : WorkerPhase numCalls} (stands : s.worker w = phase) :
      s.phases (.worker w) = phase.phase w := congrArg (WorkerPhase.phase w) stands
  have destructor {phase : DestructorPhase} (stands : s.destructor = phase) : s.phases .destructor = phase.phase :=
    congrArg DestructorPhase.phase stands
  cases steps with
  | refuse stands stopped =>
    exact refines.move _ pool.state (.refuse (stop.trans stopped)) (call stands) (phases_setCall _ _ _) tasks stop
      (List.append_nil _).symm
  | @push c stands running =>
    refine refines.move _ { pool.state with tasks := pool.state.tasks ++ [c.val] } (.push (stop.trans running))
      (call stands) (phases_setCall _ _ _) ?_ stop (List.append_nil _).symm
    simp [setCall, tasks]
  | notifyOne stands asleep =>
    refine refines.stutter ?_ rfl rfl rfl
    rw [phases_asleep, phases_notified stands]
    simp [setCall, asleep, WorkerPhase.phase]
  | unheard stands awake => exact refines.stutter (phases_notified stands) rfl rfl rfl
  | @pop w task rest stands queue =>
    rw [queue, List.map_cons] at tasks
    exact refines.move _ { pool.state with tasks := rest.map Fin.val } (.pop tasks) (worker stands)
      (phases_setWorker _ _ _) rfl stop (List.append_nil _).symm
  | @exit w stands stopped empty =>
    have drained : pool.state.tasks = [] := by rw [tasks, empty, List.map_nil]
    exact refines.move _ { pool.state with exited := w :: pool.state.exited } (.exit (stop.trans stopped) drained)
      (worker stands) (phases_setWorker _ _ _) tasks stop (List.append_nil _).symm
  | block stands running empty =>
    exact refines.stutter (phases_asleep (by simp [stands, WorkerPhase.phase])) rfl rfl rfl
  | wake stands =>
    exact refines.stutter (phases_asleep (by simp [stands, WorkerPhase.phase])) rfl rfl rfl
  | finish stands =>
    exact refines.move _ pool.state .run (worker stands) (phases_setWorker _ _ _) tasks stop List.map_append
  | stop stands =>
    exact refines.move _ { pool.state with stop := true } .stop (destructor stands) (phases_setDestructor _ _ _) tasks
      rfl (List.append_nil _).symm
  | notifyAll stands =>
    refine refines.stutter ?_ rfl rfl rfl
    rw [← s.phases_rouse]
    refine (phases_setDestructor s.rouse _ _).trans (Function.update_eq_self_iff.mpr ?_)
    exact (congrArg DestructorPhase.phase stands).symm
  | @join w stands returned =>
    have exited : w ∈ pool.state.exited := by
      rw [(Sound.run refines.run).exited, refines.phases, worker returned]
      rfl
    exact refines.move _ pool.state (.join exited) (destructor stands) (phases_setDestructor _ _ _) tasks stop
      (List.append_nil _).symm
  | destroyed stands all =>
    exact refines.move _ pool.state (.destroyed all) (destructor stands) (phases_setDestructor _ _ _) tasks stop
      (List.append_nil _).symm

end Refines

theorem run_refines (run : Trace Next (new numThreads numCalls) labels s) : ∃ moves pool, Refines s moves pool := by
  refine run.induct (P := fun _ s => ∃ moves pool, Refines s moves pool) ⟨[], _, refines_new⟩ ?_
  rintro labels before label after - ⟨moves, pool, refines⟩ next
  exact refines.steps (steps_of_next next)

theorem count_map_val (calls : List (Fin numCalls)) (call : Fin numCalls) :
    (calls.map Fin.val).count call.val = calls.count call :=
  List.count_map_of_injective calls Fin.val Fin.val_injective call

/-- A pool in which nothing moves any more has done all it was asked to do: the destructor has returned,
and a future has its result, set once, if and only if its call was accepted. -/
theorem quiet_completed (workers : 0 < numThreads) (run : Trace Next (new numThreads numCalls) labels s)
    (quiet : Quiet s) : s.destructor = .destroyed ∧ (∀ worker, s.worker worker = .returned) ∧ s.tasks = [] ∧
      ∀ call, (s.call call = .enqueued ∧ s.ready.count call = 1) ∨
        (∃ error, s.call call = .refused error) ∧ s.ready.count call = 0 := by
  obtain ⟨destroyed, returned⟩ := quiet.destructor (run_covered run).2
  obtain ⟨moves, pool, refines⟩ := run_refines run
  have sound := Sound.run refines.run
  have exited : ∀ worker, pool.phase (.worker worker) = .returned worker := by
    intro worker
    rw [refines.phases]
    exact congrArg (WorkerPhase.phase worker) (returned worker)
  have empty := sound.drained_returned ⟨0, workers⟩ (exited _)
  have once : ∀ call : Fin numCalls, s.ready.count call = (ran moves).count call.val := by
    intro call
    rw [refines.ready, count_map_val]
  refine ⟨destroyed, returned, List.map_eq_nil_iff.mp (refines.tasks ▸ empty), fun call => ?_⟩
  have placed : pool.phase (.enqueue call) = (s.call call).phase call := by rw [refines.phases, phases_call]
  rcases quiet.call call with accepted | ⟨error, refused⟩
  · refine .inl ⟨accepted, ?_⟩
    rw [accepted] at placed
    rw [once]
    exact List.count_eq_one_of_mem sound.ran_nodup (sound.ran_of_returned empty exited placed)
  · refine .inr ⟨⟨error, refused⟩, ?_⟩
    rw [once, List.count_eq_zero]
    intro isRan
    have isPopped := sound.conserved.mem_iff.mpr (List.mem_append_left _ isRan)
    have isPushed : call.val ∈ pushed moves := sound.fifo ▸ List.mem_append_left _ isPopped
    rw [sound.accepted, placed, refused] at isPushed
    cases isPushed

theorem quiet_completed_three_calls : ∃ labels s, Trace Next (new 2 3) labels s ∧ Quiet s ∧
    s.destructor = .destroyed ∧ s.tasks = [] := by
  obtain ⟨labels, s, run, quiet, -⟩ := exists_quiet (new 2 3)
  obtain ⟨destroyed, -, empty, -⟩ := quiet_completed (by decide) run quiet
  exact ⟨labels, s, run, quiet, destroyed, empty⟩

end Scheduler

end ThreadPool

end VectorDb.Common
