import VectorDb.Engine.PassPhases
import VectorDb.Lib.Trace

namespace VectorDb.Storage
open Lib Common CompactionManager

namespace StorageEngine

/-- Where the compaction thread is in `CompactionLoop`. The predicate of `wait_for` reads `shutdown_` without
a lock that its writer takes, so there is a gap between the test and the sleep. -/
inductive LoopPhase where
  | top
  | checking
  | blocking
  | blocked
  | woken
  | compacting (pass : PassPhase)
  | exited

def LoopPhase.notified : LoopPhase → LoopPhase
  | blocked => checking
  | phase => phase

inductive Destruction where
  | serving
  | notifying
  | joining
  | flushing
  | destroyed
deriving DecidableEq

def Command.phase : Command → Phase
  | put key value => .append (.put key value)
  | delete key => .append (.delete key)
  | flush => .swap

section Calls
variable (pf : Platform) (io : Faults) (device : Device)

def Phase.ended : Phase → Bool
  | returned => true
  | answered _ => true
  | _ => false

/-- One step of a call, and the phase it leads to, if the call goes on. An error ends it. -/
def Phase.advance (world : World) (phase : Phase) : Option Phase × World :=
  match phase.step pf io device with
  | none => (none, world)
  | some x =>
    match x world with
    | .ok target world => (if target.ended then none else some target, world)
    | .error _ world => (none, world)

end Calls

structure Host where
  world : World
  calls : List Phase
  shutdown : Bool
  loop : LoopPhase
  destructor : Destruction

def Host.running (world : World) : Host := ⟨world, [], false, .top, .serving⟩

/-- `call` is the next step of a call in progress, `wake` the notification of a flush or a wake-up without any,
`timeout` the end of the five seconds. -/
inductive Turn where
  | invoke (command : Command)
  | call (index : Nat)
  | loop
  | wake
  | timeout
  | destroy
deriving DecidableEq

namespace Host

variable (pf : Platform) (io : Faults) (device : Device)

def callStep (index : Nat) (s : Host) : Option Host :=
  s.calls[index]?.map fun phase =>
    let (next, world) := phase.advance pf io device s.world
    { s with world, calls := s.calls.take index ++ next.toList ++ s.calls.drop (index + 1) }

def loopStep (s : Host) : Option Host :=
  match s.loop with
  | .top => some { s with loop := if s.shutdown = true then .exited else .checking }
  | .checking => some { s with loop :=
      if s.shutdown = true ∨ s.world.engine.compactionManager.needsCompaction = true then .woken else .blocking }
  | .blocking => some { s with loop := .blocked }
  | .blocked => none
  | .woken => some { s with loop := if s.shutdown = true then .exited else .compacting .check }
  | .compacting pass =>
    -- Once `shutdown_` is set no call is in progress, and nothing comes between the steps of the pass.
    if s.shutdown = true then some { s with world := pass.rest pf io s.world, loop := .top }
    else
      match pass.step pf io s.world with
      | (none, world) => some { s with world, loop := .top }
      | (some target, world) => some { s with world, loop := .compacting target }
  | .exited => none

/-- The engine is not destroyed while a call is in progress. -/
def destroyStep (s : Host) : Option Host :=
  match s.destructor with
  | .serving => if s.calls.isEmpty then some { s with shutdown := true, destructor := .notifying } else none
  | .notifying => some { s with loop := s.loop.notified, destructor := .joining }
  | .joining =>
    match s.loop with
    | .exited => some { s with destructor := .flushing }
    | _ => none
  | .flushing => some { s with world := (close pf io).run.final s.world, destructor := .destroyed }
  | .destroyed => none

/-- No call may be made once the destructor runs. -/
def step : Turn → Host → Option Host
  | .invoke command, s =>
    if s.destructor = .serving then some { s with calls := s.calls ++ [command.phase] } else none
  | .call index, s => s.callStep pf io device index
  | .loop, s => s.loopStep pf io
  | .wake, s =>
    match s.loop with
    | .blocked => some { s with loop := .checking }
    | _ => none
  | .timeout, s =>
    match s.loop with
    | .blocked => some { s with loop := .woken }
    | _ => none
  | .destroy, s => s.destroyStep pf io

def Next (s : Host) (turn : Turn) (s' : Host) : Prop := step pf io device turn s = some s'

end Host

def LoopPhase.rank : LoopPhase → Nat
  | exited => 0
  | top => 1
  | woken => 1
  | checking => 2
  | compacting _ => 2
  | blocked => 3
  | blocking => 4

def Destruction.rank : Destruction → Nat
  | serving => 4
  | notifying => 3
  | joining => 2
  | flushing => 1
  | destroyed => 0

namespace Host

variable {pf : Platform} {io : Faults} {device : Device} {config : StorageConfig} {world : World} {s s' : Host}
  {turn : Turn} {turns : List Turn}

inductive Steps (pf : Platform) (io : Faults) (device : Device) (s : Host) : Turn → Host → Prop
  | invoke (command : Command) : s.destructor = .serving →
      Steps pf io device s (.invoke command) { s with calls := s.calls ++ [command.phase] }
  | call {phase : Phase} (before after : List Phase) : s.calls = before ++ phase :: after →
      Steps pf io device s (.call before.length) { s with
        world := (phase.advance pf io device s.world).2
        calls := before ++ (phase.advance pf io device s.world).1.toList ++ after }
  | enter : s.loop = .top → s.shutdown = false → Steps pf io device s .loop { s with loop := .checking }
  | leave : s.loop = .top ∨ s.loop = .woken → s.shutdown = true → Steps pf io device s .loop { s with loop := .exited }
  | pass : s.loop = .checking → Steps pf io device s .loop { s with loop := .woken }
  | wait : s.loop = .checking → s.shutdown = false → Steps pf io device s .loop { s with loop := .blocking }
  | block : s.loop = .blocking → Steps pf io device s .loop { s with loop := .blocked }
  | begin : s.loop = .woken → s.shutdown = false → Steps pf io device s .loop { s with loop := .compacting .check }
  | advance {pass target : PassPhase} {world : World} : s.loop = .compacting pass → s.shutdown = false →
      pass.step pf io s.world = (some target, world) →
      Steps pf io device s .loop { s with world, loop := .compacting target }
  | conclude {pass : PassPhase} {world : World} : s.loop = .compacting pass → s.shutdown = false →
      pass.step pf io s.world = (none, world) → Steps pf io device s .loop { s with world, loop := .top }
  | complete {pass : PassPhase} : s.loop = .compacting pass → s.shutdown = true →
      Steps pf io device s .loop { s with world := pass.rest pf io s.world, loop := .top }
  | wake : s.loop = .blocked → Steps pf io device s .wake { s with loop := .checking }
  | timeout : s.loop = .blocked → Steps pf io device s .timeout { s with loop := .woken }
  | store : s.destructor = .serving → s.calls = [] →
      Steps pf io device s .destroy { s with shutdown := true, destructor := .notifying }
  | rouse : s.destructor = .notifying → s.loop = .blocked →
      Steps pf io device s .destroy { s with loop := .checking, destructor := .joining }
  | unheard : s.destructor = .notifying → s.loop ≠ .blocked →
      Steps pf io device s .destroy { s with destructor := .joining }
  | join : s.destructor = .joining → s.loop = .exited →
      Steps pf io device s .destroy { s with destructor := .flushing }
  | flush : s.destructor = .flushing → Steps pf io device s .destroy
      { s with world := (close pf io).run.final s.world, destructor := .destroyed }

theorem callStep_steps {index : Nat} (next : s.callStep pf io device index = some s') :
    Steps pf io device s (.call index) s' := by
  obtain ⟨phase, found, rfl⟩ := Option.map_eq_some_iff.mp next
  obtain ⟨bound, isPhase⟩ := List.getElem?_eq_some_iff.mp found
  have split : s.calls = s.calls.take index ++ phase :: s.calls.drop (index + 1) := by
    rw [← isPhase, List.getElem_cons_drop, List.take_append_drop]
  have steps : Steps pf io device s _ _ := .call _ _ split
  rwa [List.length_take, min_eq_left bound.le] at steps

theorem loopStep_steps (next : s.loopStep pf io = some s') : Steps pf io device s .loop s' := by
  unfold loopStep at next
  split at next
  next phase =>
    by_cases stored : s.shutdown = true
    · rw [if_pos stored] at next
      exact Option.some.inj next ▸ .leave (.inl phase) stored
    · rw [if_neg stored] at next
      exact Option.some.inj next ▸ .enter phase (by simpa using stored)
  next phase =>
    by_cases ready : s.shutdown = true ∨ s.world.engine.compactionManager.needsCompaction = true
    · rw [if_pos ready] at next
      exact Option.some.inj next ▸ .pass phase
    · rw [if_neg ready] at next
      exact Option.some.inj next ▸ .wait phase (by simpa using (not_or.mp ready).1)
  next phase => exact Option.some.inj next ▸ .block phase
  next => cases next
  next phase =>
    by_cases stored : s.shutdown = true
    · rw [if_pos stored] at next
      exact Option.some.inj next ▸ .leave (.inr phase) stored
    · rw [if_neg stored] at next
      exact Option.some.inj next ▸ .begin phase (by simpa using stored)
  next pass phase =>
    by_cases stored : s.shutdown = true
    · rw [if_pos stored] at next
      exact Option.some.inj next ▸ .complete phase stored
    · rw [if_neg stored] at next
      split at next
      next ends => exact Option.some.inj next ▸ .conclude phase (by simpa using stored) ends
      next goesOn => exact Option.some.inj next ▸ .advance phase (by simpa using stored) goesOn
  next => cases next

theorem destroyStep_steps (next : s.destroyStep pf io = some s') : Steps pf io device s .destroy s' := by
  unfold destroyStep at next
  split at next
  next phase =>
    split_ifs at next with idle
    exact Option.some.inj next ▸ .store phase (List.isEmpty_iff.mp idle)
  next phase =>
    cases loop : s.loop with
    | blocked =>
      rw [loop] at next
      exact Option.some.inj next ▸ .rouse phase loop
    | top | checking | blocking | woken | compacting | exited =>
      rw [loop, LoopPhase.notified, ← loop] at next
      · exact Option.some.inj next ▸ .unheard phase (by simp [loop])
      · simp
  next phase =>
    split at next
    next exited => exact Option.some.inj next ▸ .join phase exited
    next => cases next
  next phase => exact Option.some.inj next ▸ .flush phase
  next => cases next

theorem steps_of_next (next : Next pf io device s turn s') : Steps pf io device s turn s' := by
  unfold Next at next
  cases turn with
  | invoke command =>
    rw [step] at next
    split_ifs at next with serving
    exact Option.some.inj next ▸ .invoke command serving
  | call index => exact callStep_steps next
  | loop => exact loopStep_steps next
  | wake =>
    rw [step] at next
    split at next
    next asleep => exact Option.some.inj next ▸ .wake asleep
    next => cases next
  | timeout =>
    rw [step] at next
    split at next
    next asleep => exact Option.some.inj next ▸ .timeout asleep
    next => cases next
  | destroy => exact destroyStep_steps next

structure Ordered (s : Host) : Prop where
  stored : s.shutdown = true ↔ s.destructor ≠ .serving
  joined : s.destructor = .flushing ∨ s.destructor = .destroyed → s.loop = .exited
  idle : s.destructor ≠ .serving → s.calls = []

theorem Steps.ordered (steps : Steps pf io device s turn s') (ordered : Ordered s) : Ordered s' := by
  obtain ⟨stored, joined, idle⟩ := ordered
  cases steps with
  | invoke command serving => exact ⟨stored, joined, fun later => absurd serving later⟩
  | call before after isCall => exact ⟨stored, joined, fun later => by simp [idle later] at isCall⟩
  | leave phase => exact ⟨stored, fun _ => rfl, idle⟩
  | enter phase | pass phase | wait phase | block phase | begin phase | advance phase | conclude phase | complete phase
  | wake phase | timeout phase =>
    exact ⟨stored, fun later => by simp [joined later] at phase, idle⟩
  | store phase none => exact ⟨by simp, by simp, fun _ => none⟩
  | rouse phase | unheard phase => exact ⟨by simp [stored, phase], by simp, fun _ => idle (by simp [phase])⟩
  | join phase exited => exact ⟨by simp [stored, phase], fun _ => exited, fun _ => idle (by simp [phase])⟩
  | flush phase => exact ⟨by simp [stored, phase], fun _ => joined (.inl phase), fun _ => idle (by simp [phase])⟩

theorem ordered_running (world : World) : Ordered (running world) :=
  ⟨by simp [running], by simp [running], by simp [running]⟩

theorem run_ordered (run : Trace (Next pf io device) (running world) turns s) : Ordered s := by
  refine run.induct (P := fun _ s => Ordered s) (ordered_running world) ?_
  intro turns before turn after _ ordered next
  exact (steps_of_next next).ordered ordered

theorem Steps.rank (steps : Steps pf io device s turn s') (ordered : Ordered s) (stored : s.shutdown = true) :
    s'.shutdown = true ∧ s'.loop.rank + s'.destructor.rank < s.loop.rank + s.destructor.rank := by
  cases steps with
  | invoke command serving => exact absurd serving (ordered.stored.mp stored)
  | call before after isCall => simp [ordered.idle (ordered.stored.mp stored)] at isCall
  | store serving => exact absurd serving (ordered.stored.mp stored)
  | enter phase running | wait phase running | begin phase running | advance phase running | conclude phase running =>
    simp [running] at stored
  | leave phase =>
    refine ⟨stored, ?_⟩
    rcases phase with phase | phase <;> simp [phase, LoopPhase.rank]
  | pass phase | block phase | complete phase | wake phase | timeout phase =>
    exact ⟨stored, by simp [phase, LoopPhase.rank]⟩
  | rouse phase asleep => exact ⟨stored, by simp [phase, asleep, LoopPhase.rank, Destruction.rank]⟩
  | unheard phase | join phase | flush phase => exact ⟨stored, by simp [phase, Destruction.rank]⟩

theorem rank_spent (ordered : Ordered s) (stored : s.shutdown = true)
    (run : Trace (Next pf io device) s turns s') :
    Ordered s' ∧ s'.shutdown = true ∧ turns.length + (s'.loop.rank + s'.destructor.rank) ≤
      s.loop.rank + s.destructor.rank := by
  refine run.induct (P := fun turns s' => Ordered s' ∧ s'.shutdown = true ∧
    turns.length + (s'.loop.rank + s'.destructor.rank) ≤ s.loop.rank + s.destructor.rank)
    ⟨ordered, stored, by simp⟩ ?_
  rintro turns before turn after - ⟨ordered, stored, spent⟩ next
  have steps := steps_of_next next
  obtain ⟨still, less⟩ := steps.rank ordered stored
  exact ⟨steps.ordered ordered, still, by rw [List.length_append, List.length_singleton]; omega⟩

/-- From the store of `shutdown_` on the destructor returns within seven turns. It needs no wake-up for it:
the timeout of the wait makes up for a notification that falls into the gap before the sleep. -/
theorem shutdown_terminates (run : Trace (Next pf io device) (running world) turns s) (stored : s.shutdown = true) :
    (∀ later s', Trace (Next pf io device) s later s' → later.length ≤ 7) ∧
    (s.destructor ≠ .destroyed → ∃ turn s', turn ≠ .wake ∧ Next pf io device s turn s') := by
  have ordered := run_ordered run
  constructor
  · intro later s' run'
    have spent := (rank_spent ordered stored run').2.2
    have loop : s.loop.rank ≤ 4 := by cases s.loop <;> simp [LoopPhase.rank]
    have destructor : s.destructor.rank ≤ 3 := by
      have := ordered.stored.mp stored
      cases phase : s.destructor <;> simp_all [Destruction.rank]
    omega
  · intro unfinished
    by_cases exited : s.loop = .exited
    · refine ⟨.destroy, ?_⟩
      cases phase : s.destructor with
      | serving => exact absurd phase (ordered.stored.mp stored)
      | notifying | joining | flushing => exact ⟨_, by simp, by simp [Next, step, destroyStep, phase, exited]; rfl⟩
      | destroyed => exact absurd phase unfinished
    · by_cases asleep : s.loop = .blocked
      · -- The notification may have been missed, but not the end of the five seconds.
        exact ⟨.timeout, _, by simp, by simp [Next, step, asleep]; rfl⟩
      · refine ⟨.loop, ?_⟩
        cases phase : s.loop with
        | top | checking | blocking | woken | compacting =>
          exact ⟨_, by simp, by simp [Next, step, loopStep, phase, stored]; rfl⟩
        | blocked => exact absurd phase asleep
        | exited => exact absurd phase exited

theorem shutdown_terminates_stored : ∃ s, Trace (Next .reference .none .faultless) (running (fresh .reference {}))
      [.destroy] s ∧ s.shutdown = true ∧ ∃ turn s', turn ≠ .wake ∧ Next .reference .none .faultless s turn s' := by
  have run : Trace (Next .reference .none .faultless) (running (fresh .reference {})) ([] ++ [.destroy]) _ :=
    .snoc .nil rfl
  exact ⟨_, run, rfl, (shutdown_terminates run rfl).2 (by simp)⟩

theorem shutdown_unheard (unneeded : world.engine.compactionManager.needsCompaction = false) :
    Trace (Next pf io device) (running world) [.loop, .loop, .destroy, .destroy, .loop]
      ⟨world, [], true, .blocked, .joining⟩ := by
  have waits : Next pf io device ⟨world, [], false, .checking, .serving⟩ .loop ⟨world, [], false, .blocking, .serving⟩ := by
    simp [Next, step, loopStep, unneeded]
  exact .cons (show Next _ _ _ _ _ ⟨world, [], false, .checking, .serving⟩ from rfl) <| .cons waits <|
    .cons (show Next _ _ _ _ _ ⟨world, [], true, .blocking, .notifying⟩ from rfl) <|
    .cons (show Next _ _ _ _ _ ⟨world, [], true, .blocking, .joining⟩ from rfl) <| .snoc .nil rfl

end Host

end StorageEngine

end VectorDb.Storage
