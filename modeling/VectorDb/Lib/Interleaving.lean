import Mathlib.Data.List.TakeWhile
import VectorDb.Lib.Action

namespace VectorDb.Lib

/-- Threads over a shared state. Each thread is at a phase of what it executes. -/
structure Pool (σ π ι : Type) where
  state : σ
  phase : ι → π

structure Move (π ι : Type) where
  thread : ι
  source : π
  target : π

section History
variable {α : Type} {p : α → Bool} {xs : List α}

def beforeFirst (p : α → Bool) (xs : List α) : List α := xs.takeWhile fun x => !p x

theorem beforeFirst_none (none : ∀ x ∈ xs, p x = false) : beforeFirst p xs = xs := by
  rw [beforeFirst, List.takeWhile_eq_self_iff]
  simpa using none

theorem beforeFirst_append (hit : ∃ x ∈ xs, p x = true) (later : List α) :
    beforeFirst p (xs ++ later) = beforeFirst p xs := by
  rw [beforeFirst, List.takeWhile_append, if_neg, beforeFirst]
  intro all
  have initial : xs.takeWhile (fun x => !p x) <+: xs := List.takeWhile_prefix _
  have same := initial.eq_of_length all
  obtain ⟨x, member, isHit⟩ := hit
  have := List.takeWhile_eq_self_iff.mp same x member
  simp [isHit] at this

theorem beforeFirst_hit (none : ∀ x ∈ xs, p x = false) {x : α} (hit : p x = true) : beforeFirst p (xs ++ [x]) = xs := by
  rw [beforeFirst, List.takeWhile_append, if_pos]
  · simp [hit]
  · exact congrArg List.length (beforeFirst_none none)

theorem beforeFirst_initial : beforeFirst p xs <+: xs := List.takeWhile_prefix _

theorem beforeFirst_append_none (none : ∀ x ∈ xs, p x = false) (later : List α) :
    beforeFirst p (xs ++ later) = xs ++ beforeFirst p later := by
  rw [beforeFirst, List.takeWhile_append, if_pos, beforeFirst]
  exact congrArg List.length (beforeFirst_none none)

theorem exists_first (hit : ∃ x ∈ xs, p x = true) :
    ∃ x later, xs = beforeFirst p xs ++ x :: later ∧ p x = true ∧ ∀ y ∈ beforeFirst p xs, p y = false := by
  induction xs with
  | nil => simp at hit
  | cons first xs ih =>
    cases isHit : p first with
    | true => exact ⟨first, xs, by simp [beforeFirst, isHit], isHit, by simp [beforeFirst, isHit]⟩
    | false =>
      obtain ⟨x, later, split, found, none⟩ := ih (by simpa [isHit] using hit)
      refine ⟨x, later, ?_, found, ?_⟩
      · conv_lhs => rw [split]
        simp [beforeFirst, isHit]
      · simpa [beforeFirst, isHit] using none

end History

namespace Pool

variable {ε σ π ι : Type} [DecidableEq ι]

def after (pool : Pool σ π ι) (i : ι) (target : π) (state : σ) : Pool σ π ι := ⟨state, Function.update pool.phase i target⟩

@[simp] theorem after_state (pool : Pool σ π ι) (i : ι) (target : π) (state : σ) :
    (pool.after i target state).state = state := rfl

@[simp] theorem after_phase_self (pool : Pool σ π ι) (i : ι) (target : π) (state : σ) :
    (pool.after i target state).phase i = target := Function.update_self _ _ _

theorem after_phase_of_ne (pool : Pool σ π ι) {i j : ι} (other : j ≠ i) (target : π) (state : σ) :
    (pool.after i target state).phase j = pool.phase j := Function.update_of_ne other _ _

theorem after_after (pool : Pool σ π ι) (i : ι) (between target : π) (middle state : σ) :
    (pool.after i between middle).after i target state = pool.after i target state := by
  rw [after, after, after, Function.update_idem]

variable (step : π → Option (Action ε σ π)) (start : Pool σ π ι)

inductive Run : List (Move π ι) → Pool σ π ι → Prop
  | refl : Run [] start
  | move {moves : List (Move π ι)} {pool : Pool σ π ι} (i : ι) {x : Action ε σ π} {target : π} {state : σ} :
      Run moves pool → step (pool.phase i) = some x → x pool.state = .ok target state →
      Run (moves ++ [⟨i, pool.phase i, target⟩]) (pool.after i target state)

variable {step start}

theorem Run.snoc {moves : List (Move π ι)} {pool : Pool σ π ι} (run : Run step start moves pool) (i : ι) {source : π}
    (stands : pool.phase i = source) {x : Action ε σ π} (steps : step source = some x) {target : π} {state : σ}
    (ran : x pool.state = .ok target state) :
    Run step start (moves ++ [⟨i, source, target⟩]) (pool.after i target state) := by
  subst stands
  exact .move i run steps ran

theorem Run.induct {P : List (Move π ι) → Pool σ π ι → Prop} (first : P [] start)
    (kept : ∀ moves pool i x target state, Run step start moves pool → P moves pool →
      step (pool.phase i) = some x → x pool.state = .ok target state →
      P (moves ++ [⟨i, pool.phase i, target⟩]) (pool.after i target state))
    {moves : List (Move π ι)} {pool : Pool σ π ι} (run : Run step start moves pool) : P moves pool := by
  induction run with
  | refl => exact first
  | move i before steps ran ih => exact kept _ _ i _ _ _ before ih steps ran

theorem Run.concat_inv {moves : List (Move π ι)} {move : Move π ι} {pool : Pool σ π ι}
    (run : Run step start (moves ++ [move]) pool) :
    ∃ before x state, Run step start moves before ∧ before.phase move.thread = move.source ∧
      step move.source = some x ∧ x before.state = .ok move.target state ∧
      pool = before.after move.thread move.target state := by
  generalize isMoves : moves ++ [move] = all at run
  cases run with
  | refl => simp at isMoves
  | move i before steps ran =>
    obtain ⟨rfl, last⟩ := List.append_inj' isMoves rfl
    cases last
    exact ⟨_, _, _, before, rfl, steps, ran, rfl⟩

theorem Run.nil_inv {pool : Pool σ π ι} (run : Run step start [] pool) : pool = start := by
  generalize isMoves : [] = all at run
  cases run with
  | refl => rfl
  | move => simp at isMoves

theorem Run.split (early : List (Move π ι)) {late : List (Move π ι)} {pool : Pool σ π ι}
    (run : Run step start (early ++ late) pool) :
    ∃ middle, Run step start early middle ∧ Run step middle late pool := by
  induction late using List.reverseRecOn generalizing pool with
  | nil => exact ⟨pool, by simpa using run, .refl⟩
  | append_singleton late last ih =>
    rw [← List.append_assoc] at run
    obtain ⟨before, x, state, earlier, stands, steps, ran, rfl⟩ := run.concat_inv
    obtain ⟨middle, first, second⟩ := ih earlier
    rw [← stands] at steps
    have moved := Run.move last.thread second steps ran
    rw [stands] at moved
    exact ⟨middle, first, moved⟩

theorem Run.first_source {move : Move π ι} {late : List (Move π ι)} {pool : Pool σ π ι}
    (run : Run step start (move :: late) pool) : start.phase move.thread = move.source := by
  obtain ⟨middle, first, -⟩ := run.split [move]
  obtain ⟨before, x, state, none, stands, -⟩ := (show Run step start ([] ++ [move]) middle from first).concat_inv
  rw [none.nil_inv] at stands
  exact stands

end Pool

end VectorDb.Lib
