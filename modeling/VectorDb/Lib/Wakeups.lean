import Mathlib.Algebra.BigOperators.Group.Finset.Basic
import Mathlib.Data.Fintype.BigOperators
import Mathlib.Tactic

namespace VectorDb.Lib

theorem sum_update {ι β : Type} [Fintype ι] [DecidableEq ι] (weight : β → Nat) (f : ι → β) (i : ι) (b : β) :
    ∑ j, weight (Function.update f i b j) + weight (f i) = ∑ j, weight (f j) + weight b := by
  have composed : (fun j => weight (Function.update f i b j)) = Function.update (fun j => weight (f j)) i (weight b) :=
    Function.comp_update weight f i b
  rw [composed, Finset.sum_update_of_mem (Finset.mem_univ i),
    ← Finset.add_sum_erase Finset.univ (fun j => weight (f j)) (Finset.mem_univ i), Finset.sdiff_singleton_eq_erase]
  omega

/-- Threads that look for work under a condition variable, by their numbers: the units of work, the
notifications on their way, the threads about to look for work and those blocked in the wait. -/
structure Watch where
  work : Nat
  pending : Nat
  idle : Nat
  blocked : Nat

namespace Watch

inductive Step (w w' : Watch) : Prop
  | stay : w' = w → Step w w'
  | post : w'.work = w.work + 1 → w'.pending = w.pending + 1 → w'.idle = w.idle → w'.blocked = w.blocked → Step w w'
  | notifyOne : w'.work = w.work → w.pending = w'.pending + 1 → w'.idle = w.idle + 1 → w.blocked = w'.blocked + 1 →
      Step w w'
  | unheard : w'.work = w.work → w.pending = w'.pending + 1 → w'.idle = w.idle → w.blocked = 0 → w'.blocked = 0 →
      Step w w'
  | notifyAll : w'.work = w.work → w'.pending = w.pending → w'.idle = w.idle + w.blocked → w'.blocked = 0 → Step w w'
  | spurious : w'.work = w.work → w'.pending = w.pending → w'.idle = w.idle + 1 → w.blocked = w'.blocked + 1 →
      Step w w'
  | take : w.work = w'.work + 1 → w'.pending = w.pending → w.idle = w'.idle + 1 → w'.blocked = w.blocked → Step w w'
  | resume : w'.work = w.work → w'.pending = w.pending → w'.idle = w.idle + 1 → w'.blocked = w.blocked → Step w w'
  | block : w.work = 0 → w'.work = 0 → w'.pending = w.pending → w.idle = w'.idle + 1 → w'.blocked = w.blocked + 1 →
      Step w w'
  | leave : w.work = 0 → w'.work = 0 → w'.pending = w.pending → w.idle = w'.idle + 1 → w'.blocked = w.blocked →
      Step w w'

def Covered (w : Watch) : Prop := 0 < w.blocked → w.work ≤ w.pending + w.idle

theorem Step.covered {w w' : Watch} (step : Step w w') (covered : w.Covered) : w'.Covered := by
  unfold Covered at covered ⊢
  cases step with
  | stay same => rwa [same]
  | post | notifyOne | unheard | notifyAll | spurious | take | resume | block | leave => omega

end Watch

end VectorDb.Lib
