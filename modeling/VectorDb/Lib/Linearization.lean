import VectorDb.Lib.Interleaving

namespace VectorDb.Lib.Pool

variable {ε σ π ι E : Type}

/-- The effects of the threads in the order in which they take place. `past` is the effect that a thread has
had when it is at a phase. -/
def effects (past : π → Option E) (moves : List (Move π ι)) : List (ι × E) :=
  moves.filterMap fun move => if (past move.source).isNone then (past move.target).map (Prod.mk move.thread) else none

section Effects
variable {past : π → Option E} {step : π → Option (Action ε σ π)} {start pool : Pool σ π ι} {moves : List (Move π ι)}

theorem effects_concat_new {move : Move π ι} {e : E} (before : past move.source = none) (after : past move.target = some e) :
    effects past (moves ++ [move]) = effects past moves ++ [(move.thread, e)] := by
  simp [effects, before, after]

theorem effects_concat_old {move : Move π ι} (same : past move.target = past move.source) :
    effects past (moves ++ [move]) = effects past moves := by
  cases before : past move.source <;> simp [effects, same, before]

def Commits (past : π → Option E) (step : π → Option (Action ε σ π)) : Prop :=
  ∀ source target x state state', step source = some x → x state = .ok target state' →
    past target = past source ∨ past source = none ∧ ∃ e, past target = some e

variable [DecidableEq ι]

theorem mem_effects (commits : Commits past step) (fresh : ∀ i, past (start.phase i) = none)
    (run : Run step start moves pool) (i : ι) (e : E) : (i, e) ∈ effects past moves ↔ past (pool.phase i) = some e := by
  refine run.induct (P := fun moves pool => ∀ i e, (i, e) ∈ effects past moves ↔ past (pool.phase i) = some e)
    (by simp [effects, fresh]) ?_ i e
  intro moves pool j x target state _ ih steps ran i e
  rcases commits _ _ _ _ _ steps ran with same | ⟨before, e', after⟩
  · rw [effects_concat_old same, ih]
    by_cases here : i = j
    · subst here
      rw [after_phase_self, same]
    · rw [after_phase_of_ne _ here]
  · rw [effects_concat_new before after, List.mem_append, ih, List.mem_singleton, Prod.mk.injEq]
    by_cases here : i = j
    · subst here
      simp [before, after, eq_comm]
    · rw [after_phase_of_ne _ here]
      simp [here]

theorem effects_once (commits : Commits past step) (fresh : ∀ i, past (start.phase i) = none)
    (run : Run step start moves pool) : ((effects past moves).map Prod.fst).Nodup := by
  refine run.induct (P := fun moves _ => ((effects past moves).map Prod.fst).Nodup) (by simp [effects]) ?_
  intro moves pool j x target state before once steps ran
  rcases commits _ _ _ _ _ steps ran with same | ⟨none, e, after⟩
  · rwa [effects_concat_old same]
  · rw [effects_concat_new none after, List.map_append, List.map_singleton]
    refine once.append (List.nodup_singleton j) ?_
    rw [List.disjoint_singleton]
    intro member
    obtain ⟨⟨i, e'⟩, inside, rfl⟩ := List.mem_map.mp member
    rw [mem_effects commits fresh before] at inside
    simp [none] at inside

end Effects

end VectorDb.Lib.Pool
