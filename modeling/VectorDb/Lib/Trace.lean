import Mathlib.Tactic

namespace VectorDb.Lib

variable {σ α : Type}

/-- The runs of a labelled transition relation, with the labels of their steps. -/
inductive Trace (step : σ → α → σ → Prop) (start : σ) : List α → σ → Prop
  | nil : Trace step start [] start
  | snoc {labels : List α} {before after : σ} {label : α} :
      Trace step start labels before → step before label after → Trace step start (labels ++ [label]) after

def guarded (allowed : σ → α → Prop) (step : σ → α → σ → Prop) (before : σ) (label : α) (after : σ) : Prop :=
  allowed before label ∧ step before label after

namespace Trace

variable {step : σ → α → σ → Prop} {start : σ} {labels : List α} {state : σ}

theorem induct {P : List α → σ → Prop} (first : P [] start)
    (kept : ∀ labels before label after, Trace step start labels before → P labels before →
      step before label after → P (labels ++ [label]) after)
    (trace : Trace step start labels state) : P labels state := by
  induction trace with
  | nil => exact first
  | snoc trace next ih => exact kept _ _ _ _ trace ih next

theorem cons {first : σ} {label : α} (next : step first label start) (trace : Trace step start labels state) :
    Trace step first (label :: labels) state := by
  induction trace with
  | nil => exact .snoc .nil next
  | snoc _ last ih => exact .snoc ih last

theorem unguarded {allowed : σ → α → Prop} (trace : Trace (guarded allowed step) start labels state) :
    Trace step start labels state := by
  induction trace with
  | nil => exact .nil
  | snoc _ next ih => exact .snoc ih next.2

end Trace

end VectorDb.Lib
