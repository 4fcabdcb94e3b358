import VectorDb.Lib.Action

namespace VectorDb.Lib

/-- A program of atomic steps. A crash falls between two steps, or inside one and then leaves a
state that `torn` relates to the state before the step. -/
inductive Program (ε σ α : Type) : Type 1 where
  | ret (a : α)
  | step {β : Type} (x : Action ε σ β) (torn : σ → σ → Prop) (next : β → Program ε σ α)

namespace Program

variable {ε σ α β : Type}

def bind : Program ε σ α → (α → Program ε σ β) → Program ε σ β
  | ret a, f => f a
  | step x torn next, f => step x torn fun b => (next b).bind f

instance : Monad (Program ε σ) where
  pure := ret
  bind := bind

def atomic (x : Action ε σ α) : Program ε σ α := step x (fun _ _ => False) ret

def tearing (torn : σ → σ → Prop) (x : Action ε σ α) : Program ε σ α := step x torn ret

def attempt : Program ε σ α → Program ε σ (Except ε α)
  | ret a => ret (.ok a)
  | step x torn next => step (Action.attempt x) torn fun
    | .ok b => (next b).attempt
    | .error e => ret (.error e)

def run : Program ε σ α → Action ε σ α
  | ret a => pure a
  | step x _ next => x >>= fun b => (next b).run

@[simp] theorem run_pure (a : α) : (pure a : Program ε σ α).run = pure a := rfl

@[simp] theorem run_atomic (x : Action ε σ α) : (atomic x).run = x := by
  funext s
  change (x >>= pure) s = x s
  rw [bind_pure]

@[simp] theorem run_tearing (torn : σ → σ → Prop) (x : Action ε σ α) : (tearing torn x).run = x := by
  funext s
  change (x >>= pure) s = x s
  rw [bind_pure]

@[simp] theorem run_bind (p : Program ε σ α) (f : α → Program ε σ β) :
    (p >>= f).run = p.run >>= fun a => (f a).run := by
  induction p with
  | ret a =>
    change (f a).run = pure a >>= _
    rw [pure_bind]
  | step x torn next ih =>
    change (x >>= fun b => ((next b).bind f).run) = (x >>= fun b => (next b).run) >>= _
    rw [bind_assoc]
    exact congrArg (x >>= ·) (funext fun b => ih b)

@[simp] theorem run_attempt (p : Program ε σ α) : p.attempt.run = Action.attempt p.run := by
  induction p with
  | ret a => rfl
  | step x torn next ih =>
    funext s
    simp only [attempt, run, Action.attempt, Bind.bind, EStateM.bind]
    cases x s with
    | ok b s' => exact congrFun (ih b) s'
    | error e s' => rfl

@[simp] theorem run_forM {γ : Type} (xs : List γ) (f : γ → Program ε σ PUnit) :
    (forM xs f : Program ε σ PUnit).run = forM xs fun x => (f x).run := by
  induction xs with
  | nil => rfl
  | cons x xs ih =>
    change (f x >>= fun _ => forM xs f).run = _
    rw [run_bind, ih]
    rfl

section Zoom
variable {τ : Type} (part : σ → τ) (put : τ → σ → σ)

def zoom : Program ε τ α → Program ε σ α
  | ret a => ret a
  | step x torn next => step (Action.zoom part put x) (fun s s' => ∃ t, torn (part s) t ∧ s' = put t s)
    fun b => (next b).zoom

variable {part put} (part_put : ∀ t s, part (put t s) = t) (put_put : ∀ t t' s, put t (put t' s) = put t s)
  (put_part : ∀ s, put (part s) s = s)
include part_put put_put put_part

theorem run_zoom (p : Program ε τ α) : (p.zoom part put).run = Action.zoom part put p.run := by
  induction p with
  | ret a =>
    funext s
    simp [zoom, run, Action.zoom, put_part]
  | step x torn next ih =>
    funext s
    simp only [zoom, run, Action.zoom, Bind.bind, EStateM.bind]
    cases x (part s) with
    | error e t => rfl
    | ok b t =>
      dsimp only
      rw [ih b, Action.zoom, part_put]
      cases (next b).run t <;> simp [put_put]

end Zoom

inductive Crash : Program ε σ α → σ → σ → Prop
  | before (p : Program ε σ α) (s : σ) : Crash p s s
  | during {γ : Type} {x : Action ε σ γ} {torn : σ → σ → Prop} {next : γ → Program ε σ α} {s t : σ} :
      torn s t → Crash (step x torn next) s t
  | failed {γ : Type} {x : Action ε σ γ} {torn : σ → σ → Prop} {next : γ → Program ε σ α} {s t : σ} {e : ε} :
      x s = .error e t → Crash (step x torn next) s t
  | after {γ : Type} {x : Action ε σ γ} {torn : σ → σ → Prop} {next : γ → Program ε σ α} {s s' t : σ} {b : γ} :
      x s = .ok b s' → Crash (next b) s' t → Crash (step x torn next) s t

theorem crash_pure {a : α} {s t : σ} (crash : Crash (pure a : Program ε σ α) s t) : t = s := by
  cases crash
  rfl

theorem crash_bind {p : Program ε σ α} {f : α → Program ε σ β} {s t : σ} (crash : Crash (p >>= f) s t) :
    Crash p s t ∨ ∃ a s', p.run s = .ok a s' ∧ Crash (f a) s' t := by
  induction p generalizing s with
  | ret a => exact .inr ⟨a, s, rfl, crash⟩
  | step x torn next ih =>
    change Crash (step x torn fun b => (next b).bind f) s t at crash
    cases crash with
    | before => exact .inl (.before _ _)
    | during tears => exact .inl (.during tears)
    | failed failed => exact .inl (.failed failed)
    | @after _ _ _ _ _ s' _ b ran crash =>
      rcases ih b crash with inside | ⟨a, s'', rest, later⟩
      · exact .inl (.after ran inside)
      · exact .inr ⟨a, s'', Action.bind_ok.mpr ⟨b, s', ran, rest⟩, later⟩

theorem crash_tearing {torn : σ → σ → Prop} {x : Action ε σ α} {s t : σ} (crash : Crash (tearing torn x) s t) :
    t = s ∨ torn s t ∨ (∃ e, x s = .error e t) ∨ ∃ a, x s = .ok a t := by
  cases crash with
  | before => exact .inl rfl
  | during tears => exact .inr (.inl tears)
  | failed failed => exact .inr (.inr (.inl ⟨_, failed⟩))
  | after ran crash =>
    obtain rfl := crash_pure crash
    exact .inr (.inr (.inr ⟨_, ran⟩))

theorem crash_atomic {x : Action ε σ α} {s t : σ} (crash : Crash (atomic x) s t) :
    t = s ∨ (∃ e, x s = .error e t) ∨ ∃ a, x s = .ok a t := by
  rcases crash_tearing crash with same | tears | rest
  · exact .inl same
  · exact tears.elim
  · exact .inr rest

theorem crash_tearing_bind {torn : σ → σ → Prop} {x : Action ε σ α} {f : α → Program ε σ β} {s s' t : σ} {a : α}
    (ran : x s = .ok a s') (crash : Crash (tearing torn x >>= f) s t) : t = s ∨ torn s t ∨ Crash (f a) s' t := by
  change Crash (step x torn f) s t at crash
  cases crash with
  | before => exact .inl rfl
  | during tears => exact .inr (.inl tears)
  | failed failed => simp [ran] at failed
  | after ran' crash =>
    rw [ran] at ran'
    cases ran'
    exact .inr (.inr crash)

theorem crash_atomic_bind {x : Action ε σ α} {f : α → Program ε σ β} {s s' t : σ} {a : α} (ran : x s = .ok a s')
    (crash : Crash (atomic x >>= f) s t) : t = s ∨ Crash (f a) s' t := by
  rcases crash_tearing_bind ran crash with same | tears | later
  · exact .inl same
  · exact tears.elim
  · exact .inr later

theorem Crash.bind_after {p : Program ε σ α} {f : α → Program ε σ β} {s s' t : σ} {a : α} (ran : p.run s = .ok a s')
    (crash : Crash (f a) s' t) : Crash (p >>= f) s t := by
  induction p generalizing s with
  | ret b =>
    cases ran
    exact crash
  | step x torn next ih =>
    obtain ⟨b, between, first, rest⟩ := Action.bind_ok.mp ran
    exact .after first (ih b rest)

theorem Crash.final (p : Program ε σ α) (s : σ) : Crash p s (p.run.final s) := by
  induction p generalizing s with
  | ret a => exact .before _ _
  | step x torn next ih =>
    cases ran : x s with
    | ok b between =>
      rw [run, Action.final_bind_of_ok ran]
      exact .after ran (ih b between)
    | error e between =>
      rw [run, Action.final_bind_of_error ran]
      exact .failed ran

theorem Crash.ended {p : Program ε σ α} {s s' : σ} {a : α} (ran : p.run s = .ok a s') : Crash p s s' :=
  Action.final_of_ok ran ▸ Crash.final p s

theorem crash_attempt {p : Program ε σ α} {s t : σ} (crash : Crash p.attempt s t) : Crash p s t := by
  induction p generalizing s with
  | ret a =>
    obtain rfl := crash_pure crash
    exact .before _ _
  | step x torn next ih =>
    rw [attempt] at crash
    cases crash with
    | before => exact .before _ _
    | during tears => exact .during tears
    | failed failed =>
      rw [Action.attempt] at failed
      split at failed <;> cases failed
    | after ran crash =>
      rw [Action.attempt] at ran
      split at ran
      next ok =>
        cases ran
        exact .after ok (ih _ crash)
      next error =>
        cases ran
        obtain rfl := crash_pure crash
        exact .failed error

theorem Crash.bind {p : Program ε σ α} {s t : σ} (crash : Crash p s t) (f : α → Program ε σ β) :
    Crash (p >>= f) s t := by
  induction crash with
  | before => exact .before _ _
  | during tears => exact .during tears
  | failed failed => exact .failed failed
  | after ran _ ih => exact .after ran ih

theorem Crash.attempt {p : Program ε σ α} {s t : σ} (crash : Crash p s t) : Crash p.attempt s t := by
  induction crash with
  | before => exact .before _ _
  | during tears =>
    rw [Program.attempt]
    exact .during tears
  | @failed _ x _ _ s t e failed =>
    rw [Program.attempt]
    have caught : Action.attempt x s = .ok (.error e) t := by simp only [Action.attempt, failed]
    exact .after caught (.before _ _)
  | after ran _ ih =>
    rw [Program.attempt]
    exact .after (Action.attempt_of_ok ran) ih

theorem Crash.zoom {τ : Type} {part : σ → τ} {put : τ → σ → σ} (part_put : ∀ t s, part (put t s) = t)
    (put_put : ∀ t t' s, put t (put t' s) = put t s) (put_part : ∀ s, put (part s) s = s) {p : Program ε τ α} {s : σ}
    {t : τ} (crash : Crash p (part s) t) : Crash (p.zoom part put) s (put t s) := by
  generalize start : part s = first at crash
  induction crash generalizing s with
  | before p first =>
    rw [← start, put_part]
    exact .before _ _
  | during tears => exact .during ⟨_, start ▸ tears, rfl⟩
  | @failed _ x _ _ _ t e failed =>
    have zoomed : Action.zoom part put x s = .error e (put t s) := by simp only [Action.zoom, start, failed]
    exact .failed zoomed
  | @after _ _ _ _ _ between last b ran _ ih =>
    have next := ih (part_put between s)
    rw [put_put] at next
    exact .after (Action.zoom_ok.mpr ⟨_, start ▸ ran, rfl⟩) next

theorem crash_forM {γ : Type} {xs : List γ} {f : γ → Program ε σ PUnit} {s t : σ}
    (crash : Crash (forM xs f : Program ε σ PUnit) s t) :
    ∃ early late s', xs = early ++ late ∧ (forM early fun x => (f x).run) s = .ok ⟨⟩ s' ∧
      (t = s' ∨ ∃ x rest, late = x :: rest ∧ Crash (f x) s' t) := by
  induction xs generalizing s with
  | nil => exact ⟨[], [], s, rfl, rfl, .inl (crash_pure crash)⟩
  | cons x xs ih =>
    rcases crash_bind (crash : Crash (f x >>= fun _ => forM xs f) s t) with inside | ⟨⟨⟩, s', ran, later⟩
    · exact ⟨[], x :: xs, s, rfl, rfl, .inr ⟨x, xs, rfl, inside⟩⟩
    · obtain ⟨early, late, s'', rfl, rest, falls⟩ := ih later
      exact ⟨x :: early, late, s'', rfl, Action.bind_ok.mpr ⟨⟨⟩, s', ran, rest⟩, falls⟩

theorem crash_zoom {τ : Type} {part : σ → τ} {put : τ → σ → σ} (part_put : ∀ t s, part (put t s) = t)
    (put_put : ∀ t t' s, put t (put t' s) = put t s) (put_part : ∀ s, put (part s) s = s) {p : Program ε τ α} {s s' : σ}
    (crash : Crash (p.zoom part put) s s') : ∃ t, Crash p (part s) t ∧ s' = put t s := by
  induction p generalizing s with
  | ret a =>
    obtain rfl := crash_pure crash
    exact ⟨_, .before _ _, (put_part _).symm⟩
  | step x torn next ih =>
    cases crash with
    | before => exact ⟨_, .before _ _, (put_part _).symm⟩
    | during tears =>
      obtain ⟨t, tears, same⟩ := tears
      exact ⟨t, .during tears, same⟩
    | failed failed =>
      rw [Action.zoom] at failed
      split at failed
      next => cases failed
      next e t failing =>
        cases failed
        exact ⟨t, .failed failing, rfl⟩
    | @after _ _ _ _ _ between _ b ran crash =>
      obtain ⟨t, inner, rfl⟩ := Action.zoom_ok.mp ran
      obtain ⟨t', inside, rfl⟩ := ih b crash
      rw [part_put] at inside
      exact ⟨t', .after inner inside, put_put _ _ _⟩

section Keeps
variable {τ γ : Type} {view : σ → τ}

/-- Every state that the program can end in, or leave at a crash, looks the same through the view. -/
def Keeps (view : σ → τ) (p : Program ε σ α) : Prop := ∀ s t, Crash p s t → view t = view s

namespace Keeps

theorem pure (a : α) : Keeps view (Pure.pure a : Program ε σ α) := by
  rintro s t crash
  obtain rfl := crash_pure crash
  rfl

theorem tearing {torn : σ → σ → Prop} {x : Action ε σ α} (torn_kept : ∀ s t, torn s t → view t = view s)
    (kept : ∀ s, view (x.final s) = view s) : Keeps view (tearing torn x) := by
  intro s t crash
  rcases crash_tearing crash with rfl | tears | ⟨e, failed⟩ | ⟨a, ran⟩
  · rfl
  · exact torn_kept s t tears
  · rw [← kept s, Action.final_of_error failed]
  · rw [← kept s, Action.final_of_ok ran]

theorem atomic {x : Action ε σ α} (kept : ∀ s, view (x.final s) = view s) : Keeps view (atomic x) :=
  tearing (fun _ _ tears => tears.elim) kept

theorem crash_bind {p : Program ε σ α} {f : α → Program ε σ β} {s t : σ} (first : Keeps view p)
    (crash : Crash (p >>= f) s t) : view t = view s ∨ ∃ a s', view s' = view s ∧ p.run s = .ok a s' ∧ Crash (f a) s' t := by
  rcases Program.crash_bind crash with inside | ⟨a, s', ran, later⟩
  · exact .inl (first s t inside)
  · exact .inr ⟨a, s', first s s' (.ended ran), ran, later⟩

theorem bind {p : Program ε σ α} {f : α → Program ε σ β} (first : Keeps view p) (next : ∀ a, Keeps view (f a)) :
    Keeps view (p >>= f) := by
  intro s t crash
  rcases first.crash_bind crash with same | ⟨a, s', same, -, later⟩
  · exact same
  · exact (next a s' t later).trans same

theorem attempt {p : Program ε σ α} (kept : Keeps view p) : Keeps view p.attempt :=
  fun s t crash => kept s t (crash_attempt crash)

theorem final {p : Program ε σ α} (kept : Keeps view p) (s : σ) : view (p.run.final s) = view s :=
  kept s _ (.final p s)

end Keeps

end Keeps

end Program

end VectorDb.Lib
