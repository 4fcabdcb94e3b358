import Mathlib.Tactic

namespace VectorDb.Lib

/-- A computation over a state that may fail. A failure keeps the state it was reached in. -/
abbrev Action (ε σ α : Type) := EStateM ε σ α

namespace Action

variable {ε σ τ α β : Type}

@[simp] theorem pure_eq (a : α) (s : σ) : (pure a : Action ε σ α) s = .ok a s := rfl

@[simp] theorem get_eq (s : σ) : (get : Action ε σ σ) s = .ok s s := rfl

@[simp] theorem set_eq (s' s : σ) : (set s' : Action ε σ PUnit) s = .ok ⟨⟩ s' := rfl

@[simp] theorem modify_eq (f : σ → σ) (s : σ) : (modify f : Action ε σ PUnit) s = .ok ⟨⟩ (f s) := rfl

@[simp] theorem throw_eq (e : ε) (s : σ) : (throw e : Action ε σ α) s = .error e s := rfl

theorem bind_ok {x : Action ε σ α} {f : α → Action ε σ β} {s s'' : σ} {b : β} :
    (x >>= f) s = .ok b s'' ↔ ∃ a s', x s = .ok a s' ∧ f a s' = .ok b s'' := by
  simp only [bind, EStateM.bind]
  cases run : x s with
  | ok a s' => simp
  | error e s' => simp

theorem bind_of_ok {x : Action ε σ α} {s s' : σ} {a : α} (run : x s = .ok a s') (f : α → Action ε σ β) :
    (x >>= f) s = f a s' := by
  simp only [bind, EStateM.bind, run]

theorem bind_of_error {x : Action ε σ α} {s s' : σ} {e : ε} (run : x s = .error e s') (f : α → Action ε σ β) :
    (x >>= f) s = .error e s' := by
  simp only [bind, EStateM.bind, run]

theorem forM_concat_ok {f : β → Action ε σ PUnit} {xs : List β} {x : β} {s s' : σ} :
    (forM (xs ++ [x]) f) s = .ok ⟨⟩ s' ↔ ∃ between, (forM xs f) s = .ok ⟨⟩ between ∧ f x between = .ok ⟨⟩ s' := by
  induction xs generalizing s with
  | nil => simp
  | cons first xs ih =>
    simp only [List.cons_append, List.forM_cons, bind_ok]
    constructor
    · rintro ⟨⟨⟩, next, ran, rest⟩
      obtain ⟨between, before, last⟩ := ih.mp rest
      exact ⟨between, ⟨⟨⟩, next, ran, before⟩, last⟩
    · rintro ⟨between, ⟨⟨⟩, next, ran, before⟩, last⟩
      exact ⟨⟨⟩, next, ran, ih.mpr ⟨between, before, last⟩⟩

theorem except_bind_ok {x : Except ε α} {f : α → Except ε β} {b : β} :
    (x >>= f) = .ok b ↔ ∃ a, x = .ok a ∧ f a = .ok b := by
  cases x <;> simp [bind, Except.bind]

def reads (f : σ → Except ε α) : Action ε σ α := fun s =>
  match f s with
  | .ok a => .ok a s
  | .error e => .error e s

theorem reads_ok {f : σ → Except ε α} {s s' : σ} {a : α} : reads f s = .ok a s' ↔ f s = .ok a ∧ s' = s := by
  rw [reads]
  cases f s <;> simp [eq_comm]

def zoom (part : σ → τ) (put : τ → σ → σ) (x : Action ε τ α) : Action ε σ α := fun s =>
  match x (part s) with
  | .ok a t => .ok a (put t s)
  | .error e t => .error e (put t s)

theorem zoom_ok {part : σ → τ} {put : τ → σ → σ} {x : Action ε τ α} {s s' : σ} {a : α} :
    zoom part put x s = .ok a s' ↔ ∃ t, x (part s) = .ok a t ∧ s' = put t s := by
  rw [zoom]
  cases x (part s) <;> simp [eq_comm]

theorem zoom_bind {part : σ → τ} {put : τ → σ → σ} (part_put : ∀ t s, part (put t s) = t)
    (put_put : ∀ t t' s, put t (put t' s) = put t s) (x : Action ε τ α) (f : α → Action ε τ β) :
    zoom part put (x >>= f) = zoom part put x >>= fun a => zoom part put (f a) := by
  funext s
  simp only [zoom, bind, EStateM.bind]
  cases x (part s) with
  | error e t => rfl
  | ok a t =>
    dsimp only
    rw [part_put]
    cases f a t <;> simp only [put_put]

def attempt (x : Action ε σ α) : Action ε σ (Except ε α) := fun s =>
  match x s with
  | .ok a s' => .ok (.ok a) s'
  | .error e s' => .ok (.error e) s'

theorem attempt_of_ok {x : Action ε σ α} {s s' : σ} {a : α} (run : x s = .ok a s') : attempt x s = .ok (.ok a) s' := by
  simp only [attempt, run]

def final (x : Action ε σ α) (s : σ) : σ :=
  match x s with
  | .ok _ s' => s'
  | .error _ s' => s'

theorem final_of_ok {x : Action ε σ α} {s s' : σ} {a : α} (run : x s = .ok a s') : final x s = s' := by
  simp only [final, run]

theorem final_of_error {x : Action ε σ α} {s s' : σ} {e : ε} (run : x s = .error e s') : final x s = s' := by
  simp only [final, run]

theorem final_bind_of_ok {x : Action ε σ α} {s s' : σ} {a : α} (run : x s = .ok a s') (f : α → Action ε σ β) :
    final (x >>= f) s = final (f a) s' := by
  simp only [final, bind_of_ok run]

theorem final_bind_of_error {x : Action ε σ α} {s s' : σ} {e : ε} (run : x s = .error e s') (f : α → Action ε σ β) :
    final (x >>= f) s = s' :=
  final_of_error (bind_of_error run f)

theorem attempt_run (x : Action ε σ α) (s : σ) : ∃ result, attempt x s = .ok result (final x s) := by
  cases run : x s with
  | ok a s' => exact ⟨.ok a, by rw [attempt_of_ok run, final_of_ok run]⟩
  | error e s' => exact ⟨.error e, by simp only [attempt, final, run]⟩

theorem final_attempt (x : Action ε σ α) (s : σ) : final (attempt x) s = final x s := by
  obtain ⟨result, run⟩ := attempt_run x s
  rw [final_of_ok run]

theorem final_bind_pure (x : Action ε σ α) (f : α → β) (s : σ) : final (x >>= fun a => pure (f a)) s = final x s := by
  cases run : x s with
  | ok a s' =>
    rw [final_bind_of_ok run, final_of_ok run]
    rfl
  | error e s' => rw [final_bind_of_error run, final_of_error run]

theorem final_zoom (part : σ → τ) (put : τ → σ → σ) (x : Action ε τ α) (s : σ) :
    final (zoom part put x) s = put (final x (part s)) s := by
  simp only [final, zoom]
  cases x (part s) <;> rfl

def Succeeds (x : Action ε σ α) (s : σ) : Prop := ∃ a s', x s = .ok a s'

instance (x : Action ε σ α) (s : σ) : Decidable (Succeeds x s) :=
  match ran : x s with
  | .ok a s' => isTrue ⟨a, s', ran⟩
  | .error _ _ => isFalse fun succeeds => by
    obtain ⟨a, s', other⟩ := succeeds
    cases ran.symm.trans other

theorem succeeds_pure (a : α) (s : σ) : Succeeds (pure a : Action ε σ α) s := ⟨a, s, rfl⟩

theorem Succeeds.bind {x : Action ε σ α} {f : α → Action ε σ β} {s : σ} (first : Succeeds x s)
    (next : ∀ a s', x s = .ok a s' → Succeeds (f a) s') : Succeeds (x >>= f) s := by
  obtain ⟨a, s', run⟩ := first
  obtain ⟨b, s'', rest⟩ := next a s' run
  exact ⟨b, s'', bind_ok.mpr ⟨a, s', run, rest⟩⟩

theorem Succeeds.zoom {part : σ → τ} {put : τ → σ → σ} {x : Action ε τ α} {s : σ} (inner : Succeeds x (part s)) :
    Succeeds (zoom part put x) s := by
  obtain ⟨a, t, run⟩ := inner
  exact ⟨a, put t s, zoom_ok.mpr ⟨t, run, rfl⟩⟩

def AllOrNothing (x : Action ε σ Unit) (s : σ) (P : σ → Prop) : Prop :=
  (∃ e, x s = .error e s) ∨ ∃ s', x s = .ok () s' ∧ P s'

namespace AllOrNothing

variable {x : Action ε σ Unit} {s s' : σ} {P : σ → Prop}

theorem of_ok (outcome : AllOrNothing x s P) (run : x s = .ok () s') : P s' := by
  obtain ⟨e, failed⟩ | ⟨t, done, holds⟩ := outcome
  · simp [failed] at run
  · rw [done] at run
    cases run
    exact holds

theorem of_error {e : ε} (outcome : AllOrNothing x s P) (run : x s = .error e s') : s' = s := by
  obtain ⟨e', failed⟩ | ⟨t, done, _⟩ := outcome
  · rw [failed] at run
    cases run
    rfl
  · simp [done] at run

theorem final (outcome : AllOrNothing x s P) : x.final s = s ∨ P (x.final s) := by
  obtain ⟨e, failed⟩ | ⟨t, done, holds⟩ := outcome
  · exact .inl (final_of_error failed)
  · rw [final_of_ok done]
    exact .inr holds

end AllOrNothing

/-- What holds after the computation: `done` if it gives a result, `failed` if it fails. -/
def Ensures (x : Action ε σ α) (s : σ) (done : α → σ → Prop) (failed : σ → Prop) : Prop :=
  match x s with
  | .ok a s' => done a s'
  | .error _ s' => failed s'

namespace Ensures

variable {x : Action ε σ α} {f : α → Action ε σ β} {s s' : σ} {done : α → σ → Prop} {next : β → σ → Prop}
  {failed : σ → Prop}

theorem of_ok {a : α} (ensures : Ensures x s done failed) (run : x s = .ok a s') : done a s' := by
  rwa [Ensures, run] at ensures

theorem of_error {e : ε} (ensures : Ensures x s done failed) (run : x s = .error e s') : failed s' := by
  rwa [Ensures, run] at ensures

theorem of_final {P : σ → Prop} (holds : P (x.final s)) : Ensures x s (fun _ => P) P := by
  rw [final] at holds
  rw [Ensures]
  cases run : x s <;> rw [run] at holds <;> exact holds

theorem final {P : σ → Prop} (ensures : Ensures x s (fun _ => P) P) : P (x.final s) := by
  rw [Ensures] at ensures
  rw [Action.final]
  cases run : x s <;> rw [run] at ensures <;> exact ensures

theorem pure {a : α} (holds : done a s) : Ensures (Pure.pure a : Action ε σ α) s done failed := holds

theorem weaken {done' : α → σ → Prop} {failed' : σ → Prop} (ensures : Ensures x s done failed)
    (results : ∀ a s', done a s' → done' a s') (failures : ∀ s', failed s' → failed' s') :
    Ensures x s done' failed' := by
  rw [Ensures] at *
  cases run : x s <;> rw [run] at ensures
  · exact results _ _ ensures
  · exact failures _ ensures

theorem bind (first : Ensures x s done failed) (rest : ∀ a s', done a s' → Ensures (f a) s' next failed) :
    Ensures (x >>= f) s next failed := by
  rw [Ensures] at first
  cases run : x s with
  | ok a s' =>
    rw [run] at first
    rw [Ensures, bind_of_ok run]
    exact rest a s' first
  | error e s' =>
    rw [run] at first
    rw [Ensures, bind_of_error run]
    exact first

theorem get_bind {f : σ → Action ε σ β} (rest : Ensures (f s) s next failed) :
    Ensures (MonadState.get >>= f) s next failed := by
  rwa [Ensures, bind_of_ok (get_eq s)]

theorem reads_bind {g : σ → Except ε α} (rest : ∀ a, g s = .ok a → Ensures (f a) s next failed)
    (failure : ∀ e, g s = .error e → failed s) : Ensures (reads g >>= f) s next failed := by
  cases read : g s with
  | ok a =>
    rw [Ensures, bind_of_ok (reads_ok.mpr ⟨read, rfl⟩)]
    exact rest a read
  | error e =>
    rw [Ensures, bind_of_error (e := e) (by rw [reads, read])]
    exact failure e read

end Ensures

end Action

end VectorDb.Lib
