import Mathlib.Tactic

namespace VectorDb.Lib

/-- A program that decodes a buffer of `β` through a running offset: `check` compares the offset plus
a length with the size, `copy` takes as many items from the offset and moves past them. Nothing ties
a `copy` to an earlier `check`. -/
inductive Decoder (β ε α : Type) where
  | done (a : α)
  | fail (e : ε)
  | check (required : Nat) (e : ε) (next : Decoder β ε α)
  | copy (width : Nat) (next : List β → Decoder β ε α)

namespace Decoder

variable {β ε α γ : Type}

protected def bind : Decoder β ε α → (α → Decoder β ε γ) → Decoder β ε γ
  | done a, f => f a
  | fail e, _ => fail e
  | check required e next, f => check required e (next.bind f)
  | copy width next, f => copy width fun items => (next items).bind f

instance : Monad (Decoder β ε) where
  pure := done
  bind := Decoder.bind

def require (required : Nat) (e : ε) : Decoder β ε Unit := check required e (done ())

def take (width : Nat) : Decoder β ε (List β) := copy width done

def eval (buffer : List β) : Decoder β ε α → Nat → Except ε (α × Nat)
  | done a, offset => .ok (a, offset)
  | fail e, _ => .error e
  | check required e next, offset =>
    if offset + required > buffer.length then .error e else next.eval buffer offset
  | copy width next, offset => (next ((buffer.drop offset).take width)).eval buffer (offset + width)

structure Access where
  offset : Nat
  length : Nat
deriving DecidableEq, Repr

structure Run (ε α : Type) where
  result : Except ε α
  finish : Nat
  checks : List Access
  copies : List Access

def run (modulus : Nat) (buffer : List β) : Decoder β ε α → Nat → Run ε α
  | done a, offset => ⟨.ok a, offset, [], []⟩
  | fail e, offset => ⟨.error e, offset, [], []⟩
  | check required e next, offset =>
    let rest := if (offset + required) % modulus > buffer.length then ⟨.error e, offset, [], []⟩
      else next.run modulus buffer offset
    { rest with checks := ⟨offset, required⟩ :: rest.checks }
  | copy width next, offset =>
    let rest := (next ((buffer.drop offset).take width)).run modulus buffer ((offset + width) % modulus)
    { rest with copies := ⟨offset, width⟩ :: rest.copies }

structure Run.Inside (modulus size : Nat) (run : Run ε α) : Prop where
  checks : ∀ access ∈ run.checks, access.offset ≤ size ∧ access.offset + access.length < modulus
  copies : ∀ access ∈ run.copies, access.offset + access.length ≤ size
  finish : run.finish ≤ size
  refused : ∀ access ∈ run.checks, size < access.offset + access.length → ∃ e, run.result = .error e

/-- Every `copy` takes no more than the checks before it left room for. At the end the result and the
room that is left meet the postcondition. -/
def Guarded (reach : Nat) : Decoder β ε α → Nat → (α → Nat → Prop) → Prop
  | done a, room, post => post a room
  | fail _, _, _ => True
  | check required _ next, room, post => required ≤ reach ∧ next.Guarded reach (max room required) post
  | copy width next, room, post =>
    width ≤ room ∧ ∀ items, items.length = width → (next items).Guarded reach (room - width) post

def Consumes (least : Nat) (d : Decoder β ε α) : Prop :=
  ∀ buffer offset a finish, d.eval buffer offset = .ok (a, finish) → offset + least ≤ finish

/-- Wherever these items stand in a buffer, the program reads the value from them and stops behind
them. -/
def Reads (d : Decoder β ε α) (items : List β) (a : α) : Prop :=
  ∀ front back, d.eval (front ++ (items ++ back)) front.length = .ok (a, front.length + items.length)

variable {buffer : List β} {d : Decoder β ε α} {f : α → Decoder β ε γ} {offset reach room : Nat}

@[simp] theorem eval_pure (a : α) : (pure a : Decoder β ε α).eval buffer offset = .ok (a, offset) := rfl

@[simp] theorem eval_bind :
    (d >>= f).eval buffer offset = d.eval buffer offset >>= fun read => (f read.1).eval buffer read.2 := by
  change (d.bind f).eval buffer offset = _
  induction d generalizing offset with
  | done => rfl
  | fail => rfl
  | check required e next ih =>
    simp only [Decoder.bind, eval]
    split
    next => rfl
    next => exact ih
  | copy width next ih => exact ih _

theorem eval_require (required : Nat) (e : ε) : (require required e).eval buffer offset =
    if offset + required > buffer.length then .error e else .ok ((), offset) := rfl

theorem eval_take (width : Nat) : (take width : Decoder β ε (List β)).eval buffer offset =
    .ok ((buffer.drop offset).take width, offset + width) := rfl

theorem guarded_pure {post : α → Nat → Prop} (a : α) (holds : post a room) :
    (pure a : Decoder β ε α).Guarded reach room post := holds

theorem guarded_bind {post : γ → Nat → Prop} :
    (d >>= f).Guarded reach room post ↔ d.Guarded reach room fun a room => (f a).Guarded reach room post := by
  change (d.bind f).Guarded reach room post ↔ _
  induction d generalizing room with
  | done => rfl
  | fail => rfl
  | check required e next ih => exact and_congr_right fun _ => ih
  | copy width next ih => exact and_congr_right fun _ => forall₂_congr fun items _ => ih items

theorem Guarded.weaken {post weaker : α → Nat → Prop} (guarded : d.Guarded reach room post)
    (implies : ∀ a room, post a room → weaker a room) : d.Guarded reach room weaker := by
  induction d generalizing room with
  | done a => exact implies a room guarded
  | fail => trivial
  | check required e next ih => exact ⟨guarded.1, ih guarded.2⟩
  | copy width next ih => exact ⟨guarded.1, fun items length => ih items (guarded.2 items length)⟩

theorem Guarded.wider {reach' : Nat} {post : α → Nat → Prop} (guarded : d.Guarded reach room post)
    (wide : reach ≤ reach') : d.Guarded reach' room post := by
  induction d generalizing room with
  | done a => exact guarded
  | fail => trivial
  | check required e next ih => exact ⟨guarded.1.trans wide, ih guarded.2⟩
  | copy width next ih => exact ⟨guarded.1, fun items length => ih items (guarded.2 items length)⟩

theorem Guarded.bind {middle : α → Nat → Prop} {post : γ → Nat → Prop} (first : d.Guarded reach room middle)
    (rest : ∀ a room, middle a room → (f a).Guarded reach room post) : (d >>= f).Guarded reach room post :=
  guarded_bind.mpr (first.weaken rest)

theorem length_slice {width : Nat} (inside : offset + width ≤ buffer.length) :
    ((buffer.drop offset).take width).length = width := by
  simp
  omega

theorem Guarded.inside {modulus : Nat} {post : α → Nat → Prop} (guarded : d.Guarded reach room post)
    (roomy : offset + room ≤ buffer.length) (small : buffer.length + reach < modulus) :
    (d.run modulus buffer offset).Inside modulus buffer.length ∧
      (d.run modulus buffer offset).result = (d.eval buffer offset).map Prod.fst := by
  induction d generalizing offset room with
  | done a => exact ⟨⟨by simp [run], by simp [run], by simp [run]; omega, by simp [run]⟩, rfl⟩
  | fail e => exact ⟨⟨by simp [run], by simp [run], by simp [run]; omega, by simp [run]⟩, rfl⟩
  | check required e next ih =>
    obtain ⟨within, guarded⟩ := guarded
    have noWrap : (offset + required) % modulus = offset + required := Nat.mod_eq_of_lt (by omega)
    by_cases short : offset + required > buffer.length
    · simp only [run, eval, noWrap, if_pos short]
      refine ⟨⟨?_, by simp, ?_, fun _ _ _ => ⟨e, rfl⟩⟩, rfl⟩
      · simp
        omega
      · simp
        omega
    · simp only [run, eval, noWrap, if_neg short]
      have rest : offset + max room required ≤ buffer.length := by omega
      obtain ⟨inside, result⟩ := ih guarded rest
      refine ⟨⟨?_, inside.copies, inside.finish, ?_⟩, result⟩
      · rintro access (_ | ⟨_, later⟩)
        · exact ⟨by simp; omega, by simp; omega⟩
        · exact inside.checks access later
      · rintro access (_ | ⟨_, later⟩) refused
        · exact absurd refused short
        · exact inside.refused access later refused
  | copy width next ih =>
    obtain ⟨within, guarded⟩ := guarded
    have noWrap : (offset + width) % modulus = offset + width := Nat.mod_eq_of_lt (by omega)
    have slice : ((buffer.drop offset).take width).length = width := length_slice (by omega)
    have rest : offset + width + (room - width) ≤ buffer.length := by omega
    simp only [run, eval, noWrap]
    obtain ⟨inside, result⟩ := ih _ (guarded _ slice) rest
    refine ⟨⟨inside.checks, ?_, inside.finish, inside.refused⟩, result⟩
    rintro access (_ | ⟨_, later⟩)
    · simp
      omega
    · exact inside.copies access later

theorem Guarded.eval_ok {post : α → Nat → Prop} {a : α} {finish : Nat} (guarded : d.Guarded reach room post)
    (roomy : offset + room ≤ buffer.length) (read : d.eval buffer offset = .ok (a, finish)) :
    ∃ left, post a left ∧ finish + left ≤ buffer.length := by
  induction d generalizing offset room with
  | done b =>
    cases read
    exact ⟨room, guarded, roomy⟩
  | fail e => cases read
  | check required e next ih =>
    simp only [eval] at read
    split at read
    next => cases read
    next => exact ih guarded.2 (by omega) read
  | copy width next ih =>
    have := guarded.1
    exact ih _ (guarded.2 _ (length_slice (by omega))) (by omega) read

theorem Guarded.eval_append {post : α → Nat → Prop} {read : α × Nat} (guarded : d.Guarded reach room post)
    (roomy : offset + room ≤ buffer.length) (more : List β) (ok : d.eval buffer offset = .ok read) :
    d.eval (buffer ++ more) offset = .ok read := by
  induction d generalizing offset room with
  | done b => exact ok
  | fail e => cases ok
  | check required e next ih =>
    simp only [eval] at ok ⊢
    split at ok
    next => cases ok
    next long =>
      rw [if_neg (by simp; omega)]
      exact ih guarded.2 (by omega) ok
  | copy width next ih =>
    have within := guarded.1
    have same : ((buffer ++ more).drop offset).take width = (buffer.drop offset).take width := by
      rw [List.drop_append_of_le_length (by omega), List.take_append_of_le_length (by simp; omega)]
    simp only [eval, same]
    exact ih _ (guarded.2 _ (length_slice (by omega))) (by omega) ok

theorem Reads.eval_eq {items : List β} {a : α} (reads : d.Reads items a) :
    d.eval items 0 = .ok (a, items.length) := by
  have whole := reads [] []
  simpa using whole

theorem reads_pure (a : α) : (pure a : Decoder β ε α).Reads [] a := by
  intro front back
  rfl

theorem Reads.bind {items later : List β} {a : α} {c : γ} (first : d.Reads items a) (rest : (f a).Reads later c) :
    (d >>= f).Reads (items ++ later) c := by
  intro front back
  have behind := rest (front ++ items) back
  rw [List.length_append, List.append_assoc] at behind
  rw [eval_bind, List.append_assoc, first]
  simp only [Bind.bind, Except.bind]
  rw [behind, List.length_append, Nat.add_assoc]

theorem Reads.bind_pure {items : List β} {a : α} (first : d.Reads items a) (g : α → γ) :
    (d >>= fun a => pure (g a)).Reads items (g a) := by
  have reads := first.bind (f := fun a => pure (g a)) (reads_pure (g a))
  rwa [List.append_nil] at reads

theorem Reads.truncated {post : α → Nat → Prop} {items part : List β} {a : α} (reads : d.Reads items a)
    (guarded : d.Guarded reach 0 post) (front : List β) (initial : part <+: items) (cut : part ≠ items) :
    ∃ e, d.eval (front ++ part) front.length = .error e := by
  obtain ⟨more, rfl⟩ := initial
  have start : front.length + 0 ≤ (front ++ part).length := by simp
  cases short : d.eval (front ++ part) front.length with
  | error e => exact ⟨e, rfl⟩
  | ok read =>
    obtain ⟨b, finish⟩ := read
    obtain ⟨left, -, inside⟩ := guarded.eval_ok start short
    have again := guarded.eval_append start more short
    have whole := reads front []
    rw [List.append_nil, ← List.append_assoc, again] at whole
    cases whole
    rw [List.length_append, List.length_append] at inside
    have none : more = [] := List.length_eq_zero_iff.mp (by omega)
    exact absurd (by rw [none, List.append_nil]) cut

theorem Consumes.bind {least total : Nat} (first : d.Consumes least) (rest : ∀ a, (f a).Consumes (total - least)) :
    (d >>= f).Consumes total := by
  intro buffer offset c finish ok
  rw [eval_bind] at ok
  cases read : d.eval buffer offset with
  | error e =>
    rw [read] at ok
    cases ok
  | ok middle =>
    rw [read] at ok
    have moved := first buffer offset middle.1 middle.2 read
    have moved' := rest middle.1 buffer middle.2 c finish ok
    omega

theorem Consumes.refuses {post : α → Nat → Prop} {least : Nat} (consumes : d.Consumes least)
    (guarded : d.Guarded reach 0 post) (inside : offset ≤ buffer.length) (short : buffer.length < offset + least) :
    ∃ e, d.eval buffer offset = .error e := by
  cases read : d.eval buffer offset with
  | error e => exact ⟨e, rfl⟩
  | ok read' =>
    obtain ⟨left, -, fits⟩ := guarded.eval_ok inside read
    have moved := consumes buffer offset read'.1 read'.2 read
    omega

theorem consumes_pure (a : α) : (pure a : Decoder β ε α).Consumes 0 := by
  intro buffer offset b finish ok
  cases ok
  exact le_rfl

theorem Consumes.weaken {least less : Nat} (consumes : d.Consumes least) (le : less ≤ least) : d.Consumes less := by
  intro buffer offset a finish ok
  have := consumes buffer offset a finish ok
  omega

end Decoder

end VectorDb.Lib
