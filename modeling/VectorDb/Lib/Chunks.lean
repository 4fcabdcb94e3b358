import VectorDb.Lib.KeyedList

namespace VectorDb.Lib

section Load
variable {ε : Type} (weight : ε → Nat)

def load (xs : List ε) : Nat := (xs.map weight).sum

@[simp] theorem load_nil : load weight [] = 0 := rfl

@[simp] theorem load_cons (x : ε) (xs : List ε) : load weight (x :: xs) = weight x + load weight xs := by
  simp [load]

@[simp] theorem load_append (xs ys : List ε) : load weight (xs ++ ys) = load weight xs + load weight ys := by
  simp [load]

theorem load_flatMap {β : Type} (f : β → List ε) (xs : List β) :
    load weight (xs.flatMap f) = load (fun x => load weight (f x)) xs := by
  induction xs with
  | nil => rfl
  | cons x xs ih => rw [List.flatMap_cons, load_append, load_cons, ih]

theorem le_load {x : ε} {xs : List ε} (member : x ∈ xs) : weight x ≤ load weight xs :=
  List.le_sum_of_mem (List.mem_map_of_mem member)

variable {weight}

theorem load_le_load {weight' : ε → Nat} {xs : List ε} (le : ∀ x ∈ xs, weight x ≤ weight' x) :
    load weight xs ≤ load weight' xs :=
  List.sum_le_sum le

theorem length_le_load {n : Nat} {xs : List ε} (heavy : ∀ x ∈ xs, n ≤ weight x) : n * xs.length ≤ load weight xs := by
  induction xs with
  | nil => exact Nat.zero_le _
  | cons x xs ih =>
    have first := heavy x (by simp)
    have rest := ih fun other member => heavy other (by simp [member])
    rw [List.length_cons, load_cons, Nat.mul_succ]
    omega

theorem load_mul (n : Nat) (xs : List ε) : load (fun x => n * weight x) xs = n * load weight xs := by
  simp [load, List.sum_map_mul_left]

theorem load_add_const (n : Nat) (xs : List ε) : load (fun x => n + weight x) xs = n * xs.length + load weight xs := by
  rw [load, load, List.sum_map_add, List.map_const', List.sum_replicate, smul_eq_mul, Nat.mul_comm]

theorem load_sublist {xs ys : List ε} (part : xs.Sublist ys) : load weight xs ≤ load weight ys :=
  (part.map weight).sum_le_sum fun _ _ => Nat.zero_le _

theorem load_le_dropLast {bound : Nat} {xs : List ε} (small : ∀ x ∈ xs, weight x ≤ bound) :
    load weight xs ≤ load weight xs.dropLast + bound := by
  rcases List.eq_nil_or_concat xs with rfl | ⟨front, last, rfl⟩
  · simp
  · have := small last (by simp)
    simp
    omega

variable (weight) in
theorem load_upsert_le {α : Type} [LinearOrder α] (key : ε → α) (x : ε) (xs : List ε) :
    load weight (upsert key x xs) ≤ load weight xs + weight x := by
  induction xs with
  | nil => simp [upsert]
  | cons y ys ih =>
    rw [upsert]
    split_ifs <;> simp only [load_cons] <;> omega

variable (weight) in
theorem load_replay_le {α : Type} [LinearOrder α] (key : ε → α) (log xs : List ε) :
    load weight (replay key log xs) ≤ load weight xs + load weight log := by
  induction log generalizing xs with
  | nil => simp [replay]
  | cons x log ih =>
    have first := load_upsert_le weight key x xs
    have rest := ih (upsert key x xs)
    rw [load_cons]
    change load weight (replay key log (upsert key x xs)) ≤ _
    omega

end Load

/-- A list on its way through a greedy split: the parts closed so far and the one being filled. -/
structure Chunks (ε : Type) where
  closed : List (List ε)
  current : List ε

namespace Chunks

variable {ε : Type} (weight : ε → Nat) (limit : Nat)

def start : Chunks ε := ⟨[], []⟩

def push (chunks : Chunks ε) (x : ε) : Chunks ε :=
  if limit ≤ load weight (chunks.current ++ [x]) then ⟨chunks.closed ++ [chunks.current ++ [x]], []⟩
  else ⟨chunks.closed, chunks.current ++ [x]⟩

def contents (chunks : Chunks ε) : List ε := chunks.closed.flatten ++ chunks.current

def parts (chunks : Chunks ε) : List (List ε) :=
  if chunks.current = [] then chunks.closed else chunks.closed ++ [chunks.current]

theorem contents_push (chunks : Chunks ε) (x : ε) :
    (chunks.push weight limit x).contents = chunks.contents ++ [x] := by
  rw [push]
  split_ifs <;> simp [contents]

theorem contents_pushAll (chunks : Chunks ε) (xs : List ε) :
    (xs.foldl (push weight limit) chunks).contents = chunks.contents ++ xs := by
  induction xs generalizing chunks with
  | nil => simp
  | cons x xs ih => rw [List.foldl_cons, ih, contents_push, List.append_assoc, List.singleton_append]

theorem parts_flatten (chunks : Chunks ε) : chunks.parts.flatten = chunks.contents := by
  rw [parts]
  split_ifs with done <;> simp [contents, done]

variable {weight limit}

structure Greedy (weight : ε → Nat) (limit : Nat) (chunks : Chunks ε) : Prop where
  full : ∀ part ∈ chunks.closed, limit ≤ load weight part
  closed : ∀ part ∈ chunks.closed, load weight part.dropLast < limit
  current : load weight chunks.current < limit

theorem greedy_start (positive : 0 < limit) : Greedy weight limit start :=
  ⟨by simp [start], by simp [start], by simpa [start] using positive⟩

namespace Greedy

variable {chunks : Chunks ε}

theorem push (greedy : Greedy weight limit chunks) (x : ε) : Greedy weight limit (chunks.push weight limit x) := by
  have positive : 0 < limit := (Nat.zero_le _).trans_lt greedy.current
  rw [Chunks.push]
  split_ifs with reached
  · refine ⟨fun part member => ?_, fun part member => ?_, by simpa using positive⟩
    · rcases List.mem_append.mp member with old | new
      · exact greedy.full part old
      · exact List.mem_singleton.mp new ▸ reached
    · rcases List.mem_append.mp member with old | new
      · exact greedy.closed part old
      · rw [List.mem_singleton.mp new, List.dropLast_concat]
        exact greedy.current
  · exact ⟨greedy.full, greedy.closed, not_le.mp reached⟩

theorem pushAll (greedy : Greedy weight limit chunks) (xs : List ε) :
    Greedy weight limit (xs.foldl (Chunks.push weight limit) chunks) := by
  induction xs generalizing chunks with
  | nil => exact greedy
  | cons x xs ih => exact ih (greedy.push x)

theorem parts_full (greedy : Greedy weight limit chunks) : ∀ part ∈ chunks.parts.dropLast, limit ≤ load weight part := by
  intro part member
  rw [parts] at member
  split_ifs at member
  · exact greedy.full part (List.mem_of_mem_dropLast member)
  · rw [List.dropLast_concat] at member
    exact greedy.full part member

theorem parts_below (greedy : Greedy weight limit chunks) : ∀ part ∈ chunks.parts, load weight part.dropLast < limit := by
  intro part member
  have last : load weight chunks.current.dropLast < limit :=
    (load_sublist (List.dropLast_sublist chunks.current)).trans_lt greedy.current
  rw [parts] at member
  split_ifs at member
  · exact greedy.closed part member
  · rcases List.mem_append.mp member with old | new
    · exact greedy.closed part old
    · exact List.mem_singleton.mp new ▸ last

end Greedy

end Chunks

end VectorDb.Lib
