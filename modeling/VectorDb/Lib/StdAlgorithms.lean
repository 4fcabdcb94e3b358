import Mathlib.Data.List.Sort
import Mathlib.Tactic

namespace VectorDb.Lib

structure StrictWeakOrder {α : Type} (lt : α → α → Bool) : Prop where
  asymm : ∀ a b, lt a b = true → lt b a = false
  split : ∀ a b c, lt a c = true → lt a b = true ∨ lt b c = true

/-- What the C++ standard promises of `std::sort` and `std::priority_queue`: the order of
equivalent elements is left open, so every implementation is one of these. -/
structure StdAlgorithms where
  sort : ∀ {α : Type}, (α → α → Bool) → List α → List α
  sort_perm : ∀ {α : Type} (lt : α → α → Bool) (xs : List α), (sort lt xs).Perm xs
  sort_sorted : ∀ {α : Type} (lt : α → α → Bool), StrictWeakOrder lt → ∀ xs : List α,
    (sort lt xs).Pairwise fun a b => lt b a = false
  popHeap : ∀ {α : Type}, (α → α → Bool) → List α → Option (α × List α)
  popHeap_none : ∀ {α : Type} (lt : α → α → Bool) (xs : List α), popHeap lt xs = none → xs = []
  popHeap_perm : ∀ {α : Type} (lt : α → α → Bool) (xs : List α) (top : α) (rest : List α),
    popHeap lt xs = some (top, rest) → xs.Perm (top :: rest)
  popHeap_top : ∀ {α : Type} (lt : α → α → Bool), StrictWeakOrder lt →
    ∀ (xs : List α) (top : α) (rest : List α), popHeap lt xs = some (top, rest) →
      ∀ other ∈ rest, lt top other = false

theorem StdAlgorithms.mem_sort (std : StdAlgorithms) {α : Type} (lt : α → α → Bool) (xs : List α)
    (a : α) : a ∈ std.sort lt xs ↔ a ∈ xs :=
  (std.sort_perm lt xs).mem_iff

section Insertion
variable {α : Type} (lt : α → α → Bool)

private theorem insertion_sorted (weak : StrictWeakOrder lt) (xs : List α) :
    (xs.insertionSort fun a b => lt b a = false).Pairwise fun a b => lt b a = false := by
  let : Std.Total (fun a b : α => lt b a = false) := ⟨fun a b => by
    by_cases less : lt b a = true
    · exact Or.inr (weak.asymm b a less)
    · exact Or.inl (Bool.eq_false_of_not_eq_true less)⟩
  let : IsTrans α (fun a b : α => lt b a = false) := ⟨fun a b c ab bc => by
    by_contra less
    rcases weak.split c b a (Bool.eq_true_of_not_eq_false less) with h | h
    · exact absurd h (by simp [bc])
    · exact absurd h (by simp [ab])⟩
  exact List.pairwise_insertionSort _ xs

private def insertionPop (xs : List α) : Option (α × List α) :=
  match xs.insertionSort fun a b => lt a b = false with
  | [] => none
  | top :: rest => some (top, rest)

def StdAlgorithms.insertion : StdAlgorithms where
  sort lt xs := xs.insertionSort fun a b => lt b a = false
  sort_perm lt xs := List.perm_insertionSort _ xs
  sort_sorted lt weak xs := insertion_sorted lt weak xs
  popHeap lt xs := insertionPop lt xs
  popHeap_none lt xs popped := by
    simp only [insertionPop] at popped
    have perm := List.perm_insertionSort (fun a b => lt a b = false) xs
    cases sorted : xs.insertionSort (fun a b => lt a b = false) with
    | nil => rw [sorted] at perm; exact perm.nil_eq.symm
    | cons top rest => simp [sorted] at popped
  popHeap_perm lt xs top rest popped := by
    simp only [insertionPop] at popped
    have perm := List.perm_insertionSort (fun a b => lt a b = false) xs
    cases sorted : xs.insertionSort (fun a b => lt a b = false) with
    | nil => simp [sorted] at popped
    | cons first others =>
      rw [sorted] at perm popped
      simp only [Option.some.injEq, Prod.mk.injEq] at popped
      rw [← popped.1, ← popped.2]
      exact perm.symm
  popHeap_top lt weak xs top rest popped other member := by
    simp only [insertionPop] at popped
    have flipped : StrictWeakOrder fun a b => lt b a :=
      ⟨fun a b => weak.asymm b a, fun a b c less => (weak.split c b a less).symm⟩
    have sorted := insertion_sorted (fun a b => lt b a) flipped xs
    cases order : xs.insertionSort (fun a b => lt a b = false) with
    | nil => simp [order] at popped
    | cons first others =>
      rw [order] at sorted popped
      simp only [Option.some.injEq, Prod.mk.injEq] at popped
      rw [← popped.2] at member
      rw [← popped.1]
      exact (List.pairwise_cons.mp sorted).1 other member

end Insertion

end VectorDb.Lib
