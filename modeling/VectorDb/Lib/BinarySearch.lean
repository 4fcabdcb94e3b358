import VectorDb.Lib.KeyedList

namespace VectorDb.Lib

section BinarySearch
variable {α : Type}

/-- `while (lo <= hi)` over a vector, with a three-way comparison against the wanted element. -/
def bisect (xs : List α) (cmp : α → Ordering) : Nat → Int → Int → Option α
  | 0, _, _ => none
  | fuel + 1, lo, hi =>
    if lo ≤ hi then
      let mid := lo + (hi - lo) / 2
      match xs[mid.toNat]? with
      | none => none
      | some x =>
        match cmp x with
        | .eq => some x
        | .lt => bisect xs cmp fuel (mid + 1) hi
        | .gt => bisect xs cmp fuel lo (mid - 1)
    else none

theorem bisect_some {xs : List α} {cmp : α → Ordering} {fuel : Nat} {lo hi : Int} {x : α}
    (found : bisect xs cmp fuel lo hi = some x) : x ∈ xs ∧ cmp x = .eq := by
  induction fuel generalizing lo hi with
  | zero => cases found
  | succ fuel ih =>
    rw [bisect] at found
    split at found
    next =>
      dsimp only at found
      split at found
      next => cases found
      next y here =>
        split at found
        next equal =>
          cases found
          exact ⟨List.mem_of_getElem? here, equal⟩
        next => exact ih found
        next => exact ih found
    next => cases found

/-- `while (lo <= hi)` for the first position that reaches a bound. -/
def lowerBound (xs : List α) (reaches : α → Bool) : Nat → Int → Int → Int → Int
  | 0, _, _, candidate => candidate
  | fuel + 1, lo, hi, candidate =>
    if lo ≤ hi then
      let mid := lo + (hi - lo) / 2
      if xs[mid.toNat]?.any reaches then lowerBound xs reaches fuel lo (mid - 1) mid
      else lowerBound xs reaches fuel (mid + 1) hi candidate
    else candidate

variable {β : Type} [LinearOrder β] {key : α → β}

private theorem ascending_le {xs : List α} (ascending : Ascending key xs) {i j : Nat} (insideI : i < xs.length)
    (insideJ : j < xs.length) (le : i ≤ j) : key xs[i] ≤ key xs[j] := by
  rcases Nat.lt_or_eq_of_le le with before | rfl
  · exact (List.pairwise_iff_getElem.mp ascending i j insideI insideJ before).le
  · exact le_rfl

private theorem find_crossed {xs : List α} {k : β} {lo hi : Int} (crossed : hi < lo)
    (inside : ∀ (i : Nat) (bound : i < xs.length), key xs[i] = k → lo ≤ i ∧ (i : Int) ≤ hi) :
    find key xs k = none := by
  refine (find_eq_none key).mpr fun e member same => ?_
  obtain ⟨i, bound, rfl⟩ := List.getElem_of_mem member
  obtain ⟨left, right⟩ := inside i bound same
  omega

private theorem bisect_between {xs : List α} (ascending : Ascending key xs) (k : β) (fuel : Nat) (lo hi : Int)
    (start : 0 ≤ lo) (stop : hi < xs.length) (enough : hi - lo < fuel)
    (inside : ∀ (i : Nat) (bound : i < xs.length), key xs[i] = k → lo ≤ i ∧ (i : Int) ≤ hi) :
    bisect xs (fun x => compare (key x) k) fuel lo hi = find key xs k := by
  induction fuel generalizing lo hi with
  | zero => rw [bisect, find_crossed (by omega) inside]
  | succ fuel ih =>
    rw [bisect]
    split
    next le =>
      obtain ⟨mid, midEq⟩ : ∃ mid : Nat, (mid : Int) = lo + (hi - lo) / 2 := ⟨(lo + (hi - lo) / 2).toNat, by omega⟩
      have bound : mid < xs.length := by omega
      simp only [← midEq, Int.toNat_natCast, List.getElem?_eq_getElem bound]
      rcases order : compare (key xs[mid]) k with _ | _ | _
      · have less := compare_lt_iff_lt.mp order
        refine ih (mid + 1) hi (by omega) stop (by omega) fun i inList same => ⟨?_, (inside i inList same).2⟩
        by_contra before
        have le := ascending_le ascending inList bound (by omega)
        exact absurd less (not_lt.mpr (same ▸ le))
      · have same := compare_eq_iff_eq.mp order
        exact (same ▸ find_mem key ascending (List.getElem_mem bound)).symm
      · have greater := compare_gt_iff_gt.mp order
        refine ih lo (mid - 1) start (by omega) (by omega) fun i inList same => ⟨(inside i inList same).1, ?_⟩
        by_contra after
        have le := ascending_le ascending bound inList (by omega)
        exact absurd greater (not_lt.mpr (same ▸ le))
    next gt => exact (find_crossed (by omega) inside).symm

theorem bisect_eq_find {xs : List α} (ascending : Ascending key xs) (k : β) :
    bisect xs (fun x => compare (key x) k) xs.length 0 (xs.length - 1) = find key xs k :=
  bisect_between ascending k _ _ _ le_rfl (by omega) (by omega) fun i bound _ => by omega

def IsLowerBound (xs : List α) (reaches : α → Bool) (candidate : Int) : Prop :=
  (candidate = -1 ∧ ∀ x ∈ xs, reaches x = false) ∨
    ∃ (n : Nat) (bound : n < xs.length), candidate = n ∧ reaches xs[n] ∧ ∀ x ∈ xs.take n, reaches x = false

private structure Narrowed (xs : List α) (reaches : α → Bool) (lo hi candidate : Int) : Prop where
  start : 0 ≤ lo
  ordered : lo ≤ hi + 1
  below : ∀ (i : Nat) (bound : i < xs.length), (i : Int) < lo → reaches xs[i] = false
  above : (hi + 1 = xs.length ∧ candidate = -1) ∨
    ∃ (n : Nat) (bound : n < xs.length), (n : Int) = hi + 1 ∧ candidate = n ∧ reaches xs[n]

private theorem Narrowed.crossed {xs : List α} {reaches : α → Bool} {lo hi candidate : Int}
    (narrowed : Narrowed xs reaches lo hi candidate) (crossed : hi < lo) : IsLowerBound xs reaches candidate := by
  have below : ∀ n : Nat, (n : Int) ≤ lo → ∀ x ∈ xs.take n, reaches x = false := by
    intro n le x member
    obtain ⟨i, bound, rfl⟩ := List.getElem_of_mem member
    rw [List.length_take] at bound
    rw [List.getElem_take]
    exact narrowed.below i (by omega) (by omega)
  have ordered := narrowed.ordered
  rcases narrowed.above with ⟨stop, rfl⟩ | ⟨n, bound, atHi, rfl, hit⟩
  · exact .inl ⟨rfl, by simpa using below xs.length (by omega)⟩
  · exact .inr ⟨n, bound, rfl, hit, below n (by omega)⟩

private theorem lowerBound_between {xs : List α} {reaches : α → Bool}
    (monotone : xs.Pairwise fun a b => reaches a → reaches b) (fuel : Nat) (lo hi candidate : Int)
    (enough : hi - lo < fuel) (narrowed : Narrowed xs reaches lo hi candidate) :
    IsLowerBound xs reaches (lowerBound xs reaches fuel lo hi candidate) := by
  induction fuel generalizing lo hi candidate with
  | zero => exact narrowed.crossed (by omega)
  | succ fuel ih =>
    obtain ⟨start, ordered, below, above⟩ := narrowed
    rw [lowerBound]
    split
    next le =>
      obtain ⟨mid, midEq⟩ : ∃ mid : Nat, (mid : Int) = lo + (hi - lo) / 2 := ⟨(lo + (hi - lo) / 2).toNat, by omega⟩
      have bound : mid < xs.length := by
        rcases above with ⟨stop, -⟩ | ⟨n, inside, atHi, -⟩ <;> omega
      simp only [← midEq, Int.toNat_natCast, List.getElem?_eq_getElem bound, Option.any_some]
      split
      next hit =>
        exact ih lo (mid - 1) mid (by omega) ⟨start, by omega, below, .inr ⟨mid, bound, by omega, rfl, hit⟩⟩
      next miss =>
        refine ih (mid + 1) hi candidate (by omega) ⟨by omega, by omega, fun i inList before => ?_, above⟩
        rcases Nat.lt_or_eq_of_le (show i ≤ mid by omega) with earlier | rfl
        · have step := List.pairwise_iff_getElem.mp monotone i mid inList bound earlier
          simpa using fun hit => miss (step hit)
        · simpa using miss
    next gt => exact Narrowed.crossed ⟨start, ordered, below, above⟩ (by omega)

theorem lowerBound_isLowerBound {xs : List α} {reaches : α → Bool}
    (monotone : xs.Pairwise fun a b => reaches a → reaches b) :
    IsLowerBound xs reaches (lowerBound xs reaches xs.length 0 (xs.length - 1) (-1)) :=
  lowerBound_between monotone _ _ _ _ (by omega) ⟨le_rfl, by omega, fun i _ before => by omega, .inl ⟨by omega, rfl⟩⟩

end BinarySearch

end VectorDb.Lib
