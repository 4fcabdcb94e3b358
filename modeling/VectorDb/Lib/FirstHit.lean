import Mathlib.Tactic

namespace VectorDb.Lib

section FirstHit
variable {α β : Type} (hit : α → Option β) (before : α → α → Prop)

def FirstHit (xs : List α) (b : β) : Prop :=
  ∃ a ∈ xs, hit a = some b ∧ ∀ other ∈ xs, (hit other).isSome → other = a ∨ before a other

variable {hit before}

theorem FirstHit.congr {xs ys : List α} (same : ∀ a, a ∈ xs ↔ a ∈ ys) (b : β) :
    FirstHit hit before xs b ↔ FirstHit hit before ys b := by
  simp only [FirstHit, same]

theorem FirstHit.congr_holders {hit' : α → Option β} {xs ys : List α}
    (same : ∀ a b, (a ∈ xs ∧ hit a = some b) ↔ (a ∈ ys ∧ hit' a = some b)) (b : β) :
    FirstHit hit before xs b ↔ FirstHit hit' before ys b := by
  have spread : ∀ (hit : α → Option β) (xs : List α), FirstHit hit before xs b ↔ ∃ a, (a ∈ xs ∧ hit a = some b) ∧
      ∀ other c, (other ∈ xs ∧ hit other = some c) → other = a ∨ before a other := by
    intro hit xs
    simp only [FirstHit, Option.isSome_iff_exists, and_assoc, and_imp, forall_exists_index]
    exact exists_congr fun a => and_congr_right fun _ => and_congr_right fun _ =>
      ⟨fun front other c member => front other member c, fun front other member c => front other c member⟩
  rw [spread, spread]
  simp only [same]

theorem FirstHit.unique (asymm : ∀ a b, before a b → ¬ before b a) {xs : List α} {b b' : β}
    (first : FirstHit hit before xs b) (first' : FirstHit hit before xs b') : b = b' := by
  obtain ⟨a, member, found, front⟩ := first
  obtain ⟨a', member', found', front'⟩ := first'
  have same : a = a' := by
    rcases front a' member' (by simp [found']) with eq | less
    · exact eq.symm
    · rcases front' a member (by simp [found]) with eq | less'
      · exact eq
      · exact absurd less' (asymm _ _ less)
  subst same
  exact Option.some.inj (found.symm.trans found')

theorem firstHit_of_findSome {xs : List α} {b : β} (ordered : xs.Pairwise fun a c => ¬ before c a)
    (total : ∀ a ∈ xs, ∀ c ∈ xs, (hit a).isSome → (hit c).isSome → a ≠ c → before a c ∨ before c a)
    (found : xs.findSome? hit = some b) : FirstHit hit before xs b := by
  induction xs with
  | nil => simp at found
  | cons x xs ih =>
    obtain ⟨front, rest⟩ := List.pairwise_cons.mp ordered
    rw [List.findSome?_cons] at found
    cases here : hit x with
    | some c =>
      rw [here] at found
      refine ⟨x, by simp, here.trans found, fun other member holds => ?_⟩
      by_cases same : other = x
      · exact .inl same
      · have behind : other ∈ xs := (List.mem_cons.mp member).resolve_left same
        exact .inr ((total x (by simp) other member (by simp [here]) holds (Ne.symm same)).resolve_right
          (front other behind))
    | none =>
      rw [here] at found
      obtain ⟨a, member, holds, first⟩ := ih rest
        (fun a inA c inC => total a (by simp [inA]) c (by simp [inC])) found
      refine ⟨a, by simp [member], holds, fun other inside isSome => ?_⟩
      rcases List.mem_cons.mp inside with rfl | behind
      · simp [here] at isSome
      · exact first other behind isSome

theorem findSome_eq_some_iff {xs : List α} {b : β} (asymm : ∀ a b, before a b → ¬ before b a)
    (ordered : xs.Pairwise fun a c => ¬ before c a)
    (total : ∀ a ∈ xs, ∀ c ∈ xs, (hit a).isSome → (hit c).isSome → a ≠ c → before a c ∨ before c a) :
    xs.findSome? hit = some b ↔ FirstHit hit before xs b := by
  refine ⟨firstHit_of_findSome ordered total, fun first => ?_⟩
  cases found : xs.findSome? hit with
  | none =>
    obtain ⟨a, member, holds, -⟩ := first
    rw [List.findSome?_eq_none_iff] at found
    simp [found a member] at holds
  | some c => rw [first.unique asymm (firstHit_of_findSome ordered total found)]

theorem findSome_newcomer {xs ys : List α} {a : α} (asymm : ∀ a b, before a b → ¬ before b a)
    (orderedXs : xs.Pairwise fun a c => ¬ before c a) (orderedYs : ys.Pairwise fun a c => ¬ before c a)
    (total : ∀ c ∈ xs, ∀ d ∈ xs, (hit c).isSome → (hit d).isSome → c ≠ d → before c d ∨ before d c)
    (members : ∀ c, c ∈ ys ↔ c ∈ xs ∨ c = a) (front : ∀ c ∈ xs, before a c) :
    ys.findSome? hit = (hit a).or (xs.findSome? hit) := by
  have totalYs : ∀ c ∈ ys, ∀ d ∈ ys, (hit c).isSome → (hit d).isSome → c ≠ d → before c d ∨ before d c := by
    intro c inC d inD heldC heldD distinct
    rcases (members c).mp inC with oldC | rfl <;> rcases (members d).mp inD with oldD | rfl
    · exact total c oldC d oldD heldC heldD distinct
    · exact .inr (front c oldC)
    · exact .inl (front d oldD)
    · exact absurd rfl distinct
  cases here : hit a with
  | some b =>
    rw [Option.some_or, findSome_eq_some_iff asymm orderedYs totalYs]
    refine ⟨a, (members a).mpr (.inr rfl), here, fun other member _ => ?_⟩
    exact ((members other).mp member).symm.imp id (front other)
  | none =>
    rw [Option.none_or]
    refine Option.ext fun b => ?_
    rw [findSome_eq_some_iff asymm orderedYs totalYs, findSome_eq_some_iff asymm orderedXs total]
    refine FirstHit.congr_holders (fun c d => and_congr_left fun found => ?_) b
    rw [members]
    exact or_iff_left fun same => by simp [same ▸ here] at found

theorem findSome_of_ties {xs : List α} {a : α} {b : β} (ordered : xs.Pairwise fun a c => ¬ before c a) (member : a ∈ xs)
    (found : hit a = some b) (front : ∀ other ∈ xs, (hit other).isSome → hit other = some b ∨ before a other) :
    xs.findSome? hit = some b := by
  induction xs with
  | nil => simp at member
  | cons x xs ih =>
    obtain ⟨first, rest⟩ := List.pairwise_cons.mp ordered
    rw [List.findSome?_cons]
    cases here : hit x with
    | some c =>
      rcases List.mem_cons.mp member with rfl | behind
      · exact here.symm.trans found
      · exact here.symm.trans ((front x (by simp) (by simp [here])).resolve_right (first a behind))
    | none =>
      have behind : a ∈ xs := (List.mem_cons.mp member).resolve_left (by rintro rfl; simp [here] at found)
      exact ih rest behind fun other inside => front other (by simp [inside])

theorem findSome_ranked {rank : α → Nat} {xs : List α} (ordered : xs.Pairwise fun a c => rank c < rank a) (b : β) :
    xs.findSome? hit = some b ↔
      ∃ a ∈ xs, hit a = some b ∧ ∀ other ∈ xs, (hit other).isSome → rank other ≤ rank a := by
  have distinct : (xs.map rank).Nodup := by
    rw [List.nodup_iff_pairwise_ne, List.pairwise_map]
    exact ordered.imp fun less => less.ne'
  have same : ∀ a ∈ xs, ∀ c ∈ xs, rank a = rank c → a = c := fun a inA c inC =>
    List.inj_on_of_nodup_map distinct inA inC
  rw [findSome_eq_some_iff (fun _ _ less => Nat.lt_asymm less) (ordered.imp fun less => Nat.lt_asymm less)
    fun a inA c inC _ _ ne => (Nat.lt_or_gt_of_ne fun eq => ne (same a inA c inC eq)).symm]
  constructor
  · rintro ⟨a, member, found, front⟩
    refine ⟨a, member, found, fun other inside holds => ?_⟩
    rcases front other inside holds with rfl | less
    · exact le_rfl
    · exact less.le
  · rintro ⟨a, member, found, front⟩
    refine ⟨a, member, found, fun other inside holds => ?_⟩
    rcases (front other inside holds).eq_or_lt with eq | less
    · exact .inl (same other inside a member eq)
    · exact .inr less

end FirstHit

theorem findSome_congr {hit hit' : α → Option β} {xs : List α} (same : ∀ a ∈ xs, hit a = hit' a) :
    xs.findSome? hit = xs.findSome? hit' := by
  induction xs with
  | nil => rfl
  | cons x xs ih =>
    rw [List.findSome?_cons, List.findSome?_cons, same x (by simp), ih fun a member => same a (by simp [member])]

end VectorDb.Lib
