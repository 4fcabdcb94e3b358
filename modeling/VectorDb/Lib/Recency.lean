import Mathlib.Data.List.Pairwise
import Mathlib.Tactic

namespace VectorDb.Lib

variable {κ : Type} [DecidableEq κ]

/-- How many events ago the key was used. The newest event comes first, and `none` uses no key. -/
def age (uses : List (Option κ)) (key : κ) : Nat := uses.idxOf (some key)

@[simp] theorem age_idle (uses : List (Option κ)) (key : κ) : age (none :: uses) key = age uses key + 1 :=
  List.idxOf_cons_ne _ (by simp)

@[simp] theorem age_used (uses : List (Option κ)) (key : κ) : age (some key :: uses) key = 0 :=
  List.idxOf_cons_self

theorem age_other (uses : List (Option κ)) {key other : κ} (apart : other ≠ key) :
    age (some other :: uses) key = age uses key + 1 :=
  List.idxOf_cons_ne _ (by simpa using apart)

structure ByRecency (uses : List (Option κ)) (keys : List κ) : Prop where
  used : ∀ key ∈ keys, some key ∈ uses
  ordered : keys.Pairwise fun newer older => age uses newer < age uses older

namespace ByRecency

variable {uses : List (Option κ)} {keys : List κ}

theorem nil : ByRecency uses [] := ⟨by simp, .nil⟩

theorem sublist (recent : ByRecency uses keys) {fewer : List κ} (sublist : fewer.Sublist keys) : ByRecency uses fewer :=
  ⟨fun key member => recent.used key (sublist.subset member), recent.ordered.sublist sublist⟩

theorem idle (recent : ByRecency uses keys) : ByRecency (none :: uses) keys := by
  refine ⟨fun key member => List.mem_cons_of_mem _ (recent.used key member), ?_⟩
  simpa using recent.ordered

theorem touch (recent : ByRecency uses keys) (key : κ) :
    ByRecency (some key :: uses) (key :: keys.filter fun other => other ≠ key) := by
  have others : ∀ other ∈ keys.filter (fun other => other ≠ key), age (some key :: uses) other = age uses other + 1 := by
    intro other member
    have apart : other ≠ key := by simpa using (List.mem_filter.mp member).2
    exact age_other uses apart.symm
  refine ⟨?_, List.pairwise_cons.mpr ⟨?_, ?_⟩⟩
  · intro other member
    rcases List.mem_cons.mp member with rfl | older
    · exact List.mem_cons_self
    · exact List.mem_cons_of_mem _ (recent.used other (List.mem_of_mem_filter older))
  · intro other member
    rw [age_used, others other member]
    exact Nat.succ_pos _
  · refine (recent.ordered.sublist List.filter_sublist).imp_of_mem ?_
    intro newer older isNewer isOlder less
    rw [others newer isNewer, others older isOlder]
    exact Nat.succ_lt_succ less

theorem split {kept dropped : List κ} (recent : ByRecency uses (kept ++ dropped)) :
    ∀ newer ∈ kept, ∀ older ∈ dropped, age uses newer < age uses older :=
  (List.pairwise_append.mp recent.ordered).2.2

end ByRecency

end VectorDb.Lib
