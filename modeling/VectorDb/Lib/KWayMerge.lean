import VectorDb.Lib.KeyedList
import VectorDb.Lib.StdAlgorithms

namespace VectorDb.Lib

/-- A sorted run inside the heap of a k-way merge: its first record, its rank (higher wins on equal
keys) and the records behind the first. -/
structure Run (ε : Type) where
  head : ε
  rank : Nat
  rest : List ε

namespace Run

variable {ε α : Type} [LinearOrder α] (key : ε → α)

def records (run : Run ε) : List ε := run.head :: run.rest

def comesAfter (a b : Run ε) : Bool :=
  if key a.head ≠ key b.head then decide (key b.head < key a.head) else decide (a.rank < b.rank)

theorem comesAfter_iff (a b : Run ε) :
    comesAfter key a b = true ↔ key b.head < key a.head ∨ (key a.head = key b.head ∧ a.rank < b.rank) := by
  by_cases same : key a.head = key b.head <;> simp [comesAfter, same]

theorem comesAfter_strictWeakOrder : StrictWeakOrder fun a b : Run ε => comesAfter key a b := by
  constructor
  · intro a b after
    rw [← Bool.not_eq_true, comesAfter_iff]
    rw [comesAfter_iff] at after
    rintro (less | ⟨same, rank⟩)
    · rcases after with less' | ⟨same', -⟩
      · exact absurd less (not_lt.mpr less'.le)
      · exact absurd same' less.ne
    · rcases after with less' | ⟨-, rank'⟩
      · exact absurd same less'.ne
      · omega
  · intro a b c after
    simp only [comesAfter_iff] at after ⊢
    rcases lt_trichotomy (key a.head) (key b.head) with ab | ab | ab
    · right
      rcases after with less | ⟨same, -⟩
      · exact .inl (less.trans ab)
      · exact .inl (same ▸ ab)
    · rcases after with less | ⟨same, rank⟩
      · exact .inr (.inl (ab ▸ less))
      · by_cases low : a.rank < b.rank
        · exact .inl (.inr ⟨ab, low⟩)
        · exact .inr (.inr ⟨ab.symm.trans same, by omega⟩)
    · exact .inl (.inl ab)

def refill (top : Run ε) (heap : List (Run ε)) : List (Run ε) :=
  match top.rest with
  | [] => heap
  | next :: rest => ⟨next, top.rank, rest⟩ :: heap

def size (heap : List (Run ε)) : Nat := (heap.map fun run => run.records.length).sum

end Run

section KWayMerge
variable {ε α : Type} [LinearOrder α] (key : ε → α) (std : StdAlgorithms)

def mergeRuns : Nat → α → List (Run ε) → List ε
  | 0, _, _ => []
  | fuel + 1, last, heap =>
    match std.popHeap (Run.comesAfter key) heap with
    | none => []
    | some (top, heap) =>
      if key top.head = last then mergeRuns fuel last (top.refill heap)
      else top.head :: mergeRuns fuel (key top.head) (top.refill heap)

def Wins (heap : List (Run ε)) (k : α) (e : ε) : Prop :=
  ∃ run ∈ heap, find key run.records k = some e ∧
    ∀ other ∈ heap, (find key other.records k).isSome → other.rank ≤ run.rank

structure Mergeable (last : α) (heap : List (Run ε)) : Prop where
  ascending : ∀ run ∈ heap, Ascending key run.records
  ranks : (heap.map Run.rank).Nodup
  above : ∀ run ∈ heap, last ≤ key run.head

structure SortedRuns (last : α) (heap : List (Run ε)) : Prop where
  ascending : ∀ run ∈ heap, Ascending key run.records
  above : ∀ run ∈ heap, last ≤ key run.head

variable {key std}

theorem Mergeable.sorted {last : α} {heap : List (Run ε)} (mergeable : Mergeable key last heap) :
    SortedRuns key last heap := ⟨mergeable.ascending, mergeable.above⟩

theorem Mergeable.perm {last : α} {heap heap' : List (Run ε)} (mergeable : Mergeable key last heap)
    (perm : heap.Perm heap') : Mergeable key last heap' where
  ascending run member := mergeable.ascending run (perm.mem_iff.mpr member)
  ranks := (perm.map Run.rank).nodup_iff.mp mergeable.ranks
  above run member := mergeable.above run (perm.mem_iff.mpr member)

theorem Wins.perm {heap heap' : List (Run ε)} (perm : heap.Perm heap') {k : α} {e : ε} :
    Wins key heap k e ↔ Wins key heap' k e := by
  simp only [Wins, perm.mem_iff]

theorem wins_unique {last : α} {heap : List (Run ε)} (mergeable : Mergeable key last heap) {k : α} {e e' : ε}
    (wins : Wins key heap k e) (wins' : Wins key heap k e') : e = e' := by
  obtain ⟨run, member, found, highest⟩ := wins
  obtain ⟨run', member', found', highest'⟩ := wins'
  have rank : run.rank = run'.rank :=
    le_antisymm (highest' run member (by simp [found])) (highest run' member' (by simp [found']))
  obtain rfl := List.inj_on_of_nodup_map mergeable.ranks member member' rank
  exact Option.some.inj (found.symm.trans found')

variable (key) in
structure Popped (heap : List (Run ε)) (top : Run ε) (rest : List (Run ε)) : Prop where
  perm : heap.Perm (top :: rest)
  smallest : ∀ other ∈ rest, key top.head ≤ key other.head
  highest : ∀ other ∈ rest, key other.head = key top.head → other.rank ≤ top.rank

theorem popped_of_popHeap {heap rest : List (Run ε)} {top : Run ε}
    (pop : std.popHeap (Run.comesAfter key) heap = some (top, rest)) : Popped key heap top rest := by
  have first := std.popHeap_top _ (Run.comesAfter_strictWeakOrder key) heap top rest pop
  refine ⟨std.popHeap_perm _ heap top rest pop, fun other member => ?_, fun other member same => ?_⟩
  · by_contra less
    have := first other member
    rw [← Bool.not_eq_true, Run.comesAfter_iff] at this
    exact this (.inl (not_le.mp less))
  · by_contra low
    have := first other member
    rw [← Bool.not_eq_true, Run.comesAfter_iff] at this
    exact this (.inr ⟨same.symm, by omega⟩)

theorem mem_refill {top run : Run ε} {rest : List (Run ε)} :
    run ∈ top.refill rest ↔ run ∈ rest ∨ (run.rank = top.rank ∧ run.records = top.rest) := by
  rcases top with ⟨head, rank, _ | ⟨next, behind⟩⟩
  · simp [Run.refill, Run.records]
  · obtain ⟨head', rank', rest'⟩ := run
    simp only [Run.refill, Run.records, List.mem_cons, Run.mk.injEq, List.cons.injEq]
    tauto

section Step
variable {last : α} {heap rest : List (Run ε)} {top : Run ε}

theorem SortedRuns.top_ascending (sorted : SortedRuns key last heap) (popped : Popped key heap top rest) :
    Ascending key top.records := sorted.ascending top (popped.perm.mem_iff.mpr (by simp))

theorem SortedRuns.refill (sorted : SortedRuns key last heap) (popped : Popped key heap top rest) :
    SortedRuns key (key top.head) (top.refill rest) := by
  have topAscending := List.pairwise_cons.mp (sorted.top_ascending popped)
  constructor <;> intro run member
  · rcases mem_refill.mp member with old | ⟨-, records⟩
    · exact sorted.ascending run (popped.perm.mem_iff.mpr (by simp [old]))
    · rw [records]
      exact topAscending.2
  · rcases mem_refill.mp member with old | ⟨-, records⟩
    · exact popped.smallest run old
    · have inRest : run.head ∈ top.rest := by simp [← records, Run.records]
      exact (topAscending.1 _ inRest).le

theorem Mergeable.refill (mergeable : Mergeable key last heap) (popped : Popped key heap top rest) :
    Mergeable key (key top.head) (top.refill rest) := by
  have sorted := mergeable.sorted.refill popped
  refine ⟨sorted.ascending, ?_, sorted.above⟩
  have ranks := (mergeable.perm popped.perm).ranks
  rw [Run.refill]
  cases top.rest with
  | nil => exact (List.nodup_cons.mp ranks).2
  | cons next behind => exact ranks

theorem Popped.size_eq (popped : Popped key heap top rest) : Run.size heap = Run.size (top.refill rest) + 1 := by
  have total : Run.size heap = Run.size (top :: rest) := (popped.perm.map _).sum_eq
  rw [total, Run.refill]
  cases behind : top.rest with
  | nil => simp [Run.size, Run.records, behind, Nat.add_comm]
  | cons next tail =>
    simp [Run.size, Run.records, behind]
    omega

theorem Popped.wins_top (popped : Popped key heap top rest) (mergeable : Mergeable key last heap) :
    Wins key heap (key top.head) top.head := by
  rw [Wins.perm popped.perm]
  refine ⟨top, by simp, by simp [Run.records, find_cons], fun other member found => ?_⟩
  rcases List.mem_cons.mp member with rfl | inRest
  · exact le_rfl
  · obtain ⟨e, found⟩ := Option.isSome_iff_exists.mp found
    obtain ⟨inRun, same⟩ := find_some key found
    refine popped.highest other inRest ?_
    rcases List.mem_cons.mp inRun with rfl | behind
    · exact same
    · have ascending := (mergeable.perm popped.perm).ascending other (by simp [inRest])
      have less := (List.pairwise_cons.mp ascending).1 e behind
      exact le_antisymm (less.le.trans_eq same) (popped.smallest other inRest)

theorem Popped.wins_refill (popped : Popped key heap top rest) {k : α} (other : k ≠ key top.head) (e : ε) :
    Wins key (top.refill rest) k e ↔ Wins key heap k e := by
  have topFind : find key top.records k = find key top.rest k := by
    rw [Run.records, find_cons, if_neg other.symm]
  rw [Wins.perm popped.perm]
  constructor
  · rintro ⟨run, member, found, highest⟩
    have leRun : ∀ run' ∈ top :: rest, (find key run'.records k).isSome → run'.rank ≤ run.rank := by
      intro run' member' isSome
      rcases List.mem_cons.mp member' with rfl | inRest
      · obtain ⟨e', found'⟩ := Option.isSome_iff_exists.mp isSome
        cases behind : run'.rest with
        | nil => simp [topFind, behind] at found'
        | cons next tail =>
          refine highest ⟨next, run'.rank, tail⟩ (by simp [Run.refill, behind]) ?_
          rw [topFind, behind] at found'
          simp [Run.records, found']
      · exact highest run' (mem_refill.mpr (.inl inRest)) isSome
    rcases mem_refill.mp member with old | ⟨rank, records⟩
    · exact ⟨run, by simp [old], found, leRun⟩
    · exact ⟨top, by simp, by rw [topFind, ← records, found], fun run' m i => rank ▸ leRun run' m i⟩
  · rintro ⟨run, member, found, highest⟩
    have leRun : ∀ run' ∈ top.refill rest, (find key run'.records k).isSome → run'.rank ≤ run.rank := by
      intro run' member' isSome
      rcases mem_refill.mp member' with old | ⟨rank, records⟩
      · exact highest run' (by simp [old]) isSome
      · rw [records, ← topFind] at isSome
        exact rank ▸ highest top (by simp) isSome
    rcases List.mem_cons.mp member with rfl | inRest
    · cases behind : run.rest with
      | nil => simp [topFind, behind] at found
      | cons next tail =>
        rw [topFind, behind] at found
        exact ⟨⟨next, run.rank, tail⟩, by simp [Run.refill, behind], found, leRun⟩
    · exact ⟨run, mem_refill.mpr (.inl inRest), found, leRun⟩

theorem Mergeable.le_of_wins (mergeable : Mergeable key last heap) {k : α} {e : ε} (wins : Wins key heap k e) :
    last ≤ k := by
  obtain ⟨run, member, found, -⟩ := wins
  obtain ⟨inRun, rfl⟩ := find_some key found
  rcases List.mem_cons.mp inRun with rfl | behind
  · exact mergeable.above run member
  · exact (mergeable.above run member).trans
      ((List.pairwise_cons.mp (mergeable.ascending run member)).1 e behind).le

theorem Run.size_eq_zero (heap : List (Run ε)) (empty : Run.size heap = 0) : heap = [] := by
  cases heap with
  | nil => rfl
  | cons run heap => simp [Run.size, Run.records] at empty

theorem mem_records_of_refill (popped : Popped key heap top rest) {e : ε}
    (member : ∃ run ∈ top.refill rest, e ∈ run.records) : ∃ run ∈ heap, e ∈ run.records := by
  obtain ⟨run, inRefill, inRun⟩ := member
  rcases mem_refill.mp inRefill with old | ⟨-, records⟩
  · exact ⟨run, popped.perm.mem_iff.mpr (by simp [old]), inRun⟩
  · refine ⟨top, popped.perm.mem_iff.mpr (by simp), List.mem_cons_of_mem _ ?_⟩
    rwa [← records]

theorem mem_mergeRuns {fuel : Nat} {e : ε} (member : e ∈ mergeRuns key std fuel last heap) :
    ∃ run ∈ heap, e ∈ run.records := by
  induction fuel generalizing last heap with
  | zero => simp [mergeRuns] at member
  | succ fuel ih =>
    rw [mergeRuns] at member
    cases pop : std.popHeap (Run.comesAfter key) heap with
    | none => simp [pop] at member
    | some pair =>
      obtain ⟨top, rest⟩ := pair
      have popped := popped_of_popHeap pop
      rw [pop] at member
      dsimp only at member
      split_ifs at member
      · exact mem_records_of_refill popped (ih member)
      · rcases List.mem_cons.mp member with rfl | behind
        · exact ⟨top, popped.perm.mem_iff.mpr (by simp), by simp [Run.records]⟩
        · exact mem_records_of_refill popped (ih behind)

theorem SortedRuns.mergeRuns_ascending (fuel : Nat) (sorted : SortedRuns key last heap) :
    Ascending key (mergeRuns key std fuel last heap) ∧ ∀ e ∈ mergeRuns key std fuel last heap, last < key e := by
  induction fuel generalizing last heap with
  | zero => exact ⟨.nil, by simp [mergeRuns]⟩
  | succ fuel ih =>
    rw [mergeRuns]
    cases pop : std.popHeap (Run.comesAfter key) heap with
    | none => exact ⟨.nil, by simp⟩
    | some pair =>
      obtain ⟨top, rest⟩ := pair
      have popped := popped_of_popHeap pop
      obtain ⟨ascending, above⟩ := ih (sorted.refill popped)
      dsimp only
      split_ifs with same
      · rw [same] at ascending above
        exact ⟨ascending, above⟩
      · have later : last < key top.head :=
          lt_of_le_of_ne (sorted.above top (popped.perm.mem_iff.mpr (by simp))) (Ne.symm same)
        refine ⟨List.pairwise_cons.mpr ⟨above, ascending⟩, fun e member => ?_⟩
        rcases List.mem_cons.mp member with rfl | behind
        · exact later
        · exact later.trans (above e behind)

end Step

variable (key) in
structure Merged (last : α) (heap : List (Run ε)) (out : List ε) : Prop where
  ascending : Ascending key out
  above : ∀ e ∈ out, last < key e
  wins : ∀ k e, last < k → (find key out k = some e ↔ Wins key heap k e)

theorem merged_nil (last : α) : Merged key last [] [] :=
  ⟨List.Pairwise.nil, by simp, fun k e _ => by simp [Wins]⟩

theorem Merged.skip {last : α} {heap rest : List (Run ε)} {top : Run ε} {out : List ε}
    (popped : Popped key heap top rest) (same : key top.head = last) (merged : Merged key last (top.refill rest) out) :
    Merged key last heap out :=
  ⟨merged.ascending, merged.above, fun k e after => by
    rw [merged.wins k e after, popped.wins_refill (by rw [same]; exact after.ne')]⟩

theorem Merged.emit {last : α} {heap rest : List (Run ε)} {top : Run ε} {out : List ε}
    (mergeable : Mergeable key last heap) (popped : Popped key heap top rest) (later : last < key top.head)
    (merged : Merged key (key top.head) (top.refill rest) out) : Merged key last heap (top.head :: out) := by
  refine ⟨List.pairwise_cons.mpr ⟨merged.above, merged.ascending⟩, ?_, fun k e after => ?_⟩
  · intro e member
    rcases List.mem_cons.mp member with rfl | behind
    · exact later
    · exact later.trans (merged.above e behind)
  · rw [find_cons]
    split_ifs with same
    · subst same
      have wins := popped.wins_top mergeable
      exact ⟨fun found => Option.some.inj found ▸ wins, fun wins' => by rw [wins_unique mergeable wins wins']⟩
    · rw [← popped.wins_refill (Ne.symm same)]
      rcases lt_or_gt_of_ne same with above | below
      · exact merged.wins k e above
      · constructor
        · intro found
          obtain ⟨member, rfl⟩ := find_some key found
          exact absurd (merged.above e member) (not_lt.mpr below.le)
        · intro wins
          exact absurd ((mergeable.refill popped).le_of_wins wins) (not_le.mpr below)

theorem mergeRuns_merged (fuel : Nat) (last : α) (heap : List (Run ε)) (mergeable : Mergeable key last heap)
    (enough : Run.size heap ≤ fuel) : Merged key last heap (mergeRuns key std fuel last heap) := by
  induction fuel generalizing last heap with
  | zero =>
    obtain rfl := Run.size_eq_zero heap (by omega)
    exact merged_nil last
  | succ fuel ih =>
    rw [mergeRuns]
    cases pop : std.popHeap (Run.comesAfter key) heap with
    | none =>
      obtain rfl := std.popHeap_none _ heap pop
      exact merged_nil last
    | some pair =>
      obtain ⟨top, rest⟩ := pair
      have popped := popped_of_popHeap pop
      have size := popped.size_eq
      have merged := ih (key top.head) (top.refill rest) (mergeable.refill popped) (by omega)
      have above := (mergeable.perm popped.perm).above top (by simp)
      dsimp only
      split_ifs with same
      · rw [same] at merged
        exact merged.skip popped same
      · exact merged.emit mergeable popped (lt_of_le_of_ne above (Ne.symm same))

end KWayMerge

end VectorDb.Lib
