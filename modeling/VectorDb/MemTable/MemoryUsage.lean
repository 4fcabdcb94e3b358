import VectorDb.MemTable.SortedMap

namespace VectorDb.Storage.SkipList
open Lib Common

def nodesFrom (s : SkipList) : Nat → Option NodePtr → List NodePtr
  | 0, _ => []
  | _ + 1, none => []
  | fuel + 1, some n => n :: s.nodesFrom fuel (s.next n 0)

def nodes (s : SkipList) : List NodePtr := s.nodesFrom s.size s.begin

def nodeBytes (pf : Platform) (s : SkipList) (n : NodePtr) : Nat :=
  pf.sizeofSkipListNode + (s.heap n).key.length + (s.heap n).value.data.length + s.height n * pf.sizeofPointer

def footprint (pf : Platform) (s : SkipList) : Nat :=
  (empty pf).memoryUsage + (s.nodes.map (s.nodeBytes pf)).sum

/-- What `Put` and `Delete` take off `memory_usage_`: the data of the key's node. -/
def subtracted (s : SkipList) (key : Bytes) : Nat :=
  match s.next (s.search key).1 0 with
  | some n => if (s.heap n).key = key then (s.heap n).value.data.length else 0
  | none => 0

/-- `memory_usage_` is the footprint in 64-bit arithmetic. Where the nodes lie in a 64-bit address
space it is the footprint itself, and no call takes off more than is there. -/
structure Accounted (pf : Platform) (s : SkipList) : Prop where
  congruent : s.memoryUsage ≡ s.footprint pf [MOD 2 ^ 64]
  cleared : ∀ n ∈ s.nodes, (s.heap n).value.isTombstone = true → (s.heap n).value.data.length = 0
  equal : s.footprint pf < 2 ^ 64 → s.memoryUsage = s.footprint pf
  room : s.footprint pf < 2 ^ 64 → ∀ key, s.subtracted key ≤ s.memoryUsage

variable {pf : Platform} {s : SkipList} {order : List NodePtr}

theorem Represents.nodes_eq (rep : s.Represents order) : s.nodes = order := by
  have walk (rest : List NodePtr) (p : Option NodePtr) (fuel : Nat) (linked : s.Linked 0 p rest)
      (enough : rest.length < fuel) : s.nodesFrom fuel p = rest := by
    induction rest generalizing p fuel with
    | nil =>
      obtain rfl : p = none := linked
      cases fuel with
      | zero => simp at enough
      | succ fuel => rfl
    | cons n rest ih =>
      obtain ⟨rfl, linked⟩ := linked
      cases fuel with
      | zero => simp at enough
      | succ fuel => rw [nodesFrom, ih _ fuel linked (by simpa using enough)]
  have linked := rep.linked 0 (by decide)
  rw [rep.lane_zero] at linked
  exact walk order _ s.size linked rep.length_lt

theorem Represents.footprint_eq (rep : s.Represents order) (pf : Platform) :
    s.footprint pf = (empty pf).memoryUsage + (order.map (s.nodeBytes pf)).sum := by
  rw [footprint, rep.nodes_eq]

structure Tracked (pf : Platform) (s : SkipList) (order : List NodePtr) : Prop where
  represents : s.Represents order
  congruent : s.memoryUsage ≡ s.footprint pf [MOD 2 ^ 64]
  reduced : s.memoryUsage < 2 ^ 64 ∨ s.memoryUsage = s.footprint pf
  sizes : ∀ n ∈ order, (s.heap n).value.data.length < 2 ^ 64

theorem tracked_empty (pf : Platform) : Tracked pf (empty pf) [] := by
  have rep := empty_represents pf
  have base : (empty pf).memoryUsage = (empty pf).footprint pf := by
    rw [rep.footprint_eq, List.map_nil, List.sum_nil, Nat.add_zero]
  exact ⟨rep, congrArg (· % 2 ^ 64) base, .inr base, by simp⟩

theorem data_le_footprint (rep : s.Represents order) {n : NodePtr} (member : n ∈ order) :
    (s.heap n).value.data.length ≤ s.footprint pf := by
  have part : s.nodeBytes pf n ≤ (order.map (s.nodeBytes pf)).sum := List.le_sum_of_mem (List.mem_map_of_mem member)
  rw [rep.footprint_eq]
  rw [nodeBytes] at part
  omega

theorem sum_map_update {f g : NodePtr → Nat} {n : NodePtr} (distinct : order.Nodup) (member : n ∈ order)
    (same : ∀ m, m ≠ n → g m = f m) : (order.map g).sum + f n = (order.map f).sum + g n := by
  have front := List.perm_cons_erase member
  have others : (order.erase n).map g = (order.erase n).map f := by
    apply List.map_congr_left
    intro m other
    exact same m (distinct.mem_erase_iff.mp other).1
  rw [(front.map g).sum_eq, (front.map f).sum_eq, List.map_cons, List.map_cons, List.sum_cons, List.sum_cons, others]
  omega

theorem Represents.setValue_footprint (rep : s.Represents order) (pf : Platform) {n : NodePtr} (member : n ∈ order)
    {value : SkipListValue} (cleared : value.isTombstone = true → value.data = []) (counter : Nat) :
    ({ s.setValue n value with memoryUsage := counter } : SkipList).footprint pf + (s.heap n).value.data.length =
      s.footprint pf + value.data.length := by
  set t : SkipList := { s.setValue n value with memoryUsage := counter } with def_t
  have others : ∀ m, m ≠ n → t.nodeBytes pf m = s.nodeBytes pf m := by
    intro m other
    simp [def_t, nodeBytes, height, other]
  have here : t.nodeBytes pf n + (s.heap n).value.data.length = s.nodeBytes pf n + value.data.length := by
    simp only [def_t, nodeBytes, height, setValue_heap_self]
    omega
  have sums := sum_map_update rep.nodup.of_cons member others
  have written : t.Represents order := rep.setValue n value cleared counter
  have after := written.footprint_eq pf
  have before := rep.footprint_eq pf
  omega

namespace Tracked

theorem accounted (tracked : Tracked pf s order) : Accounted pf s := by
  have rep := tracked.represents
  have equal : s.footprint pf < 2 ^ 64 → s.memoryUsage = s.footprint pf := by
    intro addressable
    rcases tracked.reduced with reduced | same
    · exact tracked.congruent.eq_of_lt_of_lt reduced addressable
    · exact same
  refine ⟨tracked.congruent, ?_, equal, ?_⟩
  · intro n member dead
    rw [rep.nodes_eq] at member
    rw [rep.cleared n member dead, List.length_nil]
  · intro addressable key
    rw [equal addressable]
    have found := rep.found_iff key
    rw [subtracted]
    split
    next n stop =>
      split_ifs with same
      · simp only [stop, same, if_true] at found
        exact data_le_footprint rep (find_some s.keyOf found).1
      · exact Nat.zero_le _
    next => exact Nat.zero_le _

theorem inserted (tracked : Tracked pf s order) (key : Bytes) (value : SkipListValue)
    (cleared : value.isTombstone = true → value.data = []) (absent : find s.keyOf order key = none)
    (size : value.data.length < 2 ^ 64) :
    ∃ order', Tracked pf (s.insertNode pf (s.search key).2 key value) order' := by
  obtain ⟨t, order', isInsert, rep, nodes, old, freshKey, freshValue, freshHeight⟩ :=
    tracked.represents.insertNode_nodes pf key value cleared absent
  have usage := insertNode_memoryUsage (s := s) pf (s.search key).2 key value
  rw [← isInsert] at usage ⊢
  have sameBytes : order.map (t.nodeBytes pf) = order.map (s.nodeBytes pf) := by
    apply List.map_congr_left
    intro n member
    obtain ⟨sameKey, sameValue, sameHeight⟩ := old n member
    rw [nodeBytes, nodeBytes, sameKey, sameValue, sameHeight]
  have freshBytes : t.nodeBytes pf s.size =
      pf.sizeofSkipListNode + key.length + value.data.length + (randomHeight pf s.draws).1 * pf.sizeofPointer := by
    rw [nodeBytes, freshKey, freshValue, freshHeight]
  have footprint : t.footprint pf = s.footprint pf + t.nodeBytes pf s.size := by
    rw [rep.footprint_eq, tracked.represents.footprint_eq, (nodes.map _).sum_eq, List.map_cons, List.sum_cons, sameBytes]
    omega
  rw [← freshBytes] at usage
  refine ⟨order', rep, ?_, .inl (usage ▸ Nat.mod_lt _ (by decide)), ?_⟩
  · rw [usage, footprint]
    exact (Nat.mod_modEq _ _).trans (tracked.congruent.add_right _)
  · intro n member
    rcases List.mem_cons.mp (nodes.mem_iff.mp member) with rfl | earlier
    · rwa [freshValue]
    · rw [(old n earlier).2.1]
      exact tracked.sizes n earlier

theorem overwritten (tracked : Tracked pf s order) {n : NodePtr} (member : n ∈ order) (value : SkipListValue)
    (cleared : value.isTombstone = true → value.data = []) (size : value.data.length < 2 ^ 64) {counter : Nat}
    (usage : counter = (s.memoryUsage + 2 ^ 64 - (s.heap n).value.data.length + value.data.length) % 2 ^ 64) :
    Tracked pf { s.setValue n value with memoryUsage := counter } order := by
  have rep := tracked.represents.setValue n value cleared counter
  have footprint := tracked.represents.setValue_footprint pf member cleared counter
  have small := tracked.sizes n member
  refine ⟨rep, ?_, .inl (usage ▸ Nat.mod_lt _ (by decide)), ?_⟩
  · -- the data that was taken off is added on both sides
    apply Nat.ModEq.add_right_cancel' (s.heap n).value.data.length
    have taken : s.memoryUsage + 2 ^ 64 - (s.heap n).value.data.length + value.data.length +
        (s.heap n).value.data.length = s.memoryUsage + value.data.length + 2 ^ 64 := by omega
    calc counter + (s.heap n).value.data.length
      _ ≡ s.memoryUsage + value.data.length + 2 ^ 64 [MOD 2 ^ 64] := by
        rw [← taken, usage]
        exact (Nat.mod_modEq _ _).add_right _
      _ ≡ s.memoryUsage + value.data.length [MOD 2 ^ 64] := Nat.add_modEq_right
      _ ≡ s.footprint pf + value.data.length [MOD 2 ^ 64] := tracked.congruent.add_right _
      _ = _ := footprint.symm
  · intro m inOrder
    by_cases same : m = n
    · subst same
      simpa using size
    · simpa [same] using tracked.sizes m inOrder

theorem apply (tracked : Tracked pf s order) {m : Mutation} (size : m.effect.value.length < 2 ^ 64) :
    ∃ order', Tracked pf (s.apply pf m) order' := by
  have rep := tracked.represents
  cases m with
  | put key value =>
    rw [SkipList.apply]
    rcases rep.put_cases pf key value with ⟨absent, inserts⟩ | ⟨n, member, -, overwrites⟩
    · rw [inserts]
      exact tracked.inserted key ⟨false, value⟩ (by simp) absent size
    · rw [overwrites]
      exact ⟨order, tracked.overwritten member ⟨false, value⟩ (by simp) size rfl⟩
  | delete key =>
    rw [SkipList.apply]
    rcases rep.delete_cases pf key with ⟨absent, inserts⟩ | ⟨n, member, -, ⟨-, unchanged⟩ | overwrites⟩
    · rw [inserts]
      exact tracked.inserted key ⟨true, []⟩ (by simp) absent size
    · rw [unchanged]
      exact ⟨order, tracked⟩
    · rw [overwrites]
      exact ⟨order, tracked.overwritten member ⟨true, []⟩ (by simp) size rfl⟩

end Tracked

theorem tracked_applyAll (pf : Platform) {ms : List Mutation} (sizes : ∀ m ∈ ms, m.effect.value.length < 2 ^ 64) :
    ∃ order, Tracked pf ((empty pf).applyAll pf ms) order := by
  induction ms using List.reverseRecOn with
  | nil => exact ⟨[], tracked_empty pf⟩
  | append_singleton ms m ih =>
    obtain ⟨order, tracked⟩ := ih fun other member => sizes other (by simp [member])
    rw [applyAll, List.foldl_concat, ← applyAll]
    exact tracked.apply (sizes m (by simp))

theorem extraHeight_eq {levels room draws : Nat} (bound : levels ≤ room)
    (up : ∀ j < levels, pf.mt19937 (draws + j) % 4 = 0) (stop : levels < room → pf.mt19937 (draws + levels) % 4 ≠ 0) :
    extraHeight pf room draws = (levels, draws + levels + if levels < room then 1 else 0) := by
  induction room generalizing levels draws with
  | zero =>
    obtain rfl := Nat.le_zero.mp bound
    rfl
  | succ room ih =>
    cases levels with
    | zero =>
      have stops : pf.mt19937 draws % 4 ≠ 0 := stop (Nat.succ_pos room)
      rw [extraHeight, if_neg stops, if_pos (Nat.succ_pos room), Nat.add_zero]
    | succ levels =>
      have raises : pf.mt19937 draws % 4 = 0 := up 0 (Nat.succ_pos levels)
      have rest : extraHeight pf room (draws + 1) = (levels, draws + 1 + levels + if levels < room then 1 else 0) := by
        refine ih (Nat.le_of_succ_le_succ bound) (fun j below => ?_) fun below => ?_
        · rw [Nat.add_assoc, Nat.add_comm 1]
          exact up (j + 1) (Nat.succ_lt_succ below)
        · rw [Nat.add_assoc, Nat.add_comm 1]
          exact stop (Nat.succ_lt_succ below)
      rw [extraHeight, if_pos raises, rest]
      simp only [Nat.succ_lt_succ_iff, Nat.add_assoc, Nat.add_comm 1]

def outputsFor (height : Nat) : List Nat :=
  List.replicate (height - 1) 0 ++ if height < kMaxHeight then [1] else []

def heightsFrom (pf : Platform) : Nat → Nat → List Nat
  | 0, _ => []
  | count + 1, draws => (randomHeight pf draws).1 :: heightsFrom pf count (randomHeight pf draws).2

theorem randomHeight_outputsFor {front behind : List Nat} {height : Nat} (positive : 1 ≤ height)
    (bound : height ≤ kMaxHeight) (outputs : ∀ n, pf.mt19937 n = (front ++ (outputsFor height ++ behind))[n]?.getD 0) :
    randomHeight pf front.length = (height, (front ++ outputsFor height).length) := by
  obtain ⟨levels, rfl⟩ := Nat.exists_eq_add_of_le' positive
  have drawn (j : Nat) : pf.mt19937 (front.length + j) = (outputsFor (levels + 1) ++ behind)[j]?.getD 0 := by
    rw [outputs, List.getElem?_append_right (Nat.le_add_right _ _), Nat.add_sub_cancel_left]
  have extra : extraHeight pf (kMaxHeight - 1) front.length =
      (levels, front.length + levels + if levels < kMaxHeight - 1 then 1 else 0) := by
    refine extraHeight_eq (Nat.le_pred_of_lt bound) (fun j below => ?_) fun below => ?_
    · rw [drawn, outputsFor, List.append_assoc, List.getElem?_append_left (by simpa using below)]
      simp [below]
    · rw [drawn, outputsFor, if_pos (Nat.lt_sub_iff_add_lt.mp below)]
      simp
  have same : levels < kMaxHeight - 1 ↔ levels + 1 < kMaxHeight := Nat.lt_sub_iff_add_lt
  rw [randomHeight, extra]
  simp only [same, outputsFor, List.length_append, List.length_replicate, Nat.add_sub_cancel, Nat.add_assoc]
  split <;> rfl

/-- A statement for all platforms is one for all heights. -/
theorem heights_arbitrary (pf : Platform) (heights : List Nat)
    (legal : ∀ height ∈ heights, 1 ≤ height ∧ height ≤ kMaxHeight) :
    ∃ outputs, heightsFrom { pf with mt19937 := outputs } heights.length 0 = heights := by
  have draws (front : List Nat) (pf : Platform)
      (outputs : ∀ n, pf.mt19937 n = (front ++ heights.flatMap outputsFor)[n]?.getD 0) :
      heightsFrom pf heights.length front.length = heights := by
    induction heights generalizing front with
    | nil => rfl
    | cons height heights ih =>
      obtain ⟨positive, bound⟩ := legal height List.mem_cons_self
      have first := randomHeight_outputsFor positive bound outputs
      have rest := ih (fun h member => legal h (List.mem_cons_of_mem _ member)) (front ++ outputsFor height)
        (by simpa [List.append_assoc] using outputs)
      rw [List.length_cons, heightsFrom, first, rest]
  exact ⟨fun n => (heights.flatMap outputsFor)[n]?.getD 0, draws [] _ fun _ => rfl⟩

theorem memory_accounted (pf : Platform) (ms : List Mutation) (sizes : ∀ m ∈ ms, m.effect.value.length < 2 ^ 64) :
    ∀ earlier, earlier <+: ms → Accounted pf ((empty pf).applyAll pf earlier) := by
  intro earlier initial
  obtain ⟨order, tracked⟩ := tracked_applyAll pf fun m member => sizes m (initial.subset member)
  exact tracked.accounted

theorem memory_accounted_tombstones :
    let ms : List Mutation := [.put [97] [1, 2, 3], .delete [97], .delete [97], .delete [98], .put [98] [7]]
    Accounted .reference ((empty .reference).applyAll .reference ms) ∧
      ((empty .reference).applyAll .reference ms).memoryUsage = 651 := by
  intro ms
  have sizes : ∀ m ∈ ms, m.effect.value.length < 2 ^ 64 := by decide
  exact ⟨memory_accounted .reference ms sizes ms (List.prefix_refl _), by decide +kernel⟩

end VectorDb.Storage.SkipList
