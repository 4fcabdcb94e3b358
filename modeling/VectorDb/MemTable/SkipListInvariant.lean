import VectorDb.MemTable.SkipList

namespace VectorDb.Storage.SkipList
open Lib Common

def Linked (s : SkipList) (level : Nat) : Option NodePtr → List NodePtr → Prop
  | p, [] => p = none
  | p, n :: rest => p = some n ∧ s.Linked level (s.next n level) rest

abbrev keyOf (s : SkipList) (n : NodePtr) : Bytes := (s.heap n).key

def entryAt (s : SkipList) (n : NodePtr) : BlockEntry where
  key := (s.heap n).key
  value := (s.heap n).value.data
  isTombstone := (s.heap n).value.isTombstone

def lane (s : SkipList) (order : List NodePtr) (level : Nat) : List NodePtr :=
  order.filter fun n => level < s.height n

/-- `order` lists the nodes by key, and every level links exactly those tall enough for it. -/
structure Represents (s : SkipList) (order : List NodePtr) : Prop where
  linked : ∀ level < kMaxHeight, s.Linked level (s.next 0 level) (s.lane order level)
  sorted : Ascending s.keyOf order
  allocated : ∀ n ∈ order, 0 < n ∧ n < s.size
  tall : ∀ n ∈ order, 1 ≤ s.height n ∧ s.height n ≤ s.maxHeight
  maxHeight : 1 ≤ s.maxHeight ∧ s.maxHeight ≤ kMaxHeight
  head : s.height 0 = kMaxHeight
  positive : 0 < s.size
  cleared : ∀ n ∈ order, (s.heap n).value.isTombstone = true → (s.heap n).value.data = []

variable {s : SkipList} {order : List NodePtr}

theorem Linked.head {level : Nat} {p : Option NodePtr} {rest : List NodePtr}
    (linked : s.Linked level p rest) : p = rest.head? := by
  cases rest with
  | nil => exact linked
  | cons n rest => exact linked.1

theorem Linked.after {level : Nat} {c : NodePtr} {front rest : List NodePtr}
    (linked : s.Linked level (s.next c level) (front ++ rest)) :
    s.Linked level (s.next (front.getLastD c) level) rest := by
  induction front generalizing c with
  | nil => exact linked
  | cons n front ih =>
    rw [List.getLastD_cons]
    exact ih linked.2

theorem Linked.congr {t : SkipList} {level : Nat} {p : Option NodePtr} {rest : List NodePtr}
    (linked : s.Linked level p rest) (same : ∀ n ∈ rest, t.next n level = s.next n level) :
    t.Linked level p rest := by
  induction rest generalizing p with
  | nil => exact linked
  | cons n rest ih =>
    refine ⟨linked.1, ?_⟩
    rw [same n (by simp)]
    exact ih linked.2 fun m member => same m (by simp [member])

theorem Linked.insert {t : SkipList} {level : Nat} {c fresh : NodePtr} {front rest : List NodePtr}
    (linked : s.Linked level (s.next c level) (front ++ rest))
    (distinct : (c :: (front ++ rest)).Nodup) (unused : fresh ∉ c :: (front ++ rest))
    (atLast : t.next (front.getLastD c) level = some fresh)
    (atFresh : t.next fresh level = s.next (front.getLastD c) level)
    (elsewhere : ∀ n, n ≠ front.getLastD c → n ≠ fresh → t.next n level = s.next n level) :
    t.Linked level (t.next c level) (front ++ fresh :: rest) := by
  induction front generalizing c with
  | nil =>
    refine ⟨atLast, ?_⟩
    rw [atFresh]
    refine Linked.congr linked fun n member => elsewhere n ?_ ?_
    · rintro rfl
      exact (List.nodup_cons.mp distinct).1 (by simpa using member)
    · rintro rfl
      exact unused (by simpa using Or.inr member)
  | cons n front ih =>
    rw [List.getLastD_cons] at atLast atFresh elsewhere
    have last : front.getLastD n ∈ n :: front := List.getLastD_mem_cons
    have moved : t.next c level = s.next c level := by
      refine elsewhere c ?_ ?_
      · intro same
        rw [← same] at last
        exact (List.nodup_cons.mp distinct).1 (List.mem_append_left rest last)
      · rintro rfl
        exact unused (by simp)
    refine ⟨moved.trans linked.1, ?_⟩
    refine ih linked.2 (List.nodup_cons.mp distinct).2 ?_ atLast atFresh elsewhere
    exact fun member => unused (List.mem_cons_of_mem c member)

theorem Represents.nodup (rep : s.Represents order) : (0 :: order).Nodup := by
  refine List.nodup_cons.mpr ⟨fun member => (rep.allocated 0 member).1.ne rfl, ?_⟩
  refine rep.sorted.imp ?_
  rintro a b less rfl
  exact less.ne rfl

theorem Represents.length_lt (rep : s.Represents order) : order.length < s.size := by
  have nodup := (List.nodup_cons.mp rep.nodup).2
  have subset : order.toFinset ⊆ Finset.Ioo 0 s.size := by
    intro n member
    exact Finset.mem_Ioo.mpr (rep.allocated n (List.mem_toFinset.mp member))
  have card := Finset.card_le_card subset
  rw [List.toFinset_card_of_nodup nodup, Nat.card_Ioo] at card
  have := rep.positive
  omega

theorem Represents.lane_zero (rep : s.Represents order) : s.lane order 0 = order :=
  List.filter_eq_self.mpr fun n member => decide_eq_true (rep.tall n member).1

theorem Represents.lane_sorted (rep : s.Represents order) (level : Nat) :
    Ascending s.keyOf (s.lane order level) :=
  List.Pairwise.sublist List.filter_sublist rep.sorted

theorem mem_lane {level : Nat} {n : NodePtr} :
    n ∈ s.lane order level ↔ n ∈ order ∧ level < s.height n := by
  simp [lane]

def predecessor (s : SkipList) (order : List NodePtr) (key : Bytes) (level : Nat) : NodePtr :=
  ((s.lane order level).filter fun n => s.keyOf n < key).getLastD 0

theorem getLastD_mem (l : List NodePtr) (d : NodePtr) : l.getLastD d = d ∨ l.getLastD d ∈ l := by
  cases l with
  | nil => exact Or.inl rfl
  | cons n l =>
    right
    rw [List.getLastD_cons]
    exact List.getLastD_mem_cons

theorem predecessor_mem (s : SkipList) (order : List NodePtr) (key : Bytes) (level : Nat) :
    s.predecessor order key level = 0 ∨
      (s.predecessor order key level ∈ order ∧ s.keyOf (s.predecessor order key level) < key ∧
        level < s.height (s.predecessor order key level)) := by
  rcases getLastD_mem ((s.lane order level).filter fun n => s.keyOf n < key) 0 with zero | member
  · exact Or.inl zero
  · obtain ⟨inLane, less⟩ := List.mem_filter.mp member
    obtain ⟨inOrder, tall⟩ := mem_lane.mp inLane
    exact Or.inr ⟨inOrder, of_decide_eq_true less, tall⟩

private theorem advance_eq {key : Bytes} {level : Nat} {c : NodePtr} {rest : List NodePtr}
    (linked : s.Linked level (s.next c level) rest) {fuel : Nat} (enough : rest.length ≤ fuel) :
    s.advance key level fuel c = (rest.takeWhile fun n => s.keyOf n < key).getLastD c := by
  induction rest generalizing c fuel with
  | nil =>
    have none : s.next c level = none := linked
    cases fuel <;> simp [advance, none]
  | cons n rest ih =>
    have some : s.next c level = some n := linked.1
    cases fuel with
    | zero => simp at enough
    | succ fuel =>
      rw [advance, some]
      by_cases less : (s.heap n).key < key
      · simp only [if_pos less]
        rw [ih linked.2 (by simpa using enough), List.takeWhile_cons_of_pos (by simpa using less),
          List.getLastD_cons]
      · simp only [if_neg less]
        rw [List.takeWhile_cons_of_neg (by simpa using less)]
        rfl

theorem Represents.advance_predecessor (rep : s.Represents order) (key : Bytes) (level : Nat)
    (low : level < kMaxHeight) {c : NodePtr}
    (from' : c = 0 ∨ (c ∈ order ∧ s.keyOf c < key ∧ level < s.height c)) :
    s.advance key level s.size c = s.predecessor order key level := by
  have short : (s.lane order level).length ≤ s.size :=
    (List.length_filter_le _ _).trans rep.length_lt.le
  rcases from' with rfl | ⟨member, less, tall⟩
  · rw [advance_eq (rep.linked level low) short,
      takeWhile_lt_eq_filter s.keyOf (rep.lane_sorted level) key]
    rfl
  · obtain ⟨front, rest, split⟩ := List.append_of_mem (mem_lane.mpr ⟨member, tall⟩)
    have chain := rep.linked level low
    have ascending := rep.lane_sorted level
    rw [split] at chain short ascending
    have linked : s.Linked level (s.next c level) rest := by
      have chain : s.Linked level (s.next 0 level) ((front ++ [c]) ++ rest) := by simpa using chain
      simpa using chain.after
    have sortedRest : Ascending s.keyOf rest :=
      (List.pairwise_cons.mp (List.pairwise_append.mp ascending).2.1).2
    rw [advance_eq linked (by simp at short; omega), takeWhile_lt_eq_filter s.keyOf sortedRest key,
      predecessor, split, List.filter_append, List.filter_cons_of_pos (by simpa using less)]
    rw [List.getLastD_eq_getLast?, List.getLastD_eq_getLast?, List.getLast?_append]
    simp [List.getLast?_cons]

private theorem descend_eq (rep : s.Represents order) (key : Bytes) (levels : Nat)
    (low : levels ≤ kMaxHeight) (c : NodePtr) (update : Nat → Option NodePtr)
    (from' : c = 0 ∨ (c ∈ order ∧ s.keyOf c < key ∧ levels ≤ s.height c)) :
    s.descend key levels c update =
      (if levels = 0 then c else s.predecessor order key 0,
        fun i => if i < levels then some (s.predecessor order key i) else update i) := by
  induction levels generalizing c update with
  | zero => simp [descend]
  | succ level ih =>
    have step := rep.advance_predecessor key level (by omega) (c := c)
      (from'.imp_right fun h => ⟨h.1, h.2.1, by omega⟩)
    rw [descend, step, ih (by omega)]
    · congr 1
      · by_cases zero : level = 0 <;> simp [zero]
      · funext i
        by_cases here : i = level
        · subst here
          simp
        · simp only [Function.update_of_ne here, Nat.lt_succ_iff_lt_or_eq, here, or_false]
    · exact (predecessor_mem s order key level).imp_right fun h => ⟨h.1, h.2.1, h.2.2.le⟩

theorem Represents.search_eq (rep : s.Represents order) (key : Bytes) :
    s.search key = (s.predecessor order key 0,
      fun i => if i < s.maxHeight then some (s.predecessor order key i) else none) := by
  rw [search, descend_eq rep key s.maxHeight rep.maxHeight.2 0 _ (Or.inl rfl),
    if_neg (by have := rep.maxHeight.1; omega)]

theorem Represents.next_predecessor (rep : s.Represents order) (key : Bytes) (level : Nat)
    (low : level < kMaxHeight) :
    s.Linked level (s.next (s.predecessor order key level) level)
      ((s.lane order level).filter fun n => ¬ s.keyOf n < key) := by
  apply Linked.after
  rw [filter_lt_append s.keyOf (rep.lane_sorted level) key]
  exact rep.linked level low

theorem Represents.next_search (rep : s.Represents order) (key : Bytes) :
    s.next (s.search key).1 0 = (order.filter fun n => ¬ s.keyOf n < key).head? := by
  have linked := rep.next_predecessor key 0 (by decide)
  rw [rep.lane_zero] at linked
  rw [rep.search_eq]
  exact linked.head

theorem Represents.entries_eq (rep : s.Represents order) : s.entries = order.map s.entryAt := by
  have walk (rest : List NodePtr) (p : Option NodePtr) (fuel : Nat)
      (linked : s.Linked 0 p rest) (enough : rest.length < fuel) :
      s.entriesFrom fuel p = rest.map s.entryAt := by
    induction rest generalizing p fuel with
    | nil =>
      have none : p = none := linked
      cases fuel with
      | zero => simp at enough
      | succ fuel => simp [none, entriesFrom]
    | cons n rest ih =>
      have some : p = some n := linked.1
      cases fuel with
      | zero => simp at enough
      | succ fuel =>
        rw [some, entriesFrom, ih _ fuel linked.2 (by simpa using enough)]
        rfl
  have linked := rep.linked 0 (by decide)
  rw [rep.lane_zero] at linked
  exact walk order _ s.size linked rep.length_lt

theorem Represents.entries_ascending (rep : s.Represents order) :
    Ascending BlockEntry.key s.entries := by
  rw [rep.entries_eq, Ascending, List.pairwise_map]
  exact rep.sorted

theorem Represents.isEmpty_iff (rep : s.Represents order) : s.isEmpty = true ↔ s.entries = [] := by
  have linked := rep.linked 0 (by decide)
  rw [rep.lane_zero] at linked
  rw [rep.entries_eq, isEmpty, linked.head]
  cases order <;> simp

theorem Represents.found_iff (rep : s.Represents order) (key : Bytes) :
    find s.keyOf order key =
      match s.next (s.search key).1 0 with
      | some n => if (s.heap n).key = key then some n else none
      | none => none := by
  rw [rep.next_search, ← find_eq_head]
  cases rest : order.filter fun n => ¬ s.keyOf n < key with
  | nil => rfl
  | cons n nodes =>
    rw [find_cons]
    by_cases same : s.keyOf n = key
    · simp [same]
    · simp only [List.head?_cons, if_neg same]
      have sorted : Ascending s.keyOf (n :: nodes) :=
        rest ▸ List.Pairwise.sublist List.filter_sublist rep.sorted
      have least : ¬ s.keyOf n < key := by
        have := List.mem_filter.mp (rest ▸ List.mem_cons_self : n ∈ order.filter fun n => ¬ s.keyOf n < key)
        simpa using this.2
      have above : key < s.keyOf n := lt_of_le_of_ne (not_lt.mp least) (Ne.symm same)
      apply (find_eq_none s.keyOf).mpr
      intro m member
      exact (above.trans ((List.pairwise_cons.mp sorted).1 m member)).ne'

theorem Represents.get_eq (rep : s.Represents order) (key : Bytes) :
    s.get key = (find BlockEntry.key s.entries key).map fun e => ⟨e.isTombstone, e.value⟩ := by
  rw [rep.entries_eq, find_map s.keyOf BlockEntry.key s.entryAt fun _ => rfl, rep.found_iff]
  simp only [get]
  cases s.next (s.search key).1 0 with
  | none => rfl
  | some n =>
    by_cases same : (s.heap n).key = key <;> simp [same, entryAt]

theorem empty_represents (pf : Platform) : (empty pf).Represents [] where
  linked level low := by simp [Linked, next, empty, lane, List.getD_eq_getElem?_getD, low]
  sorted := List.Pairwise.nil
  allocated := by simp
  tall := by simp
  maxHeight := by simp [empty, kMaxHeight]
  head := by simp [height, empty]
  positive := by simp [empty]
  cleared := by simp

@[simp] theorem setValue_heap_self (s : SkipList) (n : NodePtr) (value : SkipListValue) :
    (s.setValue n value).heap n = ⟨(s.heap n).key, value, (s.heap n).forward⟩ := Function.update_self _ _ _

@[simp] theorem setValue_heap_of_ne (s : SkipList) {n m : NodePtr} (other : m ≠ n) (value : SkipListValue) :
    (s.setValue n value).heap m = s.heap m := Function.update_of_ne other _ _

theorem Represents.setValue (rep : s.Represents order) (n : NodePtr) (value : SkipListValue)
    (cleared : value.isTombstone = true → value.data = []) (usage : Nat) :
    ({ s.setValue n value with memoryUsage := usage } : SkipList).Represents order := by
  set t : SkipList := { s.setValue n value with memoryUsage := usage } with def_t
  have key (p : NodePtr) : t.keyOf p = s.keyOf p := by
    by_cases same : p = n
    · subst same; simp [def_t, keyOf]
    · simp [def_t, keyOf, same]
  have forward (p : NodePtr) : (t.heap p).forward = (s.heap p).forward := by
    by_cases same : p = n
    · subst same; simp [def_t]
    · simp [def_t, same]
  have next (p : NodePtr) (level : Nat) : t.next p level = s.next p level := by
    simp [SkipList.next, forward]
  have height (p : NodePtr) : t.height p = s.height p := by simp [SkipList.height, forward]
  have lane (level : Nat) : t.lane order level = s.lane order level := by simp [SkipList.lane, height]
  constructor
  · intro level low
    rw [lane, next]
    exact (rep.linked level low).congr fun m _ => next m level
  · have : t.keyOf = s.keyOf := funext key
    rw [this]
    exact rep.sorted
  · exact rep.allocated
  · intro m member
    rw [height]
    exact rep.tall m member
  · exact rep.maxHeight
  · rw [height]
    exact rep.head
  · exact rep.positive
  · intro m member
    by_cases same : m = n
    · subst same
      simpa [def_t] using cleared
    · simpa [def_t, same] using rep.cleared m member

private theorem extraHeight_le (pf : Platform) (room draws : Nat) :
    (extraHeight pf room draws).1 ≤ room := by
  induction room generalizing draws with
  | zero => simp [extraHeight]
  | succ room ih =>
    simp only [extraHeight]
    split_ifs
    · exact Nat.succ_le_succ (ih (draws + 1))
    · simp

theorem randomHeight_range (pf : Platform) (draws : Nat) :
    1 ≤ (randomHeight pf draws).1 ∧ (randomHeight pf draws).1 ≤ kMaxHeight := by
  have := extraHeight_le pf (kMaxHeight - 1) draws
  simp only [randomHeight, kMaxHeight] at *
  omega

theorem next_setForward {p : NodePtr} {level : Nat} (bound : level < s.height p)
    (target : Option NodePtr) (q : NodePtr) (other : Nat) :
    (s.setForward p level target).next q other =
      if q = p ∧ other = level then target else s.next q other := by
  by_cases node : q = p
  · subst node
    by_cases here : other = level
    · subst here
      have inside : other < (s.heap q).forward.length := bound
      simp [next, setForward, List.getD_eq_getElem?_getD, inside]
    · simp [next, setForward, List.getD_eq_getElem?_getD, here, Ne.symm here]
  · simp [next, setForward, node]

theorem heap_setForward (s : SkipList) (p : NodePtr) (level : Nat) (target : Option NodePtr)
    (q : NodePtr) :
    ((s.setForward p level target).heap q).key = (s.heap q).key ∧
      ((s.setForward p level target).heap q).value = (s.heap q).value ∧
      (s.setForward p level target).height q = s.height q := by
  by_cases node : q = p
  · subst node; simp [setForward, height]
  · simp [setForward, height, node]

private theorem splice_spec (fresh : NodePtr) (update : Nat → Option NodePtr)
    (before : Nat → NodePtr) (levels : Nat) (tall : levels ≤ s.height fresh)
    (links : ∀ i < levels, update i = some (before i) ∧ before i ≠ fresh ∧ i < s.height (before i)) :
    (∀ q, ((s.splice fresh update levels).heap q).key = (s.heap q).key ∧
      ((s.splice fresh update levels).heap q).value = (s.heap q).value ∧
      (s.splice fresh update levels).height q = s.height q) ∧
    (∀ q i, (s.splice fresh update levels).next q i =
      if i < levels then
        if q = fresh then s.next (before i) i
        else if q = before i then some fresh
        else s.next q i
      else s.next q i) ∧
    (s.splice fresh update levels).size = s.size ∧
    (s.splice fresh update levels).maxHeight = s.maxHeight := by
  induction levels with
  | zero => simp [splice]
  | succ level ih =>
    obtain ⟨nodes, nexts, size, maxHeight⟩ := ih (by omega) fun i low => links i (by omega)
    obtain ⟨updated, distinct, room⟩ := links level (by omega)
    set t := s.splice fresh update level with def_t
    have first : level < t.height fresh := by rw [(nodes fresh).2.2]; omega
    have second : level < (t.setForward fresh level (t.next (before level) level)).height (before level) := by
      rw [(heap_setForward _ _ _ _ _).2.2, (nodes _).2.2]
      exact room
    have step : s.splice fresh update (level + 1) =
        (t.setForward fresh level (t.next (before level) level)).setForward (before level) level
          (some fresh) := by
      simp only [splice, updated, ← def_t]
    rw [step]
    refine ⟨fun q => ?_, fun q i => ?_, size, maxHeight⟩
    · have a := heap_setForward (t.setForward fresh level (t.next (before level) level))
        (before level) level (some fresh) q
      have b := heap_setForward t fresh level (t.next (before level) level) q
      exact ⟨a.1.trans (b.1.trans (nodes q).1), a.2.1.trans (b.2.1.trans (nodes q).2.1),
        a.2.2.trans (b.2.2.trans (nodes q).2.2)⟩
    · rw [next_setForward second, next_setForward first, nexts, nexts]
      by_cases here : i = level
      · subst here
        by_cases isFresh : q = fresh
        · subst isFresh
          simp [Ne.symm distinct]
        · by_cases isBefore : q = before i <;> simp [isFresh, isBefore, distinct]
      · simp only [here, and_false, if_false, Nat.lt_succ_iff_lt_or_eq, or_false]

theorem splice_memoryUsage (s : SkipList) (fresh : NodePtr) (update : Nat → Option NodePtr) (levels : Nat) :
    (s.splice fresh update levels).memoryUsage = s.memoryUsage := by
  induction levels with
  | zero => rfl
  | succ level ih =>
    rw [← ih, splice]
    cases update level <;> rfl

theorem insertNode_memoryUsage (pf : Platform) (update : Nat → Option NodePtr) (key : Bytes) (value : SkipListValue) :
    (s.insertNode pf update key value).memoryUsage = (s.memoryUsage + (pf.sizeofSkipListNode + key.length +
      value.data.length + (randomHeight pf s.draws).1 * pf.sizeofPointer)) % 2 ^ 64 := by
  rw [insertNode, splice_memoryUsage]

private structure Spliced (s t : SkipList) (order : List NodePtr) (key : Bytes)
    (value : SkipListValue) (h : Nat) : Prop where
  old : ∀ q, q ≠ s.size → (t.heap q).key = (s.heap q).key ∧ (t.heap q).value = (s.heap q).value ∧
    t.height q = s.height q
  fresh : (t.heap s.size).key = key ∧ (t.heap s.size).value = value ∧ t.height s.size = h
  nextFresh : ∀ i < h, t.next s.size i = s.next (s.predecessor order key i) i
  nextBefore : ∀ i < h, t.next (s.predecessor order key i) i = some s.size
  nextOld : ∀ q i, q ≠ s.size → (i < h → q ≠ s.predecessor order key i) → t.next q i = s.next q i
  size : t.size = s.size + 1
  maxHeight : t.maxHeight = if h > s.maxHeight then h else s.maxHeight

private theorem Represents.predecessor_used (rep : s.Represents order) (key : Bytes) (i : Nat) :
    s.predecessor order key i ≠ s.size := by
  rcases predecessor_mem s order key i with zero | ⟨member, -⟩
  · rw [zero]
    exact rep.positive.ne
  · exact (rep.allocated _ member).2.ne

private theorem Represents.update_eq (rep : s.Represents order) (key : Bytes) (h i : Nat) (small : i < h) :
    (if s.maxHeight ≤ i ∧ i < h then some 0 else (s.search key).2 i) =
      some (s.predecessor order key i) := by
  by_cases above : s.maxHeight ≤ i
  · have empty : s.lane order i = [] := by
      apply List.filter_eq_nil_iff.mpr
      intro n member
      simpa using (rep.tall n member).2.trans above
    simp [above, small, predecessor, empty]
  · simp [above, rep.search_eq, not_le.mp above]

private theorem Represents.insertNode_spliced (rep : s.Represents order) (pf : Platform) (key : Bytes)
    (value : SkipListValue) :
    Spliced s (s.insertNode pf (s.search key).2 key value) order key value
      (randomHeight pf s.draws).1 := by
  obtain ⟨-, high⟩ := randomHeight_range pf s.draws
  simp only [SkipList.insertNode]
  generalize randomHeight pf s.draws = drawn at high ⊢
  obtain ⟨h, draws⟩ := drawn
  simp only at high ⊢
  generalize def_grown : ({ heap := Function.update s.heap s.size ⟨key, value, List.replicate h none⟩
                            size := s.size + 1
                            maxHeight := if h > s.maxHeight then h else s.maxHeight
                            draws := draws
                            memoryUsage := _ } : SkipList) = grown
  have old (q : NodePtr) (used : q ≠ s.size) : grown.heap q = s.heap q := by simp [← def_grown, used]
  have atFresh : grown.heap s.size = ⟨key, value, List.replicate h none⟩ := by simp [← def_grown]
  have oldNext (q : NodePtr) (used : q ≠ s.size) (i : Nat) : grown.next q i = s.next q i := by
    simp [SkipList.next, old q used]
  have used := rep.predecessor_used key
  have room (i : Nat) (small : i < h) : i < grown.height (s.predecessor order key i) := by
    rw [height, old _ (used i)]
    rcases predecessor_mem s order key i with zero | ⟨-, -, tall⟩
    · rw [zero]
      exact (small.trans_le high).trans_eq rep.head.symm
    · exact tall
  obtain ⟨nodes, nexts, size, maxHeight⟩ := splice_spec (s := grown) s.size _
    (fun i => s.predecessor order key i) h (by simp [height, atFresh])
    fun i small => ⟨rep.update_eq key h i small, used i, room i small⟩
  constructor
  · intro q ne
    obtain ⟨sameKey, sameValue, sameHeight⟩ := nodes q
    rw [sameKey, sameValue, sameHeight, height, old q ne]
    exact ⟨rfl, rfl, rfl⟩
  · obtain ⟨sameKey, sameValue, sameHeight⟩ := nodes s.size
    rw [sameKey, sameValue, sameHeight, height, atFresh]
    exact ⟨rfl, rfl, List.length_replicate⟩
  · intro i small
    simp [nexts, small, oldNext _ (used i)]
  · intro i small
    simp [nexts, small, used i]
  · intro q i ne notBefore
    rw [nexts]
    by_cases small : i < h
    · simp [small, ne, notBefore small, oldNext q ne]
    · simp [small, oldNext q ne]
  · rw [size, ← def_grown]
  · rw [maxHeight, ← def_grown]

section Insert
variable {t : SkipList} {key : Bytes} {value : SkipListValue} {h : Nat}

private def orderWith (s : SkipList) (order : List NodePtr) (key : Bytes) : List NodePtr :=
  (order.filter fun n => s.keyOf n < key) ++ s.size :: order.filter fun n => ¬ s.keyOf n < key

private theorem mem_orderWith (rep : s.Represents order) (n : NodePtr) :
    n ∈ orderWith s order key ↔ n = s.size ∨ n ∈ order := by
  rw [orderWith]
  conv_rhs => rw [← filter_lt_append s.keyOf rep.sorted key]
  simp only [List.mem_append, List.mem_cons]
  tauto

private theorem larger_of_absent (absent : find s.keyOf order key = none) {n : NodePtr}
    (member : n ∈ order.filter fun n => ¬ s.keyOf n < key) : n ∈ order ∧ key < s.keyOf n := by
  have both : n ∈ order ∧ key ≤ s.keyOf n := by simpa using member
  exact ⟨both.1, lt_of_le_of_ne both.2 ((find_eq_none s.keyOf).mp absent n both.1).symm⟩

private theorem smaller_of_mem {n : NodePtr} (member : n ∈ order.filter fun n => s.keyOf n < key) :
    n ∈ order ∧ s.keyOf n < key := by simpa using member

private theorem Spliced.linked (spliced : Spliced s t order key value h) (rep : s.Represents order)
    (level : Nat) (low : level < kMaxHeight) :
    t.Linked level (t.next 0 level) (t.lane (orderWith s order key) level) := by
  have used (n : NodePtr) (member : n ∈ order) : n ≠ s.size := (rep.allocated n member).2.ne
  have laneOld (part : List NodePtr) (sub : ∀ n ∈ part, n ∈ order) : t.lane part level = s.lane part level :=
    List.filter_congr fun n member => by rw [(spliced.old n (used n (sub n member))).2.2]
  have chain := rep.linked level low
  rw [← filter_lt_append s.keyOf (rep.lane_sorted level) key] at chain
  have commute (p : NodePtr → Bool) : s.lane (order.filter p) level = (s.lane order level).filter p := by
    simp only [lane, List.filter_filter]
    congr 1
    funext n
    exact Bool.and_comm _ _
  have distinct : (0 :: s.lane order level).Nodup :=
    List.Nodup.sublist (List.Sublist.cons_cons 0 List.filter_sublist) rep.nodup
  have unused : s.size ∉ 0 :: s.lane order level := by
    simp only [List.mem_cons, not_or]
    exact ⟨rep.positive.ne', fun member => used _ (mem_lane.mp member).1 rfl⟩
  have shape : t.lane (orderWith s order key) level =
      ((s.lane order level).filter fun n => s.keyOf n < key) ++
        (if level < h then [s.size] else []) ++ (s.lane order level).filter fun n => ¬ s.keyOf n < key := by
    rw [← commute, ← commute, ← laneOld _ fun n m => (smaller_of_mem m).1,
      ← laneOld (order.filter fun n => ¬ s.keyOf n < key) fun n m => List.mem_of_mem_filter m]
    by_cases small : level < h <;> simp [orderWith, lane, spliced.fresh.2.2, small]
  rw [shape]
  by_cases small : level < h
  · rw [if_pos small, List.append_assoc, List.singleton_append]
    refine Linked.insert chain ?_ ?_ (spliced.nextBefore level small) (spliced.nextFresh level small) ?_
    · rwa [filter_lt_append s.keyOf (rep.lane_sorted level) key]
    · rwa [filter_lt_append s.keyOf (rep.lane_sorted level) key]
    · exact fun n notLast notFresh => spliced.nextOld n level notFresh fun _ => notLast
  · rw [if_neg small, List.append_nil, spliced.nextOld 0 level rep.positive.ne fun c => absurd c small]
    refine chain.congr fun n member => spliced.nextOld n level ?_ fun c => absurd c small
    rw [filter_lt_append s.keyOf (rep.lane_sorted level) key] at member
    exact used n (mem_lane.mp member).1

private theorem Spliced.sorted (spliced : Spliced s t order key value h) (rep : s.Represents order)
    (absent : find s.keyOf order key = none) : Ascending t.keyOf (orderWith s order key) := by
  have keyOld (n : NodePtr) (member : n ∈ order) : t.keyOf n = s.keyOf n :=
    (spliced.old n (rep.allocated n member).2.ne).1
  have keyFresh : t.keyOf s.size = key := spliced.fresh.1
  have part (p : NodePtr → Bool) : Ascending t.keyOf (order.filter p) := by
    refine List.Pairwise.imp_of_mem ?_ (List.Pairwise.sublist List.filter_sublist rep.sorted)
    intro a b ha hb less
    rwa [keyOld a (List.mem_of_mem_filter ha), keyOld b (List.mem_of_mem_filter hb)]
  refine List.pairwise_append.mpr ⟨part _, List.pairwise_cons.mpr ⟨?_, part _⟩, ?_⟩
  · intro n member
    obtain ⟨inOrder, above⟩ := larger_of_absent absent member
    rw [keyFresh, keyOld n inOrder]
    exact above
  · intro a smaller b other
    obtain ⟨aOrder, below⟩ := smaller_of_mem smaller
    rw [keyOld a aOrder]
    rcases List.mem_cons.mp other with rfl | larger
    · rw [keyFresh]
      exact below
    · obtain ⟨bOrder, above⟩ := larger_of_absent absent larger
      rw [keyOld b bOrder]
      exact below.trans above

private theorem Spliced.represents (spliced : Spliced s t order key value h) (rep : s.Represents order)
    (absent : find s.keyOf order key = none) (heights : 1 ≤ h ∧ h ≤ kMaxHeight)
    (cleared : value.isTombstone = true → value.data = []) : t.Represents (orderWith s order key) := by
  have used (n : NodePtr) (member : n ∈ order) : n ≠ s.size := (rep.allocated n member).2.ne
  have grows : s.maxHeight ≤ t.maxHeight ∧ h ≤ t.maxHeight ∧ t.maxHeight ≤ kMaxHeight := by
    have := rep.maxHeight
    rw [spliced.maxHeight]
    split_ifs <;> omega
  constructor
  · exact spliced.linked rep
  · exact spliced.sorted rep absent
  · intro n member
    rw [spliced.size]
    rcases (mem_orderWith rep n).mp member with rfl | inOrder
    · exact ⟨rep.positive, Nat.lt_succ_self _⟩
    · exact ⟨(rep.allocated n inOrder).1, Nat.lt_succ_of_lt (rep.allocated n inOrder).2⟩
  · intro n member
    rcases (mem_orderWith rep n).mp member with rfl | inOrder
    · rw [spliced.fresh.2.2]
      exact ⟨heights.1, grows.2.1⟩
    · rw [(spliced.old n (used n inOrder)).2.2]
      exact ⟨(rep.tall n inOrder).1, (rep.tall n inOrder).2.trans grows.1⟩
  · exact ⟨rep.maxHeight.1.trans grows.1, grows.2.2⟩
  · rw [(spliced.old 0 rep.positive.ne).2.2]
    exact rep.head
  · rw [spliced.size]
    omega
  · intro n member
    rcases (mem_orderWith rep n).mp member with rfl | inOrder
    · rw [spliced.fresh.2.1]
      exact cleared
    · rw [(spliced.old n (used n inOrder)).2.1]
      exact rep.cleared n inOrder

private theorem Spliced.entries (spliced : Spliced s t order key value h) (rep : s.Represents order)
    (absent : find s.keyOf order key = none) (represents : t.Represents (orderWith s order key)) :
    t.entries = upsert BlockEntry.key ⟨key, value.data, value.isTombstone⟩ s.entries := by
  have entryOld (part : List NodePtr) (sub : ∀ n ∈ part, n ∈ order) : part.map t.entryAt = part.map s.entryAt := by
    apply List.map_congr_left
    intro n member
    obtain ⟨sameKey, sameValue, -⟩ := spliced.old n (rep.allocated n (sub n member)).2.ne
    simp only [entryAt, sameKey, sameValue]
  have entryFresh : t.entryAt s.size = ⟨key, value.data, value.isTombstone⟩ := by
    simp only [entryAt, spliced.fresh.1, spliced.fresh.2.1]
  rw [represents.entries_eq, rep.entries_eq, orderWith]
  conv_rhs => rw [← filter_lt_append s.keyOf rep.sorted key]
  rw [List.map_append, List.map_append, List.map_cons, entryFresh,
    entryOld _ fun n m => (smaller_of_mem m).1, entryOld _ fun n m => List.mem_of_mem_filter m,
    upsert_append, upsert_of_lt_all]
  · intro e member
    obtain ⟨n, inLarger, rfl⟩ := List.mem_map.mp member
    exact (larger_of_absent absent inLarger).2
  · intro e member
    obtain ⟨n, inSmaller, rfl⟩ := List.mem_map.mp member
    exact (smaller_of_mem inSmaller).2

end Insert

def Writes (s t : SkipList) (e : BlockEntry) : Prop :=
  (∃ order, t.Represents order) ∧ t.entries = upsert BlockEntry.key e s.entries

theorem Represents.insertNode_nodes (rep : s.Represents order) (pf : Platform) (key : Bytes) (value : SkipListValue)
    (cleared : value.isTombstone = true → value.data = []) (absent : find s.keyOf order key = none) :
    ∃ t order', t = s.insertNode pf (s.search key).2 key value ∧ t.Represents order' ∧
      order'.Perm (s.size :: order) ∧
      (∀ n ∈ order, (t.heap n).key = (s.heap n).key ∧ (t.heap n).value = (s.heap n).value ∧ t.height n = s.height n) ∧
      (t.heap s.size).key = key ∧ (t.heap s.size).value = value ∧ t.height s.size = (randomHeight pf s.draws).1 := by
  have spliced := rep.insertNode_spliced pf key value
  have represents := spliced.represents rep absent (randomHeight_range pf s.draws) cleared
  refine ⟨_, _, rfl, represents, ?_, fun n member => spliced.old n (rep.allocated n member).2.ne, spliced.fresh⟩
  have sameNodes : List.Perm _ order := .of_eq (filter_lt_append s.keyOf rep.sorted key)
  exact List.perm_middle.trans (sameNodes.cons s.size)

private theorem Represents.insert_writes (rep : s.Represents order) (pf : Platform) (key : Bytes)
    (value : SkipListValue) (cleared : value.isTombstone = true → value.data = [])
    (absent : find s.keyOf order key = none) :
    s.Writes (s.insertNode pf (s.search key).2 key value) ⟨key, value.data, value.isTombstone⟩ := by
  have spliced := rep.insertNode_spliced pf key value
  have represents := spliced.represents rep absent (randomHeight_range pf s.draws) cleared
  exact ⟨⟨_, represents⟩, spliced.entries rep absent represents⟩

private theorem Represents.overwrite_writes (rep : s.Represents order) {n : NodePtr} (member : n ∈ order)
    (value : SkipListValue) (cleared : value.isTombstone = true → value.data = []) (usage : Nat) :
    s.Writes { s.setValue n value with memoryUsage := usage }
      ⟨s.keyOf n, value.data, value.isTombstone⟩ := by
  have represents := rep.setValue n value cleared usage
  refine ⟨⟨order, represents⟩, ?_⟩
  obtain ⟨front, rest, split⟩ := List.append_of_mem member
  have sorted := rep.sorted
  rw [split] at sorted
  obtain ⟨-, tail, cross⟩ := List.pairwise_append.mp sorted
  have other (m : NodePtr) (ne : m ≠ n) :
      ({ s.setValue n value with memoryUsage := usage } : SkipList).entryAt m = s.entryAt m := by
    simp [entryAt, ne]
  have here : ({ s.setValue n value with memoryUsage := usage } : SkipList).entryAt n =
      ⟨s.keyOf n, value.data, value.isTombstone⟩ := by
    simp [entryAt, keyOf]
  have frontSame : front.map ({ s.setValue n value with memoryUsage := usage } : SkipList).entryAt =
      front.map s.entryAt := List.map_congr_left fun m inFront => other m (by
    rintro rfl
    exact (cross m inFront m (by simp)).ne rfl)
  have restSame : rest.map ({ s.setValue n value with memoryUsage := usage } : SkipList).entryAt =
      rest.map s.entryAt := List.map_congr_left fun m inRest => other m (by
    rintro rfl
    exact ((List.pairwise_cons.mp tail).1 m inRest).ne rfl)
  rw [represents.entries_eq, rep.entries_eq, split, List.map_append, List.map_append, List.map_cons,
    List.map_cons, frontSame, restSame, here, upsert_append, upsert, if_neg, if_pos]
  · rfl
  · exact lt_irrefl _
  · intro e inFront
    obtain ⟨m, memberM, rfl⟩ := List.mem_map.mp inFront
    exact cross m memberM n (by simp)

theorem Represents.put_cases (rep : s.Represents order) (pf : Platform) (key value : Bytes) :
    (find s.keyOf order key = none ∧ s.put pf key value = s.insertNode pf (s.search key).2 key ⟨false, value⟩) ∨
      ∃ n ∈ order, s.keyOf n = key ∧ s.put pf key value = { s.setValue n ⟨false, value⟩ with
        memoryUsage := (s.memoryUsage + 2 ^ 64 - (s.heap n).value.data.length + value.length) % 2 ^ 64 } := by
  have found := rep.found_iff key
  simp only [put]
  cases stop : s.next (s.search key).1 0 with
  | none =>
    rw [stop] at found
    exact .inl ⟨found, rfl⟩
  | some n =>
    rw [stop] at found
    by_cases same : (s.heap n).key = key
    · simp only [same, if_true] at found ⊢
      obtain ⟨member, sameKey⟩ := find_some s.keyOf found
      exact .inr ⟨n, member, sameKey, rfl⟩
    · simp only [same, if_false] at found
      exact .inl ⟨found, if_neg same⟩

theorem Represents.delete_cases (rep : s.Represents order) (pf : Platform) (key : Bytes) :
    (find s.keyOf order key = none ∧ s.delete pf key = s.insertNode pf (s.search key).2 key ⟨true, []⟩) ∨
      ∃ n ∈ order, s.keyOf n = key ∧ (((s.heap n).value.isTombstone = true ∧ s.delete pf key = s) ∨
        s.delete pf key = { s.setValue n ⟨true, []⟩ with
          memoryUsage := (s.memoryUsage + 2 ^ 64 - (s.heap n).value.data.length) % 2 ^ 64 }) := by
  have found := rep.found_iff key
  simp only [delete]
  cases stop : s.next (s.search key).1 0 with
  | none =>
    rw [stop] at found
    exact .inl ⟨found, rfl⟩
  | some n =>
    rw [stop] at found
    by_cases same : (s.heap n).key = key
    · simp only [same, if_true] at found ⊢
      obtain ⟨member, sameKey⟩ := find_some s.keyOf found
      by_cases dead : (s.heap n).value.isTombstone = true
      · exact .inr ⟨n, member, sameKey, .inl ⟨dead, if_pos dead⟩⟩
      · exact .inr ⟨n, member, sameKey, .inr (if_neg dead)⟩
    · simp only [same, if_false] at found
      exact .inl ⟨found, if_neg same⟩

theorem Represents.put_writes (rep : s.Represents order) (pf : Platform) (key value : Bytes) :
    s.Writes (s.put pf key value) ⟨key, value, false⟩ := by
  rcases rep.put_cases pf key value with ⟨absent, inserted⟩ | ⟨n, member, rfl, overwritten⟩
  · rw [inserted]
    exact rep.insert_writes pf key ⟨false, value⟩ (by simp) absent
  · rw [overwritten]
    exact rep.overwrite_writes member ⟨false, value⟩ (by simp) _

theorem Represents.delete_writes (rep : s.Represents order) (pf : Platform) (key : Bytes) :
    s.Writes (s.delete pf key) ⟨key, [], true⟩ := by
  rcases rep.delete_cases pf key with ⟨absent, inserted⟩ | ⟨n, member, rfl, ⟨dead, unchanged⟩ | overwritten⟩
  · rw [inserted]
    exact rep.insert_writes pf key ⟨true, []⟩ (by simp) absent
  · -- the tombstone is already there: nothing is written and nothing has to be
    rw [unchanged]
    refine ⟨⟨order, rep⟩, ?_⟩
    have stored : find BlockEntry.key s.entries (s.keyOf n) = some ⟨s.keyOf n, [], true⟩ := by
      rw [rep.entries_eq, find_map s.keyOf BlockEntry.key s.entryAt fun _ => rfl,
        (find_eq_some s.keyOf rep.sorted).mpr ⟨member, rfl⟩]
      simp [entryAt, dead, rep.cleared n member dead]
    apply ascending_ext BlockEntry.key rep.entries_ascending
      (upsert_ascending BlockEntry.key _ rep.entries_ascending)
    intro k
    rw [find_upsert]
    split_ifs with target
    · rw [← target, stored]
    · rfl
  · rw [overwritten]
    exact rep.overwrite_writes member ⟨true, []⟩ (by simp) _

end VectorDb.Storage.SkipList
