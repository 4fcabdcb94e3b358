import Mathlib.Order.Basic
import Mathlib.Data.List.Basic
import Mathlib.Tactic

namespace VectorDb.Lib

section KeyedList
variable {ε α : Type} [LinearOrder α] (key : ε → α)

def Ascending (xs : List ε) : Prop := xs.Pairwise fun a b => key a < key b

instance (xs : List ε) : Decidable (Ascending key xs) :=
  inferInstanceAs (Decidable (xs.Pairwise _))

def find (xs : List ε) (k : α) : Option ε := xs.find? fun e => key e = k

def newest (log : List ε) (k : α) : Option ε := find key log.reverse k

def upsert (e : ε) : List ε → List ε
  | [] => [e]
  | x :: xs =>
    if key x < key e then x :: upsert e xs
    else if key x = key e then e :: xs
    else e :: x :: xs

def replay (log : List ε) (xs : List ε) : List ε := log.foldl (fun acc e => upsert key e acc) xs

@[simp] theorem find_nil (k : α) : find key [] k = none := rfl

theorem find_cons (x : ε) (xs : List ε) (k : α) :
    find key (x :: xs) k = if key x = k then some x else find key xs k := by
  by_cases same : key x = k <;> simp [find, same]

theorem find_append (xs ys : List ε) (k : α) :
    find key (xs ++ ys) k = (find key xs k).or (find key ys k) := by
  simp [find, List.find?_append]

theorem find_map {δ : Type} (key' : δ → α) (f : ε → δ) (same : ∀ e, key' (f e) = key e)
    (xs : List ε) (k : α) : find key' (xs.map f) k = (find key xs k).map f := by
  simp [find, List.find?_map, same]

theorem find_some {xs : List ε} {k : α} {e : ε} (found : find key xs k = some e) :
    e ∈ xs ∧ key e = k := by
  simp only [find] at found
  exact ⟨List.mem_of_find?_eq_some found, by simpa using List.find?_some found⟩

theorem find_eq_none {xs : List ε} {k : α} : find key xs k = none ↔ ∀ e ∈ xs, key e ≠ k := by
  simp [find, List.find?_eq_none]

theorem find_mem {xs : List ε} (ascending : Ascending key xs) {e : ε} (member : e ∈ xs) :
    find key xs (key e) = some e := by
  induction xs with
  | nil => simp at member
  | cons x xs ih =>
    obtain ⟨below, rest⟩ := List.pairwise_cons.mp ascending
    rcases List.mem_cons.mp member with rfl | later
    · simp [find_cons]
    · rw [find_cons, if_neg (below e later).ne]
      exact ih rest later

theorem find_eq_some {xs : List ε} (ascending : Ascending key xs) {k : α} {e : ε} :
    find key xs k = some e ↔ e ∈ xs ∧ key e = k := by
  constructor
  · exact find_some key
  · rintro ⟨member, rfl⟩
    exact find_mem key ascending member

theorem find_upsert (e : ε) (xs : List ε) (k : α) :
    find key (upsert key e xs) k = if key e = k then some e else find key xs k := by
  induction xs with
  | nil => simp [upsert, find_cons]
  | cons x xs ih =>
    simp only [upsert]
    by_cases less : key x < key e
    · rw [if_pos less, find_cons, ih, find_cons]
      by_cases target : key e = k
      · rw [if_pos target, if_neg (by rw [← target]; exact less.ne), if_pos target]
      · rw [if_neg target, if_neg target]
    · rw [if_neg less]
      by_cases same : key x = key e
      · rw [if_pos same, find_cons, find_cons, same]
        split_ifs <;> rfl
      · rw [if_neg same, find_cons]

theorem mem_upsert {e y : ε} {xs : List ε} (member : y ∈ upsert key e xs) : y = e ∨ y ∈ xs := by
  induction xs with
  | nil => simpa [upsert] using member
  | cons x xs ih =>
    simp only [upsert] at member
    split_ifs at member with less same
    · rcases List.mem_cons.mp member with rfl | later
      · exact Or.inr (by simp)
      · exact (ih later).imp_right (List.mem_cons_of_mem x)
    · rcases List.mem_cons.mp member with rfl | later
      · exact Or.inl rfl
      · exact Or.inr (List.mem_cons_of_mem x later)
    · rcases List.mem_cons.mp member with rfl | later
      · exact Or.inl rfl
      · exact Or.inr later

theorem mem_replay {y : ε} {log xs : List ε} (member : y ∈ replay key log xs) : y ∈ log ∨ y ∈ xs := by
  induction log generalizing xs with
  | nil => exact .inr member
  | cons e log ih =>
    rcases ih member with later | held
    · exact .inl (List.mem_cons_of_mem _ later)
    · refine (mem_upsert key held).imp_left ?_
      rintro rfl
      exact List.mem_cons_self

theorem upsert_ne_nil (e : ε) (xs : List ε) : upsert key e xs ≠ [] := by
  cases xs with
  | nil => simp [upsert]
  | cons x xs =>
    simp only [upsert]
    split_ifs <;> simp

theorem upsert_ascending (e : ε) {xs : List ε} (ascending : Ascending key xs) :
    Ascending key (upsert key e xs) := by
  induction xs with
  | nil => simp [upsert, Ascending]
  | cons x xs ih =>
    obtain ⟨below, rest⟩ := List.pairwise_cons.mp ascending
    simp only [upsert]
    split_ifs with less same
    · refine List.pairwise_cons.mpr ⟨?_, ih rest⟩
      intro y member
      rcases mem_upsert key member with rfl | later
      · exact less
      · exact below y later
    · refine List.pairwise_cons.mpr ⟨?_, rest⟩
      intro y member
      rw [← same]
      exact below y member
    · have above : key e < key x := lt_of_le_of_ne (not_lt.mp less) (Ne.symm same)
      refine List.pairwise_cons.mpr ⟨?_, ascending⟩
      intro y member
      rcases List.mem_cons.mp member with rfl | later
      · exact above
      · exact above.trans (below y later)

theorem ascending_ext {xs ys : List ε} (ascendingX : Ascending key xs) (ascendingY : Ascending key ys)
    (same : ∀ k, find key xs k = find key ys k) : xs = ys := by
  induction xs generalizing ys with
  | nil =>
    cases ys with
    | nil => rfl
    | cons y ys => simpa [find_cons] using same (key y)
  | cons x xs ih =>
    cases ys with
    | nil => simpa [find_cons] using same (key x)
    | cons y ys =>
      obtain ⟨belowX, restX⟩ := List.pairwise_cons.mp ascendingX
      obtain ⟨belowY, restY⟩ := List.pairwise_cons.mp ascendingY
      have atX : x ∈ y :: ys := (find_some key (by rw [← same, find_cons, if_pos rfl])).1
      have atY : y ∈ x :: xs := (find_some key (by rw [same, find_cons, if_pos rfl])).1
      have head : x = y := by
        rcases List.mem_cons.mp atX with eq | later
        · exact eq
        · rcases List.mem_cons.mp atY with eq | later'
          · exact eq.symm
          · exact absurd (belowY x later) (belowX y later').not_gt
      subst head
      congr 1
      apply ih restX restY
      intro k
      by_cases first : key x = k
      · have absentX : find key xs k = none :=
          (find_eq_none key).mpr fun e member => (first ▸ belowX e member).ne'
        have absentY : find key ys k = none :=
          (find_eq_none key).mpr fun e member => (first ▸ belowY e member).ne'
        rw [absentX, absentY]
      · simpa [find_cons, first] using same k

theorem filter_lt_append {xs : List ε} (ascending : Ascending key xs) (k : α) :
    (xs.filter fun x => key x < k) ++ (xs.filter fun x => ¬ key x < k) = xs := by
  induction xs with
  | nil => rfl
  | cons x xs ih =>
    obtain ⟨below, rest⟩ := List.pairwise_cons.mp ascending
    by_cases less : key x < k
    · simpa [less] using ih rest
    · have none : xs.filter (fun x => key x < k) = [] := by
        apply List.filter_eq_nil_iff.mpr
        intro y member
        simpa using (not_lt.mp less).trans (below y member).le
      have all : xs.filter (fun x => ¬ key x < k) = xs := by
        apply List.filter_eq_self.mpr
        intro y member
        simpa using (not_lt.mp less).trans (below y member).le
      rw [List.filter_cons_of_neg (by simpa using less), none, List.nil_append,
        List.filter_cons_of_pos (by simpa using less), all]

theorem takeWhile_lt_eq_filter {xs : List ε} (ascending : Ascending key xs) (k : α) :
    (xs.takeWhile fun x => key x < k) = xs.filter fun x => key x < k := by
  conv_lhs => rw [← filter_lt_append key ascending k]
  rw [List.takeWhile_append_of_pos (by simp)]
  have none : (xs.filter fun x => ¬ key x < k).takeWhile (fun x => key x < k) = [] := by
    cases rest : xs.filter fun x => ¬ key x < k with
    | nil => rfl
    | cons y ys =>
      have : ¬ key y < k := by
        have := List.mem_filter.mp (rest ▸ List.mem_cons_self : y ∈ xs.filter fun x => ¬ key x < k)
        simpa using this.2
      simp [this]
  rw [none, List.append_nil]

theorem find_eq_head {xs : List ε} (k : α) :
    find key (xs.filter fun x => ¬ key x < k) k = find key xs k := by
  simp only [find, List.find?_filter]
  congr 1
  funext e
  by_cases same : key e = k <;> simp [same]

theorem upsert_append {e : ε} {xs : List ε} (ys : List ε) (below : ∀ x ∈ xs, key x < key e) :
    upsert key e (xs ++ ys) = xs ++ upsert key e ys := by
  induction xs with
  | nil => rfl
  | cons x xs ih =>
    rw [List.cons_append, upsert, if_pos (below x (by simp)),
      ih fun y member => below y (by simp [member]), List.cons_append]

theorem upsert_of_lt_all {e : ε} {ys : List ε} (above : ∀ y ∈ ys, key e < key y) :
    upsert key e ys = e :: ys := by
  cases ys with
  | nil => rfl
  | cons y ys =>
    have := above y (by simp)
    rw [upsert, if_neg this.not_gt, if_neg this.ne']

theorem newest_nil (k : α) : newest key [] k = none := rfl

theorem newest_append (older newer : List ε) (k : α) :
    newest key (older ++ newer) k = (newest key newer k).or (newest key older k) := by
  simp [newest, find_append]

theorem newest_concat (log : List ε) (e : ε) (k : α) :
    newest key (log ++ [e]) k = if key e = k then some e else newest key log k := by
  rw [newest_append]
  by_cases same : key e = k <;> simp [newest, find_cons, same]

theorem newest_some {log : List ε} {k : α} {e : ε} (found : newest key log k = some e) :
    e ∈ log ∧ key e = k := by
  obtain ⟨member, same⟩ := find_some key found
  exact ⟨List.mem_reverse.mp member, same⟩

theorem replay_append (older newer xs : List ε) :
    replay key (older ++ newer) xs = replay key newer (replay key older xs) := by
  simp [replay]

theorem find_replay (log xs : List ε) (k : α) :
    find key (replay key log xs) k = (newest key log k).or (find key xs k) := by
  induction log using List.reverseRecOn with
  | nil => simp [replay, newest_nil]
  | append_singleton log e ih =>
    rw [replay_append, newest_concat]
    simp only [replay, List.foldl_cons, List.foldl_nil, find_upsert] at ih ⊢
    split_ifs <;> simp [ih]

theorem replay_ascending (log : List ε) {xs : List ε} (ascending : Ascending key xs) :
    Ascending key (replay key log xs) := by
  induction log generalizing xs with
  | nil => exact ascending
  | cons e log ih => exact ih (upsert_ascending key e ascending)

theorem replay_eq_nil (log : List ε) : replay key log [] = [] ↔ log = [] := by
  constructor
  · intro empty
    by_contra nonempty
    obtain ⟨front, last, rfl⟩ := List.eq_nil_or_concat log |>.resolve_left nonempty
    rw [List.concat_eq_append, replay_append] at empty
    exact upsert_ne_nil key last _ empty
  · rintro rfl
    rfl

theorem replay_ascending_self {xs : List ε} (ascending : Ascending key xs) : replay key xs [] = xs := by
  apply ascending_ext key (replay_ascending key xs List.Pairwise.nil) ascending
  intro k
  rw [find_replay, find_nil, Option.or_none]
  cases found : find key xs k with
  | none =>
    apply (find_eq_none key).mpr
    intro e member
    exact (find_eq_none key).mp found e (List.mem_reverse.mp member)
  | some e =>
    obtain ⟨member, rfl⟩ := find_some key found
    cases last : newest key xs (key e) with
    | none => exact absurd rfl ((find_eq_none key).mp last e (List.mem_reverse.mpr member))
    | some e' =>
      obtain ⟨member', same⟩ := newest_some key last
      rw [← find_mem key ascending member', same, found]

theorem mem_keys_replay (log : List ε) (k : α) : k ∈ (replay key log []).map key ↔ k ∈ log.map key := by
  have found := find_replay key log [] k
  rw [find_nil, Option.or_none] at found
  rw [← not_iff_not]
  simp only [List.mem_map, not_exists, not_and]
  rw [← find_eq_none key, found, newest, find_eq_none]
  simp

theorem replay_length [DecidableEq α] (log : List ε) : (replay key log []).length = (log.map key).toFinset.card := by
  have distinct : ((replay key log []).map key).Nodup :=
    (List.pairwise_map.mpr (replay_ascending key log List.Pairwise.nil)).imp fun less => less.ne
  have same : ((replay key log []).map key).toFinset = (log.map key).toFinset := by
    ext k
    rw [List.mem_toFinset, List.mem_toFinset]
    exact mem_keys_replay key log k
  rw [← same, List.toFinset_card_of_nodup distinct, List.length_map]

end KeyedList

end VectorDb.Lib
