import VectorDb.MemTable.MemTable

namespace VectorDb.Storage
open Lib Common

namespace SkipList

def apply (pf : Platform) (s : SkipList) : Mutation → SkipList
  | .put key value => s.put pf key value
  | .delete key => s.delete pf key

def applyAll (pf : Platform) (s : SkipList) (ms : List Mutation) : SkipList := ms.foldl (apply pf) s

/-- What the loop `for (; iter.Valid(); iter.Next())` goes through from this iterator on. -/
inductive Iterates (s : SkipList) : Option NodePtr → List BlockEntry → Prop
  | done : Iterates s none []
  | next {n : NodePtr} {rest : List BlockEntry} :
      Iterates s (s.next n 0) rest → Iterates s (some n) (s.entryAt n :: rest)

def begin (s : SkipList) : Option NodePtr := s.next 0 0

structure RefinesMap (s : SkipList) (ms : List Mutation) : Prop where
  get : ∀ key, s.get key = (newest Mutation.key ms key).map fun m => ⟨m.effect.isTombstone, m.effect.value⟩
  isEmpty : s.isEmpty = true ↔ ms = []
  iterates : ∃ entries, s.Iterates s.begin entries ∧ Ascending BlockEntry.key entries ∧
    ∀ entry, entry ∈ entries ↔ ∃ m, newest Mutation.key ms entry.key = some m ∧ m.effect = entry

variable {s : SkipList} {order : List NodePtr}

theorem Linked.iterates {start : Option NodePtr} (linked : s.Linked 0 start order) :
    s.Iterates start (order.map s.entryAt) := by
  induction order generalizing start with
  | nil =>
    obtain rfl : start = none := linked
    exact .done
  | cons n rest ih =>
    obtain ⟨rfl, linked⟩ := linked
    exact .next (ih linked)

theorem Represents.iterates (rep : s.Represents order) : s.Iterates s.begin s.entries := by
  have linked := rep.linked 0 (by decide)
  rw [rep.lane_zero] at linked
  rw [rep.entries_eq]
  exact linked.iterates

end SkipList

namespace MemTable

theorem table_applyAll (pf : Platform) (m : MemTable) (ms : List Mutation) :
    (m.applyAll pf ms).table = m.table.applyAll pf ms := by
  induction ms generalizing m with
  | nil => rfl
  | cons first ms ih =>
    have applied : (m.apply pf first).table = m.table.apply pf first := by cases first <;> rfl
    rw [applyAll, List.foldl_cons, ← applyAll, ih, applied]
    rfl

end MemTable

theorem newest_effects (ms : List Mutation) (key : Bytes) :
    newest BlockEntry.key (ms.map Mutation.effect) key = (newest Mutation.key ms key).map Mutation.effect := by
  rw [newest, ← List.map_reverse]
  exact find_map Mutation.key BlockEntry.key Mutation.effect Mutation.effect_key ms.reverse key

theorem skipList_refines_map (pf : Platform) (ms : List Mutation) :
    ((SkipList.empty pf).applyAll pf ms).RefinesMap ms := by
  have table := MemTable.table_applyAll pf (MemTable.new pf) ms
  have entries := MemTable.entries_applyAll_new pf ms
  have found : ∀ key, find BlockEntry.key ((MemTable.new pf).applyAll pf ms).entries key =
      (newest Mutation.key ms key).map Mutation.effect := by
    intro key
    rw [MemTable.find_applyAll_new, newest_effects]
  obtain ⟨order, rep⟩ := ((MemTable.new pf).applyAll pf ms).wellFormed
  have ascending := ((MemTable.new pf).applyAll pf ms).entries_ascending
  change _ = (SkipList.empty pf).applyAll pf ms at table
  rw [← table]
  refine ⟨fun key => ?_, ?_, _, rep.iterates, ascending, fun entry => ?_⟩
  · rw [MemTable.table_get, found, Option.map_map]
    rfl
  · rw [← MemTable.isEmpty, MemTable.isEmpty_iff, entries, replay_eq_nil, List.map_eq_nil_iff]
  · have member := find_eq_some BlockEntry.key ascending (k := entry.key) (e := entry)
    rw [and_iff_left rfl, found, Option.map_eq_some_iff] at member
    exact member.symm

end VectorDb.Storage
