import VectorDb.MemTable.Mutation
import VectorDb.MemTable.SkipListInvariant

namespace VectorDb.Storage
open Lib Common

structure MemTable where
  table : SkipList
  wellFormed : ∃ order, table.Represents order

namespace MemTable

def new (pf : Platform) : MemTable := ⟨SkipList.empty pf, [], SkipList.empty_represents pf⟩

def put (pf : Platform) (m : MemTable) (key value : Bytes) : MemTable where
  table := m.table.put pf key value
  wellFormed := by
    obtain ⟨order, rep⟩ := m.wellFormed
    exact (rep.put_writes pf key value).1

def delete (pf : Platform) (m : MemTable) (key : Bytes) : MemTable where
  table := m.table.delete pf key
  wellFormed := by
    obtain ⟨order, rep⟩ := m.wellFormed
    exact (rep.delete_writes pf key).1

def get (m : MemTable) (key : Bytes) : Option Bytes :=
  match m.table.get key with
  | some value => if value.isTombstone then none else some value.data
  | none => none

def approximateMemoryUsage (m : MemTable) : Nat := m.table.memoryUsage

def isEmpty (m : MemTable) : Bool := m.table.isEmpty

/-- What iteration from `Begin` yields. -/
def entries (m : MemTable) : List BlockEntry := m.table.entries

def apply (pf : Platform) (m : MemTable) : Mutation → MemTable
  | .put key value => m.put pf key value
  | .delete key => m.delete pf key

def applyAll (pf : Platform) (m : MemTable) (ms : List Mutation) : MemTable := ms.foldl (apply pf) m

@[simp] theorem entries_new (pf : Platform) : (new pf).entries = [] := by
  exact (SkipList.empty_represents pf).entries_eq

@[simp] theorem entries_put (pf : Platform) (m : MemTable) (key value : Bytes) :
    (m.put pf key value).entries = upsert BlockEntry.key ⟨key, value, false⟩ m.entries := by
  obtain ⟨order, rep⟩ := m.wellFormed
  exact (rep.put_writes pf key value).2

@[simp] theorem entries_delete (pf : Platform) (m : MemTable) (key : Bytes) :
    (m.delete pf key).entries = upsert BlockEntry.key ⟨key, [], true⟩ m.entries := by
  obtain ⟨order, rep⟩ := m.wellFormed
  exact (rep.delete_writes pf key).2

theorem entries_ascending (m : MemTable) : Ascending BlockEntry.key m.entries := by
  obtain ⟨order, rep⟩ := m.wellFormed
  exact rep.entries_ascending

theorem isEmpty_iff (m : MemTable) : m.isEmpty = true ↔ m.entries = [] := by
  obtain ⟨order, rep⟩ := m.wellFormed
  exact rep.isEmpty_iff

theorem entries_cleared (m : MemTable) : ∀ e ∈ m.entries, e.isTombstone = true → e.value = [] := by
  obtain ⟨order, rep⟩ := m.wellFormed
  intro e member dead
  rw [entries, rep.entries_eq] at member
  obtain ⟨n, inOrder, rfl⟩ := List.mem_map.mp member
  exact rep.cleared n inOrder dead

theorem table_get (m : MemTable) (key : Bytes) :
    m.table.get key = (find BlockEntry.key m.entries key).map fun e => ⟨e.isTombstone, e.value⟩ := by
  obtain ⟨order, rep⟩ := m.wellFormed
  exact rep.get_eq key

theorem get_eq (m : MemTable) (key : Bytes) :
    m.get key = (find BlockEntry.key m.entries key).bind BlockEntry.visible := by
  rw [get, table_get]
  cases find BlockEntry.key m.entries key <;> rfl

theorem entries_apply (pf : Platform) (m : MemTable) (op : Mutation) :
    (m.apply pf op).entries = upsert BlockEntry.key op.effect m.entries := by
  cases op with
  | put key value => exact entries_put pf m key value
  | delete key => exact entries_delete pf m key

theorem entries_applyAll (pf : Platform) (m : MemTable) (ms : List Mutation) :
    (m.applyAll pf ms).entries = replay BlockEntry.key (ms.map Mutation.effect) m.entries := by
  induction ms generalizing m with
  | nil => rfl
  | cons op ms ih =>
    rw [applyAll, List.foldl_cons, ← applyAll, ih, entries_apply]
    rfl

theorem entries_applyAll_new (pf : Platform) (ms : List Mutation) :
    ((new pf).applyAll pf ms).entries = replay BlockEntry.key (ms.map Mutation.effect) [] := by
  rw [entries_applyAll, entries_new]

theorem find_applyAll_new (pf : Platform) (ms : List Mutation) (key : Bytes) :
    find BlockEntry.key ((new pf).applyAll pf ms).entries key = newest BlockEntry.key (ms.map Mutation.effect) key := by
  rw [entries_applyAll_new, find_replay, find_nil, Option.or_none]

theorem table_get_append (pf : Platform) (older newer : List Mutation) (key : Bytes) :
    ((new pf).applyAll pf (older ++ newer)).table.get key =
      (((new pf).applyAll pf newer).table.get key).or (((new pf).applyAll pf older).table.get key) := by
  simp only [table_get, find_applyAll_new, List.map_append, newest_append]
  cases newest BlockEntry.key (newer.map Mutation.effect) key <;> rfl

theorem applyAll_twice (pf : Platform) (ms : List Mutation) :
    (((new pf).applyAll pf ms).applyAll pf ms).entries = ((new pf).applyAll pf ms).entries := by
  apply ascending_ext BlockEntry.key (entries_ascending _) (entries_ascending _)
  intro key
  rw [entries_applyAll, find_replay, find_applyAll_new, Option.or_self]

theorem entries_length (pf : Platform) (ms : List Mutation) :
    ((new pf).applyAll pf ms).entries.length = (ms.map Mutation.key).toFinset.card := by
  rw [entries_applyAll_new, replay_length, List.map_map]
  exact congrArg (fun keys => keys.toFinset.card) (List.map_congr_left fun m _ => Mutation.effect_key m)

end MemTable

end VectorDb.Storage
