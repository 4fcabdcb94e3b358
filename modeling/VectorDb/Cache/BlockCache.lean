import VectorDb.Lib.Bytes
import Mathlib.Data.List.Nodup
import Mathlib.Logic.Function.Basic

namespace VectorDb.Storage
open Lib

/-- A node of `lru_list_`. Its `id` is what an iterator to it holds. -/
structure CacheNode where
  id : Nat
  key : Bytes
  data : Bytes
deriving DecidableEq, Repr

/-- The front of `lruList` is the most recently used node. -/
structure BlockCache where
  capacityBytes : Nat
  currentSizeBytes : Nat
  lruList : List CacheNode
  hashMap : Bytes → Option Nat
  nextId : Nat
  hits : Nat
  misses : Nat

namespace BlockCache

def new (capacityMb : Nat) : BlockCache where
  capacityBytes := capacityMb * 1024 * 1024 % 2 ^ 64
  currentSizeBytes := 0
  lruList := []
  hashMap := fun _ => none
  nextId := 0
  hits := 0
  misses := 0

def makeCacheKey (sstableFilepath : Bytes) (blockOffset : Nat) : Bytes :=
  sstableFilepath ++ text ":" ++ decimal blockOffset

def itemSize (key data : Bytes) : Nat := (key.length + data.length) % 2 ^ 64

def node (cache : BlockCache) (id : Nat) : Option CacheNode := cache.lruList.find? fun node => node.id = id

/-- `Get`. A key found under the read lock is found again under the write lock, since no call comes in
between. `none` is the use of an iterator whose node is gone. -/
def get (cache : BlockCache) (cacheKey : Bytes) : Option (Option Bytes × BlockCache) :=
  match cache.hashMap cacheKey with
  | none => some (none, { cache with misses := (cache.misses + 1) % 2 ^ 64 })
  | some id => do
    let node ← cache.node id
    let rest := cache.lruList.filter fun other => other.id ≠ id
    return (some node.data, { cache with lruList := node :: rest, hits := (cache.hits + 1) % 2 ^ 64 })

def removeOld (cache : BlockCache) (cacheKey : Bytes) : Option BlockCache :=
  match cache.hashMap cacheKey with
  | none => some cache
  | some id => do
    let node ← cache.node id
    return { cache with
      currentSizeBytes := (cache.currentSizeBytes + (2 ^ 64 - itemSize node.key node.data)) % 2 ^ 64
      lruList := cache.lruList.filter fun other => other.id ≠ id
      hashMap := Function.update cache.hashMap cacheKey none }

def pushFront (cache : BlockCache) (cacheKey blockData : Bytes) : BlockCache :=
  { cache with
    lruList := ⟨cache.nextId, cacheKey, blockData⟩ :: cache.lruList
    hashMap := Function.update cache.hashMap cacheKey (some cache.nextId)
    nextId := cache.nextId + 1
    currentSizeBytes := (cache.currentSizeBytes + itemSize cacheKey blockData) % 2 ^ 64 }

/-- The eviction loop. Every pass takes a node, so as many passes as there are nodes are enough. -/
def evict (cache : BlockCache) : Nat → BlockCache
  | 0 => cache
  | passes + 1 =>
    if cache.currentSizeBytes > cache.capacityBytes then
      match cache.lruList.getLast? with
      | none => cache
      | some last =>
        evict { cache with
          hashMap := Function.update cache.hashMap last.key none
          lruList := cache.lruList.dropLast
          currentSizeBytes := (cache.currentSizeBytes + (2 ^ 64 - itemSize last.key last.data)) % 2 ^ 64 } passes
    else cache

def put (cache : BlockCache) (cacheKey blockData : Bytes) : Option BlockCache :=
  if itemSize cacheKey blockData > cache.capacityBytes then some cache
  else do
    let cache ← cache.removeOld cacheKey
    let cache := cache.pushFront cacheKey blockData
    return cache.evict cache.lruList.length

inductive Call where
  | put (cacheKey blockData : Bytes)
  | get (cacheKey : Bytes)
deriving DecidableEq, Repr

def call (cache : BlockCache) : Call → Option BlockCache
  | .put cacheKey blockData => cache.put cacheKey blockData
  | .get cacheKey => (cache.get cacheKey).map Prod.snd

def after (capacityMb : Nat) (calls : List Call) : Option BlockCache := calls.foldlM call (new capacityMb)

theorem makeCacheKey_inj {path path' : Bytes} {offset offset' : Nat} :
    makeCacheKey path offset = makeCacheKey path' offset' ↔ path = path' ∧ offset = offset' := by
  constructor
  · intro same
    have clean (n : Nat) : (58 : Byte) ∉ (decimal n).reverse := by
      intro member
      have digit := decimal_digit n 58 (List.mem_reverse.mp member)
      exact absurd digit (by decide)
    have mark : text ":" = [58] := by decide
    have reversed := congrArg List.reverse same
    simp only [makeCacheKey, mark, List.reverse_append, List.reverse_singleton, List.singleton_append] at reversed
    obtain ⟨digits, paths⟩ := append_mark_inj (clean offset) (clean offset') reversed
    exact ⟨List.reverse_injective paths, decimal_injective (List.reverse_injective digits)⟩
  · rintro ⟨rfl, rfl⟩
    rfl

structure Linked (cache : BlockCache) : Prop where
  ids : (cache.lruList.map CacheNode.id).Nodup
  keys : (cache.lruList.map CacheNode.key).Nodup
  issued : ∀ node ∈ cache.lruList, node.id < cache.nextId
  mapped : ∀ key id, cache.hashMap key = some id ↔ ∃ node ∈ cache.lruList, node.id = id ∧ node.key = key

theorem linked_new (capacityMb : Nat) : (new capacityMb).Linked :=
  ⟨List.nodup_nil, List.nodup_nil, by simp [new], by simp [new]⟩

namespace Linked

variable {cache : BlockCache}

theorem node_eq (linked : cache.Linked) {node : CacheNode} (member : node ∈ cache.lruList) :
    cache.node node.id = some node := by
  cases found : cache.node node.id with
  | none =>
    have differs := List.find?_eq_none.mp found node member
    simp at differs
  | some other =>
    have sameId : other.id = node.id := by simpa using List.find?_some found
    rw [List.inj_on_of_nodup_map linked.ids (List.mem_of_find?_eq_some found) member sameId]

theorem hashMap_eq (linked : cache.Linked) {node : CacheNode} (member : node ∈ cache.lruList) :
    cache.hashMap node.key = some node.id := (linked.mapped _ _).mpr ⟨node, member, rfl, rfl⟩

theorem hashMap_eq_none (linked : cache.Linked) {key : Bytes} :
    cache.hashMap key = none ↔ ∀ node ∈ cache.lruList, node.key ≠ key := by
  constructor
  · rintro absent node member rfl
    rw [linked.hashMap_eq member] at absent
    cases absent
  · intro absent
    rw [Option.eq_none_iff_forall_ne_some]
    intro id present
    obtain ⟨node, member, -, sameKey⟩ := (linked.mapped key id).mp present
    exact absent node member sameKey

theorem id_eq_iff (linked : cache.Linked) {node other : CacheNode} (member : node ∈ cache.lruList)
    (otherMember : other ∈ cache.lruList) : other.id = node.id ↔ other.key = node.key := by
  constructor
  · intro sameId
    rw [List.inj_on_of_nodup_map linked.ids otherMember member sameId]
  · intro sameKey
    rw [List.inj_on_of_nodup_map linked.keys otherMember member sameKey]

theorem filter_id (linked : cache.Linked) {node : CacheNode} (member : node ∈ cache.lruList) :
    (cache.lruList.filter fun other => other.id ≠ node.id) = cache.lruList.filter fun other => other.key ≠ node.key := by
  apply List.filter_congr
  intro other otherMember
  simpa using linked.id_eq_iff member otherMember

theorem get_miss {key : Bytes} (absent : cache.hashMap key = none) :
    cache.get key = some (none, { cache with misses := (cache.misses + 1) % 2 ^ 64 }) := by
  simp only [get, absent]

theorem get_hit (linked : cache.Linked) {node : CacheNode} (member : node ∈ cache.lruList) :
    cache.get node.key = some (some node.data, { cache with
      lruList := node :: cache.lruList.filter fun other => other.key ≠ node.key
      hits := (cache.hits + 1) % 2 ^ 64 }) := by
  simp only [get, linked.hashMap_eq member, linked.node_eq member, ← linked.filter_id member]
  rfl

theorem erase (linked : cache.Linked) (key : Bytes) (size : Nat) :
    Linked { cache with
      currentSizeBytes := size
      lruList := cache.lruList.filter fun node => node.key ≠ key
      hashMap := Function.update cache.hashMap key none } := by
  refine ⟨linked.ids.sublist (List.filter_sublist.map _), linked.keys.sublist (List.filter_sublist.map _),
    fun node member => linked.issued node (List.mem_of_mem_filter member), ?_⟩
  intro other id
  by_cases same : other = key
  · subst same
    simp only [Function.update_self, reduceCtorEq, false_iff]
    rintro ⟨node, member, -, sameKey⟩
    simp [sameKey] at member
  · simp only [Function.update_of_ne same, linked.mapped]
    constructor
    · rintro ⟨node, member, rfl, rfl⟩
      exact ⟨node, List.mem_filter.mpr ⟨member, by simpa using same⟩, rfl, rfl⟩
    · rintro ⟨node, member, rfl, rfl⟩
      exact ⟨node, List.mem_of_mem_filter member, rfl, rfl⟩

theorem removeOld_eq (linked : cache.Linked) (key : Bytes) :
    ∃ old, cache.removeOld key = some old ∧ old.Linked ∧ old.capacityBytes = cache.capacityBytes ∧
      old.lruList = cache.lruList.filter fun node => node.key ≠ key := by
  cases present : cache.hashMap key with
  | none =>
    have absent := linked.hashMap_eq_none.mp present
    refine ⟨cache, by simp only [removeOld, present], linked, rfl, ?_⟩
    exact (List.filter_eq_self.mpr fun node member => by simpa using absent node member).symm
  | some id =>
    obtain ⟨node, member, rfl, rfl⟩ := (linked.mapped key id).mp present
    have removed : cache.removeOld node.key = some { cache with
        currentSizeBytes := (cache.currentSizeBytes + (2 ^ 64 - itemSize node.key node.data)) % 2 ^ 64
        lruList := cache.lruList.filter fun other => other.key ≠ node.key
        hashMap := Function.update cache.hashMap node.key none } := by
      simp only [removeOld, present, linked.node_eq member, ← linked.filter_id member]
      rfl
    exact ⟨_, removed, linked.erase node.key _, rfl, rfl⟩

theorem pushFront (linked : cache.Linked) {key : Bytes} (data : Bytes)
    (absent : ∀ node ∈ cache.lruList, node.key ≠ key) : (cache.pushFront key data).Linked := by
  have newId : ∀ node ∈ cache.lruList, node.id ≠ cache.nextId := fun node member => (linked.issued node member).ne
  refine ⟨?_, ?_, ?_, ?_⟩
  · exact List.nodup_cons.mpr ⟨by simpa using newId, linked.ids⟩
  · exact List.nodup_cons.mpr ⟨by simpa using absent, linked.keys⟩
  · intro node member
    rcases List.mem_cons.mp member with rfl | old
    · exact Nat.lt_succ_self _
    · exact (linked.issued node old).trans (Nat.lt_succ_self _)
  · intro other id
    by_cases same : other = key
    · subst same
      simp only [BlockCache.pushFront, Function.update_self, Option.some.injEq, List.mem_cons, exists_eq_or_imp,
        and_true]
      refine ⟨.inl, ?_⟩
      rintro (sameId | ⟨node, member, -, sameKey⟩)
      · exact sameId
      · exact absurd sameKey (absent node member)
    · simp [BlockCache.pushFront, Function.update_of_ne same, linked.mapped, Ne.symm same]

theorem dropLast_eq (linked : cache.Linked) {last : CacheNode} (isLast : cache.lruList.getLast? = some last) :
    cache.lruList.dropLast = cache.lruList.filter fun node => node.key ≠ last.key := by
  have split := List.dropLast_append_getLast? last isLast
  have keys := linked.keys
  rw [← split, List.map_append, List.map_singleton] at keys
  have others : ∀ node ∈ cache.lruList.dropLast, node.key ≠ last.key := by
    intro node member sameKey
    have apart := (List.nodup_append.mp keys).2.2 node.key (List.mem_map_of_mem member) last.key (by simp)
    exact apart sameKey
  conv_rhs => rw [← split]
  rw [List.filter_append, List.filter_eq_self.mpr fun node member => by simpa using others node member]
  simp

theorem evict (linked : cache.Linked) (passes : Nat) :
    (cache.evict passes).Linked ∧ (cache.evict passes).capacityBytes = cache.capacityBytes ∧
      (cache.evict passes).lruList <+: cache.lruList := by
  induction passes generalizing cache with
  | zero => exact ⟨linked, rfl, List.prefix_refl _⟩
  | succ passes ih =>
    rw [BlockCache.evict]
    split
    next =>
      split
      next => exact ⟨linked, rfl, List.prefix_refl _⟩
      next last isLast =>
        have erased := linked.erase last.key
          ((cache.currentSizeBytes + (2 ^ 64 - itemSize last.key last.data)) % 2 ^ 64)
        rw [← linked.dropLast_eq isLast] at erased
        obtain ⟨later, capacity, kept⟩ := ih erased
        exact ⟨later, capacity, kept.trans (List.dropLast_prefix _)⟩
    next => exact ⟨linked, rfl, List.prefix_refl _⟩

theorem perm (linked : cache.Linked) {moved : List CacheNode} (perm : moved.Perm cache.lruList) (hits : Nat) :
    Linked { cache with lruList := moved, hits := hits } := by
  refine ⟨(perm.map _).nodup_iff.mpr linked.ids, (perm.map _).nodup_iff.mpr linked.keys,
    fun node member => linked.issued node (perm.mem_iff.mp member), ?_⟩
  intro key id
  simp only [linked.mapped, perm.mem_iff]

theorem front_perm (linked : cache.Linked) {node : CacheNode} (member : node ∈ cache.lruList) :
    (node :: cache.lruList.filter fun other => other.key ≠ node.key).Perm cache.lruList := by
  have others : (cache.lruList.filter fun other => other.key ≠ node.key) = cache.lruList.erase node := by
    rw [linked.ids.of_map.erase_eq_filter]
    apply List.filter_congr
    intro other otherMember
    have same : other.key = node.key ↔ other = node :=
      ⟨List.inj_on_of_nodup_map linked.keys otherMember member, fun eq => eq ▸ rfl⟩
    rw [Bool.eq_iff_iff]
    simp [same]
  rw [others]
  exact (List.perm_cons_erase member).symm

theorem get_eq (linked : cache.Linked) (key : Bytes) :
    ∃ answer next, cache.get key = some (answer, next) ∧ next.Linked ∧
      next.capacityBytes = cache.capacityBytes ∧ next.lruList.Perm cache.lruList ∧
      ((answer = none ∧ ∀ node ∈ cache.lruList, node.key ≠ key) ∨
        ∃ node ∈ cache.lruList, node.key = key ∧ answer = some node.data) := by
  cases present : cache.hashMap key with
  | none =>
    have absent := linked.hashMap_eq_none.mp present
    exact ⟨_, _, get_miss present, ⟨linked.ids, linked.keys, linked.issued, linked.mapped⟩, rfl, .refl _,
      .inl ⟨rfl, absent⟩⟩
  | some id =>
    obtain ⟨node, member, rfl, rfl⟩ := (linked.mapped key id).mp present
    have perm := linked.front_perm member
    exact ⟨_, _, linked.get_hit member, linked.perm perm _, rfl, perm, .inr ⟨node, member, rfl, rfl⟩⟩

theorem put_refused {key data : Bytes} (large : cache.capacityBytes < itemSize key data) :
    cache.put key data = some cache := by
  rw [put, if_pos large]

theorem put_accepted (linked : cache.Linked) {key data : Bytes} (fits : itemSize key data ≤ cache.capacityBytes) :
    ∃ old, cache.removeOld key = some old ∧
      cache.put key data = some ((old.pushFront key data).evict (old.pushFront key data).lruList.length) ∧
      (old.pushFront key data).Linked ∧ old.capacityBytes = cache.capacityBytes ∧
      old.lruList = cache.lruList.filter fun node => node.key ≠ key := by
  obtain ⟨old, removed, linkedOld, capacity, others⟩ := linked.removeOld_eq key
  have absent : ∀ node ∈ old.lruList, node.key ≠ key := by
    intro node member
    rw [others] at member
    simpa using (List.mem_filter.mp member).2
  refine ⟨old, removed, ?_, linkedOld.pushFront data absent, capacity, others⟩
  rw [put, if_neg (not_lt.mpr fits), removed]
  rfl

theorem put_eq (linked : cache.Linked) {key data : Bytes} (fits : itemSize key data ≤ cache.capacityBytes) :
    ∃ next id, cache.put key data = some next ∧ next.Linked ∧ next.capacityBytes = cache.capacityBytes ∧
      next.lruList <+: ⟨id, key, data⟩ :: cache.lruList.filter fun node => node.key ≠ key := by
  obtain ⟨old, -, wrote, linkedOld, capacity, others⟩ := linked.put_accepted fits
  obtain ⟨linkedNext, capacityNext, kept⟩ := linkedOld.evict (old.pushFront key data).lruList.length
  refine ⟨_, old.nextId, wrote, linkedNext, capacityNext.trans capacity, ?_⟩
  rw [← others]
  exact kept

end Linked

end BlockCache

end VectorDb.Storage
