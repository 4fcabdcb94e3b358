import VectorDb.Cache.Freshness
import VectorDb.Lib.Recency

namespace VectorDb.Storage.BlockCache
open Lib

def residentBytes (nodes : List CacheNode) : Nat := (nodes.map fun node => node.key.length + node.data.length).sum

def Call.used (cache : BlockCache) : Call → Option Bytes
  | put cacheKey blockData => if itemSize cacheKey blockData ≤ cache.capacityBytes then some cacheKey else none
  | get cacheKey => (cache.get cacheKey).bind fun answer => answer.1.map fun _ => cacheKey

def uses (cache : BlockCache) : List Call → List (Option Bytes)
  | [] => []
  | call :: calls =>
    match cache.call call with
    | some next => uses next calls ++ [call.used cache]
    | none => [call.used cache]

def Call.isGet : Call → Bool
  | put _ _ => false
  | get _ => true

/-- The state of the cache after the calls. Sizes and counters are `size_t`. -/
structure Lru (capacityMb : Nat) (calls : List Call) (cache : BlockCache) : Prop where
  linked : cache.Linked
  counted : cache.currentSizeBytes = residentBytes cache.lruList % 2 ^ 64
  within : cache.currentSizeBytes ≤ cache.capacityBytes
  recent : ByRecency (uses (new capacityMb) calls) (cache.lruList.map CacheNode.key)
  gets : ∃ hits misses, hits + misses = calls.countP Call.isGet ∧ cache.hits = hits % 2 ^ 64 ∧
    cache.misses = misses % 2 ^ 64

variable {cache next : BlockCache} {key data : Bytes}

theorem residentBytes_perm {nodes moved : List CacheNode} (perm : moved.Perm nodes) :
    residentBytes moved = residentBytes nodes := (perm.map _).sum_eq

theorem residentBytes_cons (node : CacheNode) (nodes : List CacheNode) :
    residentBytes (node :: nodes) = node.key.length + node.data.length + residentBytes nodes := by
  rw [residentBytes, List.map_cons, List.sum_cons, residentBytes]

def Counted (cache : BlockCache) : Prop := cache.currentSizeBytes = residentBytes cache.lruList % 2 ^ 64

namespace Counted

theorem remove (counted : cache.Counted) {node : CacheNode} {rest : List CacheNode}
    (perm : (node :: rest).Perm cache.lruList) :
    (cache.currentSizeBytes + (2 ^ 64 - itemSize node.key node.data)) % 2 ^ 64 = residentBytes rest % 2 ^ 64 := by
  have total := residentBytes_perm perm
  rw [residentBytes_cons] at total
  rw [counted, itemSize, ← total]
  omega

theorem pushFront (counted : cache.Counted) (key data : Bytes) : (cache.pushFront key data).Counted := by
  have total := residentBytes_cons ⟨cache.nextId, key, data⟩ cache.lruList
  rw [Counted, BlockCache.pushFront, counted, itemSize, total]
  exact (Nat.add_mod _ _ _).symm.trans (congrArg (· % 2 ^ 64) (Nat.add_comm _ _))

end Counted

structure Evicted (before after : BlockCache) : Prop where
  counted : after.Counted
  within : after.currentSizeBytes ≤ before.capacityBytes
  hits : after.hits = before.hits
  misses : after.misses = before.misses
  front : ∀ first rest, before.lruList = first :: rest → itemSize first.key first.data ≤ before.capacityBytes →
    first ∈ after.lruList

theorem Counted.empty (counted : cache.Counted) (empty : cache.lruList = []) : cache.currentSizeBytes = 0 := by
  rw [counted, empty]
  rfl

theorem Counted.single (counted : cache.Counted) {node : CacheNode} (single : cache.lruList = [node]) :
    cache.currentSizeBytes = itemSize node.key node.data := by
  rw [counted, single, residentBytes_cons]
  rfl

theorem Counted.unchanged (counted : cache.Counted) (small : cache.currentSizeBytes ≤ cache.capacityBytes) :
    Evicted cache cache :=
  ⟨counted, small, rfl, rfl, fun _ _ isFirst _ => isFirst ▸ List.mem_cons_self⟩

theorem Counted.evicted (counted : cache.Counted) {passes : Nat} (enough : cache.lruList.length ≤ passes) :
    Evicted cache (cache.evict passes) := by
  induction passes generalizing cache with
  | zero =>
    have empty := List.length_eq_zero_iff.mp (Nat.le_zero.mp enough)
    exact counted.unchanged ((counted.empty empty).trans_le (Nat.zero_le _))
  | succ passes ih =>
    rw [BlockCache.evict]
    split
    next large =>
      split
      next isLast =>
        rw [counted.empty (List.getLast?_eq_none_iff.mp isLast)] at large
        exact absurd large (Nat.not_lt_zero _)
      next last isLast =>
        have split := List.dropLast_append_getLast? last isLast
        have removed : Counted { cache with
            hashMap := Function.update cache.hashMap last.key none
            lruList := cache.lruList.dropLast
            currentSizeBytes := _ } := counted.remove ((List.perm_append_singleton last _).symm.trans (.of_eq split))
        have fewer : cache.lruList.dropLast.length ≤ passes := by
          rw [List.length_dropLast]
          omega
        have later := ih removed fewer
        refine ⟨later.counted, later.within, later.hits, later.misses, ?_⟩
        intro first rest isFirst fits
        -- alone, the first node would be all that is counted
        have others : rest ≠ [] := by
          rintro rfl
          rw [counted.single isFirst] at large
          exact absurd fits (not_le.mpr large)
        refine later.front first rest.dropLast ?_ fits
        rw [isFirst, List.dropLast_cons_of_ne_nil others]
    next fits => exact counted.unchanged (not_lt.mp fits)

theorem Linked.removeOld_counted (linked : cache.Linked) (counted : cache.Counted) {old : BlockCache}
    (removed : cache.removeOld key = some old) :
    old.Counted ∧ old.hits = cache.hits ∧ old.misses = cache.misses := by
  rw [removeOld] at removed
  split at removed
  next =>
    cases removed
    exact ⟨counted, rfl, rfl⟩
  next id present =>
    obtain ⟨node, member, rfl, rfl⟩ := (linked.mapped key id).mp present
    rw [linked.node_eq member, linked.filter_id member] at removed
    cases removed
    exact ⟨counted.remove (linked.front_perm member), rfl, rfl⟩

theorem Linked.put_evicted (linked : cache.Linked) (counted : cache.Counted)
    (fits : itemSize key data ≤ cache.capacityBytes) :
    ∃ next id gone, cache.put key data = some next ∧ next.Linked ∧ next.Counted ∧
      next.capacityBytes = cache.capacityBytes ∧ next.currentSizeBytes ≤ cache.capacityBytes ∧
      next.hits = cache.hits ∧ next.misses = cache.misses ∧ ⟨id, key, data⟩ ∈ next.lruList ∧
      next.lruList ++ gone = ⟨id, key, data⟩ :: cache.lruList.filter fun node => node.key ≠ key := by
  obtain ⟨old, removed, wrote, linkedOld, capacity, others⟩ := linked.put_accepted fits
  obtain ⟨countedOld, hits, misses⟩ := linked.removeOld_counted counted removed
  obtain ⟨linkedNext, capacityNext, gone, kept⟩ := linkedOld.evict (old.pushFront key data).lruList.length
  have evicted := (countedOld.pushFront key data).evicted le_rfl
  rw [← capacity] at fits
  refine ⟨_, old.nextId, gone, wrote, linkedNext, evicted.counted, capacityNext.trans capacity,
    evicted.within.trans_eq capacity, evicted.hits.trans hits, evicted.misses.trans misses,
    evicted.front _ _ rfl fits, ?_⟩
  rw [← others]
  exact kept

theorem uses_concat {calls : List Call} {last : BlockCache} (reached : calls.foldlM BlockCache.call cache = some last)
    (call : Call) : uses cache (calls ++ [call]) = call.used last :: uses cache calls := by
  induction calls generalizing cache with
  | nil =>
    cases reached
    simp only [List.nil_append, uses]
    cases last.call call <;> rfl
  | cons first calls ih =>
    rw [List.foldlM_cons] at reached
    obtain ⟨next, called, rest⟩ := Option.bind_eq_some_iff.mp reached
    simp only [List.cons_append, uses, called, ih rest]

theorem filter_keys (nodes : List CacheNode) (key : Bytes) :
    (nodes.filter fun node => node.key ≠ key).map CacheNode.key =
      (nodes.map CacheNode.key).filter fun other => other ≠ key := by
  rw [List.filter_map]
  rfl

variable {capacityMb : Nat} {calls : List Call}

namespace Lru

theorem new (capacityMb : Nat) : Lru capacityMb [] (new capacityMb) :=
  ⟨linked_new capacityMb, rfl, Nat.zero_le _, .nil, 0, 0, rfl, rfl, rfl⟩

theorem miss (lru : Lru capacityMb calls cache) (reached : after capacityMb calls = some cache)
    (absent : cache.hashMap key = none) :
    Lru capacityMb (calls ++ [.get key]) { cache with misses := (cache.misses + 1) % 2 ^ 64 } := by
  have linked := lru.linked
  obtain ⟨hits, misses, total, hitsEq, missesEq⟩ := lru.gets
  have idle : (Call.get key).used cache = none := by rw [Call.used, Linked.get_miss absent]; rfl
  refine ⟨⟨linked.ids, linked.keys, linked.issued, linked.mapped⟩, lru.counted, lru.within, ?_,
    hits, misses + 1, ?_, hitsEq, ?_⟩
  · rw [uses_concat reached, idle]
    exact lru.recent.idle
  · rw [List.countP_append, ← total]
    rfl
  · rw [missesEq]
    exact Nat.mod_add_mod _ _ _

theorem hit (lru : Lru capacityMb calls cache) (reached : after capacityMb calls = some cache) {node : CacheNode}
    (member : node ∈ cache.lruList) :
    Lru capacityMb (calls ++ [.get node.key]) { cache with
      lruList := node :: cache.lruList.filter fun other => other.key ≠ node.key
      hits := (cache.hits + 1) % 2 ^ 64 } := by
  have perm := lru.linked.front_perm member
  obtain ⟨hits, misses, total, hitsEq, missesEq⟩ := lru.gets
  have used : (Call.get node.key).used cache = some node.key := by rw [Call.used, lru.linked.get_hit member]; rfl
  refine ⟨lru.linked.perm perm _, ?_, lru.within, ?_, hits + 1, misses, ?_, ?_, missesEq⟩
  · exact lru.counted.trans (congrArg (· % 2 ^ 64) (residentBytes_perm perm).symm)
  · rw [uses_concat reached, used, List.map_cons, filter_keys]
    exact lru.recent.touch node.key
  · rw [List.countP_append, ← total]
    exact Nat.add_right_comm _ _ _
  · rw [hitsEq]
    exact Nat.mod_add_mod _ _ _

theorem refused (lru : Lru capacityMb calls cache) (reached : after capacityMb calls = some cache)
    (large : cache.capacityBytes < itemSize key data) : Lru capacityMb (calls ++ [.put key data]) cache := by
  have idle : (Call.put key data).used cache = none := by rw [Call.used, if_neg (not_le.mpr large)]
  refine ⟨lru.linked, lru.counted, lru.within, ?_, ?_⟩
  · rw [uses_concat reached, idle]
    exact lru.recent.idle
  · rw [List.countP_append]
    exact lru.gets

theorem recent_put (lru : Lru capacityMb calls cache) (reached : after capacityMb calls = some cache)
    (fits : itemSize key data ≤ cache.capacityBytes) {kept gone : List CacheNode} {id : Nat}
    (split : kept ++ gone = ⟨id, key, data⟩ :: cache.lruList.filter fun node => node.key ≠ key) :
    ByRecency (uses (.new capacityMb) (calls ++ [.put key data])) (kept.map CacheNode.key ++ gone.map CacheNode.key) := by
  have used : (Call.put key data).used cache = some key := if_pos fits
  rw [uses_concat reached, used, ← List.map_append, split, List.map_cons, filter_keys]
  exact lru.recent.touch key

theorem accepted (lru : Lru capacityMb calls cache) (reached : after capacityMb calls = some cache)
    (fits : itemSize key data ≤ cache.capacityBytes) :
    ∃ next, cache.put key data = some next ∧ Lru capacityMb (calls ++ [.put key data]) next ∧
      (∃ node ∈ next.lruList, node.key = key ∧ node.data = data) ∧
      ∀ node ∈ cache.lruList, (∀ kept ∈ next.lruList, kept.key ≠ node.key) → ∀ kept ∈ next.lruList,
        age (uses (.new capacityMb) (calls ++ [.put key data])) kept.key <
          age (uses (.new capacityMb) (calls ++ [.put key data])) node.key := by
  obtain ⟨next, id, gone, wrote, linked, counted, capacity, within, hits, misses, front, split⟩ :=
    lru.linked.put_evicted lru.counted fits
  have recent := lru.recent_put reached fits split
  refine ⟨next, wrote, ⟨linked, counted, within.trans_eq capacity.symm, ?_, ?_⟩, ⟨_, front, rfl, rfl⟩, ?_⟩
  · exact recent.sublist (List.sublist_append_left _ _)
  · rw [List.countP_append, hits, misses]
    exact lru.gets
  · intro node member evicted kept isKept
    have other : node.key ≠ key := (evicted _ front).symm
    have listed : node ∈ next.lruList ++ gone := by
      rw [split]
      exact List.mem_cons_of_mem _ (List.mem_filter.mpr ⟨member, by simpa using other⟩)
    rcases List.mem_append.mp listed with stayed | went
    · exact absurd rfl (evicted node stayed)
    · exact recent.split kept.key (List.mem_map_of_mem isKept) node.key (List.mem_map_of_mem went)

theorem call (lru : Lru capacityMb calls cache) (reached : after capacityMb calls = some cache) (call : Call) :
    ∃ next, cache.call call = some next ∧ Lru capacityMb (calls ++ [call]) next := by
  cases call with
  | get key =>
    rw [BlockCache.call]
    cases present : cache.hashMap key with
    | none => exact ⟨_, by rw [Linked.get_miss present]; rfl, lru.miss reached present⟩
    | some id =>
      obtain ⟨node, member, rfl, rfl⟩ := (lru.linked.mapped key id).mp present
      exact ⟨_, by rw [lru.linked.get_hit member]; rfl, lru.hit reached member⟩
  | put key data =>
    rcases lt_or_ge cache.capacityBytes (itemSize key data) with large | fits
    · exact ⟨cache, Linked.put_refused large, lru.refused reached large⟩
    · obtain ⟨next, wrote, after, -⟩ := lru.accepted reached fits
      exact ⟨next, wrote, after⟩

theorem after (capacityMb : Nat) (calls : List Call) :
    ∃ cache, after capacityMb calls = some cache ∧ Lru capacityMb calls cache :=
  after_induct (.new capacityMb) fun _ _ call reached lru => lru.call reached call

end Lru

/-- The representation invariant of every run. The two counters are exact as long as the resident bytes
and the calls of `Get` can be counted in a `size_t`. -/
theorem lru_representation (capacityMb : Nat) (calls : List Call) :
    ∃ cache, after capacityMb calls = some cache ∧ Lru capacityMb calls cache ∧
      (residentBytes cache.lruList < 2 ^ 64 → cache.currentSizeBytes = residentBytes cache.lruList) ∧
      (calls.countP Call.isGet < 2 ^ 64 → cache.hits + cache.misses = calls.countP Call.isGet) ∧
      ∀ key data, ∃ next, cache.put key data = some next ∧
        (itemSize key data ≤ cache.capacityBytes → ∃ node ∈ next.lruList, node.key = key ∧ node.data = data) ∧
        ∀ node ∈ cache.lruList, (∀ kept ∈ next.lruList, kept.key ≠ node.key) → ∀ kept ∈ next.lruList,
          age (uses (new capacityMb) (calls ++ [.put key data])) kept.key <
            age (uses (new capacityMb) (calls ++ [.put key data])) node.key := by
  obtain ⟨cache, reached, lru⟩ := Lru.after capacityMb calls
  refine ⟨cache, reached, lru, fun small => lru.counted.trans (Nat.mod_eq_of_lt small), ?_, ?_⟩
  · intro few
    obtain ⟨hits, misses, total, hitsEq, missesEq⟩ := lru.gets
    rw [hitsEq, missesEq, ← total, Nat.mod_eq_of_lt (by omega), Nat.mod_eq_of_lt (by omega)]
  · intro key data
    rcases lt_or_ge cache.capacityBytes (itemSize key data) with large | fits
    · refine ⟨cache, Linked.put_refused large, fun fits => absurd fits (not_le.mpr large), ?_⟩
      exact fun node member evicted => absurd rfl (evicted node member)
    · obtain ⟨next, wrote, -, resident, oldest⟩ := lru.accepted reached fits
      exact ⟨next, wrote, fun _ => resident, oldest⟩

end VectorDb.Storage.BlockCache
