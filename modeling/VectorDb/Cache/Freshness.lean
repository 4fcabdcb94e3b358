import VectorDb.Cache.BlockCache

namespace VectorDb.Storage.BlockCache
open Lib

def Call.written (key : Bytes) : Call → Option Bytes
  | put cacheKey blockData => if cacheKey = key then some blockData else none
  | get _ => none

def lastPut (calls : List Call) (key : Bytes) : Option Bytes := calls.reverse.findSome? (Call.written key)

def FreshAfter (capacityMb : Nat) (calls : List Call) : Prop :=
  ∃ cache, after capacityMb calls = some cache ∧ ∀ key, ∃ answer next, cache.get key = some (answer, next) ∧
    (answer = none ∨ answer = lastPut calls key)

def NoStaleRefusal (capacityMb : Nat) (calls : List Call) : Prop :=
  ∀ earlier key data cache, earlier ++ [.put key data] <+: calls → after capacityMb earlier = some cache →
    (∃ node ∈ cache.lruList, node.key = key) → itemSize key data ≤ cache.capacityBytes

theorem lastPut_concat (calls : List Call) (call : Call) (key : Bytes) :
    lastPut (calls ++ [call]) key = (call.written key).or (lastPut calls key) := by
  rw [lastPut, List.reverse_concat, List.findSome?_cons]
  cases call.written key <;> rfl

theorem after_concat (capacityMb : Nat) (calls : List Call) (call : Call) :
    after capacityMb (calls ++ [call]) = after capacityMb calls >>= fun cache => cache.call call := by
  simp only [after, List.foldlM_append, List.foldlM_cons, List.foldlM_nil, bind_pure]

theorem after_induct {capacityMb : Nat} {calls : List Call} {P : List Call → BlockCache → Prop}
    (first : P [] (new capacityMb))
    (kept : ∀ calls cache call, after capacityMb calls = some cache → P calls cache →
      ∃ next, cache.call call = some next ∧ P (calls ++ [call]) next) :
    ∃ cache, after capacityMb calls = some cache ∧ P calls cache := by
  induction calls using List.reverseRecOn with
  | nil => exact ⟨_, rfl, first⟩
  | append_singleton calls call ih =>
    obtain ⟨cache, reached, holds⟩ := ih
    obtain ⟨next, called, holdsNext⟩ := kept calls cache call reached holds
    exact ⟨next, by rw [after_concat, reached]; exact called, holdsNext⟩

structure Sound (cache : BlockCache) : Prop where
  linked : cache.Linked
  fitting : ∀ node ∈ cache.lruList, itemSize node.key node.data ≤ cache.capacityBytes

theorem Sound.call {cache : BlockCache} (sound : cache.Sound) (call : Call) :
    ∃ next, cache.call call = some next ∧ next.Sound := by
  cases call with
  | get key =>
    obtain ⟨answer, next, got, linked, capacity, perm, -⟩ := sound.linked.get_eq key
    refine ⟨next, by rw [BlockCache.call, got]; rfl, linked, fun node member => ?_⟩
    rw [capacity]
    exact sound.fitting node (perm.mem_iff.mp member)
  | put key data =>
    rcases lt_or_ge cache.capacityBytes (itemSize key data) with large | fits
    · exact ⟨cache, Linked.put_refused large, sound⟩
    · obtain ⟨next, id, wrote, linked, capacity, kept⟩ := sound.linked.put_eq fits
      refine ⟨next, wrote, linked, fun node member => ?_⟩
      rw [capacity]
      rcases List.mem_cons.mp (kept.subset member) with rfl | old
      · exact fits
      · exact sound.fitting node (List.mem_of_mem_filter old)

theorem sound_after (capacityMb : Nat) (calls : List Call) : ∃ cache, after capacityMb calls = some cache ∧ cache.Sound := by
  refine after_induct (P := fun _ cache => cache.Sound) ⟨linked_new capacityMb, by simp [new]⟩ ?_
  intro calls cache call _ sound
  exact sound.call call

def Current (cache : BlockCache) (calls : List Call) : Prop :=
  ∀ node ∈ cache.lruList, lastPut calls node.key = some node.data

theorem Current.call {cache next : BlockCache} {calls : List Call} {call : Call} (current : cache.Current calls)
    (sound : cache.Sound) (called : cache.call call = some next)
    (fits : ∀ key data, call = .put key data → (∃ node ∈ cache.lruList, node.key = key) →
      itemSize key data ≤ cache.capacityBytes) : next.Current (calls ++ [call]) := by
  cases call with
  | get key =>
    obtain ⟨answer, next', got, -, -, perm, -⟩ := sound.linked.get_eq key
    rw [BlockCache.call, got] at called
    cases called
    intro node member
    rw [lastPut_concat]
    exact current node (perm.mem_iff.mp member)
  | put key data =>
    rcases lt_or_ge cache.capacityBytes (itemSize key data) with large | fits
    · rw [BlockCache.call, Linked.put_refused large] at called
      cases called
      intro node member
      have other : key ≠ node.key := fun same =>
        absurd (fits key data rfl ⟨node, member, same.symm⟩) (not_le.mpr large)
      rw [lastPut_concat, Call.written, if_neg other]
      exact current node member
    · obtain ⟨next', id, wrote, -, -, kept⟩ := sound.linked.put_eq fits
      rw [BlockCache.call, wrote] at called
      cases called
      intro node member
      rw [lastPut_concat, Call.written]
      rcases List.mem_cons.mp (kept.subset member) with rfl | old
      · rw [if_pos rfl]
        rfl
      · obtain ⟨old, other⟩ := List.mem_filter.mp old
        have other : key ≠ node.key := fun same => by simp [same] at other
        rw [if_neg other]
        exact current node old

theorem NoStaleRefusal.initial {capacityMb : Nat} {calls earlier : List Call} (fits : NoStaleRefusal capacityMb calls)
    (initial : earlier <+: calls) : NoStaleRefusal capacityMb earlier :=
  fun before key data cache put => fits before key data cache (put.trans initial)

theorem NoStaleRefusal.current {capacityMb : Nat} {calls : List Call} (fits : NoStaleRefusal capacityMb calls) :
    ∃ cache, after capacityMb calls = some cache ∧ cache.Sound ∧ cache.Current calls := by
  induction calls using List.reverseRecOn with
  | nil => exact ⟨_, rfl, ⟨linked_new capacityMb, by simp [new]⟩, by simp [Current, new]⟩
  | append_singleton calls call ih =>
    obtain ⟨cache, reached, sound, current⟩ := ih (fits.initial (List.prefix_append _ _))
    obtain ⟨next, called, soundNext⟩ := sound.call call
    refine ⟨next, by rw [after_concat, reached]; exact called, soundNext, current.call sound called ?_⟩
    rintro key data rfl resident
    exact fits calls key data cache (List.prefix_refl _) reached resident

theorem cache_fresh_iff (capacityMb : Nat) (calls : List Call) :
    (∀ earlier, earlier <+: calls → FreshAfter capacityMb earlier) ↔ NoStaleRefusal capacityMb calls := by
  constructor
  · intro fresh earlier key data cache put reached resident
    obtain ⟨node, member, rfl⟩ := resident
    obtain ⟨cache', reached', sound⟩ := sound_after capacityMb earlier
    rw [reached] at reached'
    cases reached'
    by_contra large
    have refused : after capacityMb (earlier ++ [.put node.key data]) = some cache := by
      rw [after_concat, reached]
      exact Linked.put_refused (not_le.mp large)
    obtain ⟨same, reachedSame, gets⟩ := fresh _ put
    rw [refused] at reachedSame
    cases reachedSame
    obtain ⟨answer, next, got, answered⟩ := gets node.key
    rw [sound.linked.get_hit member] at got
    cases got
    rw [lastPut_concat, Call.written, if_pos rfl] at answered
    rcases answered with missed | same
    · cases missed
    · cases same
      exact large (sound.fitting node member)
  · intro fits earlier initial
    obtain ⟨cache, reached, sound, current⟩ := (fits.initial initial).current
    refine ⟨cache, reached, fun key => ?_⟩
    obtain ⟨answer, next, got, -, -, -, missed | ⟨node, member, rfl, rfl⟩⟩ := sound.linked.get_eq key
    · exact ⟨answer, next, got, .inl missed.1⟩
    · exact ⟨_, next, got, .inr (current node member).symm⟩

def oversize : Bytes := List.replicate (1024 * 1024) 0

theorem oversize_size : itemSize [107] oversize = 1048577 := by
  rw [itemSize, oversize, List.length_replicate]
  rfl

def oneBlock : BlockCache where
  capacityBytes := 1048576
  currentSizeBytes := 2
  lruList := [⟨0, [107], [1]⟩]
  hashMap := Function.update (fun _ => none) [107] (some 0)
  nextId := 1
  hits := 0
  misses := 0

theorem oneBlock_refuses : oneBlock.put [107] oversize = some oneBlock := by
  apply Linked.put_refused
  rw [oversize_size]
  decide

theorem stale_after_oversize :
    let calls := [Call.put [107] [1], .put [107] oversize]
    lastPut calls [107] = some oversize ∧
      (∃ cache next, after 1 calls = some cache ∧ cache.get [107] = some (some [1], next)) ∧
      ¬ FreshAfter 1 calls := by
  intro calls
  have first : after 1 [.put [107] [1]] = some oneBlock := rfl
  have second : after 1 calls = some oneBlock := by
    rw [show calls = [.put [107] [1]] ++ [.put [107] oversize] from rfl, after_concat, first,
      Option.bind_eq_bind, Option.bind_some, BlockCache.call, oneBlock_refuses]
  have last : lastPut calls [107] = some oversize := rfl
  refine ⟨last, ⟨_, _, second, rfl⟩, ?_⟩
  rintro ⟨cache, reached, gets⟩
  rw [second] at reached
  cases reached
  obtain ⟨answer, next, got, answered⟩ := gets [107]
  cases got
  rw [last] at answered
  rcases answered with missed | same
  · cases missed
  · have lengths := congrArg List.length (Option.some.inj same)
    rw [oversize, List.length_replicate] at lengths
    exact absurd lengths (by decide)

end VectorDb.Storage.BlockCache
