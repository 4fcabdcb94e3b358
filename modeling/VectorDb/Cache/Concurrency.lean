import VectorDb.Cache.Freshness
import VectorDb.Lib.Linearization

namespace VectorDb.Storage.BlockCache
open Lib

structure Shared where
  cache : BlockCache
  readers : List Nat

/-- A thread in the middle of `Put` or `Get`. A `Get` that finds nothing loads and stores `misses_` while it is
one of the readers; one that finds its key has given the lock back before it takes it for writing. -/
inductive Phase where
  | put (thread : Nat) (cacheKey blockData : Bytes)
  | stored (thread : Nat) (cacheKey blockData : Bytes)
  | find (thread : Nat) (cacheKey : Bytes)
  | missed (thread : Nat) (cacheKey : Bytes)
  | loaded (thread : Nat) (cacheKey : Bytes) (misses : Nat)
  | promote (thread : Nat) (cacheKey : Bytes)
  | answered (thread : Nat) (cacheKey : Bytes) (answer : Option Bytes)
deriving DecidableEq

namespace Phase

def lookup (thread : Nat) (cacheKey : Bytes) : Action Unit Shared Phase := do
  let shared ← MonadState.get
  match shared.cache.hashMap cacheKey with
  | none =>
    set { shared with readers := thread :: shared.readers }
    return missed thread cacheKey
  | some _ => return promote thread cacheKey

/-- `misses_++` is a load and a store, and the read lock keeps no other reader out. -/
def load (thread : Nat) (cacheKey : Bytes) : Action Unit Shared Phase := do
  return loaded thread cacheKey (← MonadState.get).cache.misses

def store (thread : Nat) (cacheKey : Bytes) (misses : Nat) : Action Unit Shared Phase := do
  let shared ← MonadState.get
  set (Shared.mk { shared.cache with misses := (misses + 1) % 2 ^ 64 } (shared.readers.erase thread))
  return answered thread cacheKey none

def lockedGet (thread : Nat) (cacheKey : Bytes) : Action Unit Shared Phase := do
  let shared ← MonadState.get
  -- the write lock waits for the readers
  if shared.readers = [] then
    match shared.cache.get cacheKey with
    | none => throw ()
    | some (answer, cache) =>
      set { shared with cache }
      return answered thread cacheKey answer
  else throw ()

def lockedPut (thread : Nat) (cacheKey blockData : Bytes) : Action Unit Shared Phase := do
  let shared ← MonadState.get
  -- a block that is too large is refused before the lock is taken
  if itemSize cacheKey blockData > shared.cache.capacityBytes then return stored thread cacheKey blockData
  else if shared.readers = [] then
    match shared.cache.put cacheKey blockData with
    | none => throw ()
    | some cache =>
      set { shared with cache }
      return stored thread cacheKey blockData
  else throw ()

def step : Phase → Option (Action Unit Shared Phase)
  | put thread cacheKey blockData => some (lockedPut thread cacheKey blockData)
  | find thread cacheKey => some (lookup thread cacheKey)
  | missed thread cacheKey => some (load thread cacheKey)
  | loaded thread cacheKey misses => some (store thread cacheKey misses)
  | promote thread cacheKey => some (lockedGet thread cacheKey)
  | stored _ _ _ => none
  | answered _ _ _ => none

def past : Phase → Option (Call × Option Bytes)
  | put _ _ _ => none
  | find _ _ => none
  | promote _ _ => none
  | stored _ cacheKey blockData => some (.put cacheKey blockData, none)
  | missed _ cacheKey => some (.get cacheKey, none)
  | loaded _ cacheKey _ => some (.get cacheKey, none)
  | answered _ cacheKey answer => some (.get cacheKey, answer)

def thread : Phase → Nat
  | put thread _ _ => thread
  | stored thread _ _ => thread
  | find thread _ => thread
  | missed thread _ => thread
  | loaded thread _ _ => thread
  | promote thread _ => thread
  | answered thread _ _ => thread

def call : Phase → Call
  | put _ cacheKey blockData => .put cacheKey blockData
  | stored _ cacheKey blockData => .put cacheKey blockData
  | find _ cacheKey => .get cacheKey
  | missed _ cacheKey => .get cacheKey
  | loaded _ cacheKey _ => .get cacheKey
  | promote _ cacheKey => .get cacheKey
  | answered _ cacheKey _ => .get cacheKey

def reading : Phase → Bool
  | missed _ _ => true
  | loaded _ _ _ => true
  | _ => false

end Phase

def callers (capacityMb : Nat) (calls : Nat → Call) : Pool Shared Phase Nat where
  state := ⟨new capacityMb, []⟩
  phase thread := match calls thread with
    | .put cacheKey blockData => .put thread cacheKey blockData
    | .get cacheKey => .find thread cacheKey

inductive Steps : Phase → Shared → Phase → Shared → Prop
  | miss {i : Nat} {key : Bytes} {shared : Shared} : shared.cache.hashMap key = none →
      Steps (.find i key) shared (.missed i key) { shared with readers := i :: shared.readers }
  | seen {i : Nat} {key : Bytes} {shared : Shared} : Steps (.find i key) shared (.promote i key) shared
  | load {i : Nat} {key : Bytes} {shared : Shared} :
      Steps (.missed i key) shared (.loaded i key shared.cache.misses) shared
  | store {i misses : Nat} {key : Bytes} {shared : Shared} : Steps (.loaded i key misses) shared (.answered i key none)
      ⟨{ shared.cache with misses := (misses + 1) % 2 ^ 64 }, shared.readers.erase i⟩
  | get {i : Nat} {key : Bytes} {shared : Shared} {answer : Option Bytes} {cache : BlockCache} : shared.readers = [] →
      shared.cache.get key = some (answer, cache) →
      Steps (.promote i key) shared (.answered i key answer) { shared with cache }
  | refuse {i : Nat} {key data : Bytes} {shared : Shared} : itemSize key data > shared.cache.capacityBytes →
      Steps (.put i key data) shared (.stored i key data) shared
  | put {i : Nat} {key data : Bytes} {shared : Shared} {cache : BlockCache} : shared.readers = [] →
      shared.cache.put key data = some cache →
      Steps (.put i key data) shared (.stored i key data) { shared with cache }

theorem steps_of_step {source target : Phase} {x : Action Unit Shared Phase} {shared shared' : Shared}
    (steps : source.step = some x) (ran : x shared = .ok target shared') : Steps source shared target shared' := by
  cases source with
  | find i key =>
    cases steps
    rw [Phase.lookup, Action.bind_of_ok (Action.get_eq _)] at ran
    cases present : shared.cache.hashMap key with
    | none =>
      rw [present] at ran
      cases ran
      exact .miss present
    | some id =>
      rw [present] at ran
      cases ran
      exact .seen
  | missed i key =>
    cases steps
    cases ran
    exact .load
  | loaded i key misses =>
    cases steps
    cases ran
    exact .store
  | promote i key =>
    cases steps
    rw [Phase.lockedGet, Action.bind_of_ok (Action.get_eq _)] at ran
    split_ifs at ran with free
    · cases got : shared.cache.get key with
      | none =>
        rw [got] at ran
        cases ran
      | some result =>
        rw [got] at ran
        cases ran
        exact .get free got
    · cases ran
  | put i key data =>
    cases steps
    rw [Phase.lockedPut, Action.bind_of_ok (Action.get_eq _)] at ran
    split_ifs at ran with large free
    · cases ran
      exact .refuse large
    · cases wrote : shared.cache.put key data with
      | none =>
        rw [wrote] at ran
        cases ran
      | some cache =>
        rw [wrote] at ran
        cases ran
        exact .put free wrote
    · cases ran
  | stored i key data => cases steps
  | answered i key answer => cases steps

namespace Steps
variable {source target : Phase} {shared shared' : Shared}

theorem thread (steps : Steps source shared target shared') : target.thread = source.thread := by
  cases steps <;> rfl

theorem call (steps : Steps source shared target shared') : target.call = source.call := by
  cases steps <;> rfl

end Steps

inductive Steps.Locks (source : Phase) (shared : Shared) (target : Phase) (shared' : Shared) : Prop
  | keeps : target.reading = source.reading → shared'.readers = shared.readers → Locks source shared target shared'
  | takes : source.reading = false → target.reading = true → shared'.readers = source.thread :: shared.readers →
      Locks source shared target shared'
  | releases : source.reading = true → target.reading = false → shared'.readers = shared.readers.erase source.thread →
      Locks source shared target shared'

theorem Steps.locks {source target : Phase} {shared shared' : Shared} (steps : Steps source shared target shared') :
    Locks source shared target shared' := by
  cases steps with
  | miss => exact .takes rfl rfl rfl
  | store => exact .releases rfl rfl rfl
  | seen | load | get | refuse | put => exact .keeps rfl rfl

theorem commits : Pool.Commits Phase.past Phase.step := by
  intro source target x shared shared' steps ran
  cases steps_of_step steps ran with
  | seen | load | store => exact .inl rfl
  | miss | get | refuse | put => exact .inr ⟨rfl, _, rfl⟩

theorem past_callers (capacityMb : Nat) (calls : Nat → Call) (i : Nat) :
    ((callers capacityMb calls).phase i).past = none := by
  unfold callers
  dsimp only
  cases calls i <;> rfl

def Call.run (cache : BlockCache) : Call → Option (Option Bytes × BlockCache)
  | put cacheKey blockData => (cache.put cacheKey blockData).map (Prod.mk none)
  | get cacheKey => cache.get cacheKey

inductive Serial (capacityMb : Nat) : List (Call × Option Bytes) → BlockCache → Prop
  | nil : Serial capacityMb [] (new capacityMb)
  | snoc {log : List (Call × Option Bytes)} {cache next : BlockCache} {call : Call} {answer : Option Bytes} :
      Serial capacityMb log cache → call.run cache = some (answer, next) →
      Serial capacityMb (log ++ [(call, answer)]) next

def recount (cache : BlockCache) (hits misses : Nat) : BlockCache := { cache with hits, misses }

section Counters
variable (cache : BlockCache) (hits misses : Nat)

theorem evict_recount (passes : Nat) :
    (cache.recount hits misses).evict passes = (cache.evict passes).recount hits misses := by
  induction passes generalizing cache with
  | zero => rfl
  | succ passes ih =>
    rw [evict, evict]
    by_cases full : cache.currentSizeBytes > cache.capacityBytes
    · rw [if_pos full, if_pos (by exact full)]
      cases last : cache.lruList.getLast? with
      | none =>
        have last' : (cache.recount hits misses).lruList.getLast? = none := last
        rw [last']
      | some node =>
        have last' : (cache.recount hits misses).lruList.getLast? = some node := last
        rw [last']
        exact ih { cache with
          hashMap := Function.update cache.hashMap node.key none
          lruList := cache.lruList.dropLast
          currentSizeBytes := (cache.currentSizeBytes + (2 ^ 64 - itemSize node.key node.data)) % 2 ^ 64 }
    · rw [if_neg full, if_neg (by exact full)]

theorem removeOld_recount (key : Bytes) :
    (cache.recount hits misses).removeOld key = (cache.removeOld key).map (recount · hits misses) := by
  have map : (cache.recount hits misses).hashMap key = cache.hashMap key := rfl
  rw [removeOld, removeOld, map]
  cases cache.hashMap key with
  | none => rfl
  | some id =>
    have found : (cache.recount hits misses).node id = cache.node id := rfl
    dsimp only
    rw [found]
    cases cache.node id <;> rfl

theorem put_recount (key data : Bytes) :
    (cache.recount hits misses).put key data = (cache.put key data).map (recount · hits misses) := by
  rw [put, put, removeOld_recount]
  by_cases large : itemSize key data > cache.capacityBytes
  · rw [if_pos large, if_pos (by exact large)]
    rfl
  · rw [if_neg large, if_neg (by exact large)]
    cases cache.removeOld key with
    | none => rfl
    | some old => exact congrArg some (evict_recount (old.pushFront key data) hits misses _)

theorem get_recount (key : Bytes) : (cache.recount hits misses).get key = (cache.get key).map fun result =>
    (result.1, result.2.recount (if result.1 = none then hits else (hits + 1) % 2 ^ 64)
      (if result.1 = none then (misses + 1) % 2 ^ 64 else misses)) := by
  have map : (cache.recount hits misses).hashMap key = cache.hashMap key := rfl
  rw [get, get, map]
  cases cache.hashMap key with
  | none => rfl
  | some id =>
    have found : (cache.recount hits misses).node id = cache.node id := rfl
    dsimp only
    rw [found]
    cases cache.node id <;> rfl

variable {cache hits misses} {next : BlockCache} {key data : Bytes} {answer : Option Bytes}

theorem counters_of_put (wrote : cache.put key data = some next) : next = next.recount cache.hits cache.misses := by
  have same := put_recount cache cache.hits cache.misses key data
  rw [show cache.recount cache.hits cache.misses = cache from rfl, wrote] at same
  exact Option.some.inj same

theorem counters_of_get (got : cache.get key = some (answer, next)) : next =
    next.recount (if answer = none then cache.hits else (cache.hits + 1) % 2 ^ 64)
      (if answer = none then (cache.misses + 1) % 2 ^ 64 else cache.misses) := by
  have same := get_recount cache cache.hits cache.misses key
  rw [show cache.recount cache.hits cache.misses = cache from rfl, got] at same
  exact congrArg Prod.snd (Option.some.inj same)

theorem misses_of_get (got : cache.get key = some (answer, next)) :
    next.misses ≤ cache.misses + if answer = none then 1 else 0 := by
  have counts := congrArg BlockCache.misses (counters_of_get got)
  have wraps := Nat.mod_le (cache.misses + 1) (2 ^ 64)
  dsimp only [recount] at counts
  rw [counts]
  split_ifs <;> omega

end Counters

def isMiss : Call × Option Bytes → Bool
  | (.get _, none) => true
  | _ => false

def isHit : Call × Option Bytes → Bool
  | (.get _, some _) => true
  | _ => false

theorem Serial.hits {capacityMb : Nat} {log : List (Call × Option Bytes)} {cache : BlockCache}
    (serial : Serial capacityMb log cache) : cache.hits = log.countP isHit % 2 ^ 64 := by
  induction serial with
  | nil => rfl
  | @snoc log cache next call answer serial ran ih =>
    rw [List.countP_append]
    cases call with
    | put key data =>
      obtain ⟨after, wrote, isResult⟩ := Option.map_eq_some_iff.mp ran
      cases isResult
      rw [counters_of_put wrote, recount, ih]
      rfl
    | get key =>
      rw [counters_of_get ran, recount, ih]
      cases answer with
      | none => simp [isHit]
      | some data => simp [isHit]

def history (moves : List (Move Phase Nat)) : List (Call × Option Bytes) := (Pool.effects Phase.past moves).map Prod.snd

structure Linearized (capacityMb : Nat) (calls : Nat → Call) (moves : List (Move Phase Nat)) (pool : Pool Shared Phase Nat) :
    Prop where
  thread : ∀ i, (pool.phase i).thread = i
  call : ∀ i, (pool.phase i).call = calls i
  serial : ∃ atomic, Serial capacityMb (history moves) atomic ∧
    pool.state.cache = atomic.recount atomic.hits pool.state.cache.misses
  reader : ∀ i, i ∈ pool.state.readers ↔ (pool.phase i).reading = true
  readers : pool.state.readers.Nodup
  counted : pool.state.cache.misses + pool.state.readers.length ≤ (history moves).countP isMiss
  loaded : ∀ i key misses, pool.phase i = .loaded i key misses →
    misses + pool.state.readers.length ≤ (history moves).countP isMiss

theorem linearized_callers (capacityMb : Nat) (calls : Nat → Call) :
    Linearized capacityMb calls [] (callers capacityMb calls) where
  thread i := by unfold callers; dsimp only; cases calls i <;> rfl
  call i := by unfold callers; dsimp only; cases calls i <;> rfl
  serial := ⟨new capacityMb, .nil, rfl⟩
  reader i := by unfold callers; dsimp only; cases calls i <;> simp [Phase.reading]
  readers := List.nodup_nil
  counted := Nat.zero_le _
  loaded i key misses stands := by
    unfold callers at stands
    dsimp only at stands
    cases made : calls i <;> simp [made] at stands

section Step
variable {capacityMb : Nat} {calls : Nat → Call} {moves : List (Move Phase Nat)} {pool : Pool Shared Phase Nat}
  {i : Nat} {target : Phase} {shared : Shared}

theorem history_new {move : Move Phase Nat} {entry : Call × Option Bytes} (before : move.source.past = none)
    (after : move.target.past = some entry) : history (moves ++ [move]) = history moves ++ [entry] := by
  rw [history, Pool.effects_concat_new before after, List.map_append]
  rfl

theorem history_old {move : Move Phase Nat} (same : move.target.past = move.source.past) :
    history (moves ++ [move]) = history moves := by
  rw [history, Pool.effects_concat_old same]
  rfl

namespace Linearized

theorem thread_step (lin : Linearized capacityMb calls moves pool) (steps : Steps (pool.phase i) pool.state target shared)
    (j : Nat) : ((pool.after i target shared).phase j).thread = j := by
  by_cases here : j = i
  · subst here
    rw [Pool.after_phase_self, steps.thread, lin.thread]
  · rw [Pool.after_phase_of_ne _ here, lin.thread]

theorem call_step (lin : Linearized capacityMb calls moves pool) (steps : Steps (pool.phase i) pool.state target shared)
    (j : Nat) : ((pool.after i target shared).phase j).call = calls j := by
  by_cases here : j = i
  · subst here
    rw [Pool.after_phase_self, steps.call, lin.call]
  · rw [Pool.after_phase_of_ne _ here, lin.call]

theorem serial_step (lin : Linearized capacityMb calls moves pool) (steps : Steps (pool.phase i) pool.state target shared) :
    ∃ atomic, Serial capacityMb (history (moves ++ [⟨i, pool.phase i, target⟩])) atomic ∧
      shared.cache = atomic.recount atomic.hits shared.cache.misses := by
  obtain ⟨atomic, serial, same⟩ := lin.serial
  generalize pool.phase i = source at steps
  generalize pool.state = before at steps same
  cases steps with
  | seen =>
    rw [history_old rfl]
    exact ⟨atomic, serial, same⟩
  | load =>
    rw [history_old rfl]
    exact ⟨atomic, serial, same⟩
  | store =>
    rw [history_old rfl]
    exact ⟨atomic, serial, by rw [same]; rfl⟩
  | @miss _ key _ absent =>
    -- The miss takes effect here. What comes later is only the counter.
    rw [history_new rfl rfl]
    have absent' : atomic.hashMap key = none := by
      rw [same] at absent
      exact absent
    exact ⟨_, .snoc serial (Linked.get_miss absent'), by rw [same]; rfl⟩
  | @get _ key _ answer cache free got =>
    rw [history_new rfl rfl]
    rw [same, get_recount] at got
    obtain ⟨⟨answer', next⟩, gotAtomic, isResult⟩ := Option.map_eq_some_iff.mp got
    cases isResult
    refine ⟨next, .snoc serial gotAtomic, ?_⟩
    rw [counters_of_get gotAtomic]
    rfl
  | @refuse _ key data _ large =>
    rw [history_new rfl rfl]
    have refused : atomic.put key data = some atomic := Linked.put_refused (by rw [same] at large; exact large)
    exact ⟨atomic, .snoc serial (by rw [Call.run, refused]; rfl), same⟩
  | @put _ key data _ cache free wrote =>
    rw [history_new rfl rfl]
    rw [same, put_recount] at wrote
    obtain ⟨next, wroteAtomic, rfl⟩ := Option.map_eq_some_iff.mp wrote
    refine ⟨next, .snoc serial (by rw [Call.run, wroteAtomic]; rfl), ?_⟩
    rw [counters_of_put wroteAtomic]
    rfl

theorem reader_step (lin : Linearized capacityMb calls moves pool) (steps : Steps (pool.phase i) pool.state target shared)
    (j : Nat) : j ∈ shared.readers ↔ ((pool.after i target shared).phase j).reading = true := by
  have others : j ≠ i → ((pool.after i target shared).phase j).reading = (pool.phase j).reading :=
    fun other => by rw [Pool.after_phase_of_ne _ other]
  have here := lin.reader i
  have place := lin.thread i
  by_cases same : j = i
  · subst same
    rw [Pool.after_phase_self]
    cases steps.locks with
    | keeps unchanged readers => rw [readers, here, unchanged]
    | takes before after readers => simp [readers, after, place]
    | releases before after readers => simp [readers, after, place, lin.readers.not_mem_erase]
  · rw [others same, ← lin.reader]
    cases steps.locks with
    | keeps unchanged readers => rw [readers]
    | takes before after readers => simp [readers, place, same]
    | releases before after readers => simp [readers, place, List.mem_erase_of_ne same]

theorem readers_step (lin : Linearized capacityMb calls moves pool) (steps : Steps (pool.phase i) pool.state target shared) :
    shared.readers.Nodup := by
  have here := lin.reader i
  cases steps.locks with
  | keeps unchanged readers => exact readers ▸ lin.readers
  | takes before after readers =>
    rw [readers, lin.thread, List.nodup_cons]
    exact ⟨by simp [here, before], lin.readers⟩
  | releases before after readers => exact readers ▸ lin.readers.erase _

theorem counted_step (lin : Linearized capacityMb calls moves pool) (steps : Steps (pool.phase i) pool.state target shared) :
    shared.cache.misses + shared.readers.length ≤ (history (moves ++ [⟨i, pool.phase i, target⟩])).countP isMiss ∧
      ∀ j key misses, (pool.after i target shared).phase j = .loaded j key misses →
        misses + shared.readers.length ≤ (history (moves ++ [⟨i, pool.phase i, target⟩])).countP isMiss := by
  have counted := lin.counted
  have loaded := lin.loaded
  have place := lin.thread i
  have here := lin.reader i
  generalize stands : pool.phase i = source at steps place here
  have old : ∀ j key misses, (pool.after i target shared).phase j = .loaded j key misses →
      (j = i ∧ target = .loaded j key misses) ∨ misses + pool.state.readers.length ≤ (history moves).countP isMiss := by
    intro j key misses phase
    by_cases same : j = i
    · subst same
      rw [Pool.after_phase_self] at phase
      exact .inl ⟨rfl, phase⟩
    · rw [Pool.after_phase_of_ne _ same] at phase
      exact .inr (loaded j key misses phase)
  cases steps with
  | seen =>
    rw [history_old rfl]
    exact ⟨counted, fun j key misses phase => (old j key misses phase).resolve_left (by simp)⟩
  | load =>
    rw [history_old rfl]
    refine ⟨counted, fun j key misses phase => ?_⟩
    rcases old j key misses phase with ⟨-, isLoaded⟩ | bound
    · cases isLoaded
      exact counted
    · exact bound
  | @store j misses key =>
    rw [history_old rfl]
    obtain rfl : j = i := place
    -- The reader leaves, and its miss, already in the history, pays for the increment.
    have reads : j ∈ pool.state.readers := here.mpr rfl
    have fewer := List.length_erase_of_mem reads
    have some := List.length_pos_of_mem reads
    have bound := loaded j key misses stands
    have wraps := Nat.mod_le (misses + 1) (2 ^ 64)
    refine ⟨?_, fun k key' misses' phase => ?_⟩
    · dsimp only
      omega
    · have := (old k key' misses' phase).resolve_left (by simp)
      dsimp only
      omega
  | miss absent =>
    rw [history_new rfl rfl, List.countP_append]
    refine ⟨by simp [isMiss]; omega, fun j key misses phase => ?_⟩
    have := (old j key misses phase).resolve_left (by simp)
    simp [isMiss]
    omega
  | @get _ key _ answer cache free got =>
    have counts := misses_of_get got
    rw [history_new rfl rfl, List.countP_append]
    have grows : (if answer = none then 1 else 0) = [(Call.get key, answer)].countP isMiss := by
      cases answer <;> simp [isMiss]
    rw [grows] at counts
    refine ⟨by dsimp only; omega, fun j key' misses phase => ?_⟩
    have := (old j key' misses phase).resolve_left (by simp)
    dsimp only
    omega
  | refuse large =>
    rw [history_new rfl rfl, List.countP_append]
    refine ⟨by omega, fun j key misses phase => ?_⟩
    have := (old j key misses phase).resolve_left (by simp)
    omega
  | @put _ key data _ cache free wrote =>
    have counts : cache.misses = pool.state.cache.misses := by
      rw [counters_of_put wrote]
      rfl
    rw [history_new rfl rfl, List.countP_append]
    refine ⟨by dsimp only; omega, fun j key misses phase => ?_⟩
    have := (old j key misses phase).resolve_left (by simp)
    dsimp only
    omega

theorem step (lin : Linearized capacityMb calls moves pool) (steps : Steps (pool.phase i) pool.state target shared) :
    Linearized capacityMb calls (moves ++ [⟨i, pool.phase i, target⟩]) (pool.after i target shared) where
  thread := lin.thread_step steps
  call := lin.call_step steps
  serial := lin.serial_step steps
  reader := lin.reader_step steps
  readers := lin.readers_step steps
  counted := (lin.counted_step steps).1
  loaded := (lin.counted_step steps).2

theorem run (run : Pool.Run Phase.step (callers capacityMb calls) moves pool) : Linearized capacityMb calls moves pool := by
  refine run.induct (linearized_callers capacityMb calls) ?_
  intro moves pool i x target shared _ lin steps ran
  exact lin.step (steps_of_step steps ran)

end Linearized

theorem past_answered {phase : Phase} (finished : phase.step = none) : ∃ answer, phase.past = some (phase.call, answer) := by
  cases phase <;> simp [Phase.step, Phase.past, Phase.call] at finished ⊢

/-- Whatever the interleaving, the calls take effect one at a time, each once and between its first and its
last step, and every answer is the one it gets there. `hits_` is exact; `misses_` can fall behind, never
ahead. -/
theorem cache_linearizable (run : Pool.Run Phase.step (callers capacityMb calls) moves pool) :
    (∃ atomic, Serial capacityMb (history moves) atomic ∧
      pool.state.cache = atomic.recount atomic.hits pool.state.cache.misses) ∧
    pool.state.cache.hits = (history moves).countP isHit % 2 ^ 64 ∧
    pool.state.cache.misses ≤ (history moves).countP isMiss ∧
    ((Pool.effects Phase.past moves).map Prod.fst).Nodup ∧
    (∀ i call answer, (i, call, answer) ∈ Pool.effects Phase.past moves ↔
      (pool.phase i).past = some (call, answer)) ∧
    (∀ i, (pool.phase i).step = none → ∃ answer, (i, calls i, answer) ∈ Pool.effects Phase.past moves) := by
  have lin := Linearized.run run
  have effect := Pool.mem_effects commits (past_callers capacityMb calls) run
  refine ⟨lin.serial, ?_, (Nat.le_add_right _ _).trans lin.counted,
    Pool.effects_once commits (past_callers capacityMb calls) run, fun i call answer => effect i (call, answer), ?_⟩
  · obtain ⟨atomic, serial, same⟩ := lin.serial
    rw [same]
    exact serial.hits
  intro i finished
  obtain ⟨answer, past⟩ := past_answered finished
  rw [lin.call] at past
  exact ⟨answer, (effect i _).mpr past⟩

theorem cache_linearizable_two_misses : ∃ moves pool,
    Pool.Run Phase.step (callers 1 fun _ => .get [1]) moves pool ∧ pool.state.cache.misses = 1 ∧
    (history moves).countP isMiss = 2 ∧ pool.state.cache.misses ≤ (history moves).countP isMiss := by
  have run := (Pool.Run.refl : Pool.Run Phase.step (callers 1 fun _ => .get [1]) [] _)
  have run := run.snoc 0 rfl rfl rfl
  have run := run.snoc 1 rfl rfl rfl
  have run := run.snoc 0 rfl rfl rfl
  have run := run.snoc 1 rfl rfl rfl
  have run := run.snoc 0 rfl rfl rfl
  have run := run.snoc 1 rfl rfl rfl
  exact ⟨_, _, run, rfl, rfl, (cache_linearizable run).2.2.1⟩

theorem Serial.initial {earlier log : List (Call × Option Bytes)} {cache : BlockCache}
    (serial : Serial capacityMb log cache) (initial : earlier <+: log) : ∃ before, Serial capacityMb earlier before := by
  induction serial with
  | nil =>
    obtain rfl := List.prefix_nil.mp initial
    exact ⟨_, .nil⟩
  | snoc serial ran ih =>
    rcases List.prefix_concat_iff.mp initial with rfl | shorter
    · exact ⟨_, .snoc serial ran⟩
    · exact ih shorter

theorem Serial.after {log : List (Call × Option Bytes)} {cache : BlockCache} (serial : Serial capacityMb log cache) :
    BlockCache.after capacityMb (log.map Prod.fst) = some cache := by
  induction serial with
  | nil => rfl
  | @snoc log cache next call answer serial ran ih =>
    rw [List.map_append, List.map_singleton, after_concat, ih]
    cases call with
    | put key data =>
      obtain ⟨after, wrote, isResult⟩ := Option.map_eq_some_iff.mp ran
      cases isResult
      exact wrote
    | get key => exact congrArg (Option.map Prod.snd) ran

theorem Serial.concat_inv {log : List (Call × Option Bytes)} {cache : BlockCache} {call : Call} {answer : Option Bytes}
    (serial : Serial capacityMb (log ++ [(call, answer)]) cache) :
    ∃ before, Serial capacityMb log before ∧ call.run before = some (answer, cache) := by
  generalize isLog : log ++ [(call, answer)] = all at serial
  cases serial with
  | nil => simp at isLog
  | snoc serial ran =>
    obtain ⟨rfl, last⟩ := List.append_inj' isLog rfl
    cases last
    exact ⟨_, serial, ran⟩

/-- No interleaving makes a `Get` return a block that an earlier `Put` of its key has replaced, unless a
`Put` is refused for its size while the key is in the cache. -/
theorem concurrent_get_fresh (run : Pool.Run Phase.step (callers capacityMb calls) moves pool)
    (fits : NoStaleRefusal capacityMb ((history moves).map Prod.fst)) {earlier : List (Call × Option Bytes)}
    {key : Bytes} {answer : Option Bytes} (answered : earlier ++ [(.get key, answer)] <+: history moves) :
    answer = none ∨ answer = lastPut (earlier.map Prod.fst) key := by
  obtain ⟨atomic, serial, -⟩ := (Linearized.run run).serial
  obtain ⟨cache, serial⟩ := serial.initial answered
  obtain ⟨before, serial, got⟩ := serial.concat_inv
  have initial : earlier.map Prod.fst <+: (history moves).map Prod.fst :=
    ((List.prefix_append _ _).trans answered).map Prod.fst
  obtain ⟨cache', reached, sound, current⟩ := (fits.initial initial).current
  rw [serial.after] at reached
  cases reached
  obtain ⟨answer', next, got', -, -, -, found⟩ := sound.linked.get_eq key
  rw [Call.run, got'] at got
  cases got
  rcases found with ⟨absent, -⟩ | ⟨node, member, rfl, rfl⟩
  · exact .inl absent
  · exact .inr (current node member).symm

theorem putThenGet_fits : NoStaleRefusal 1 [.put [1] [2], .get [1]] := by
  intro earlier key data cache put reached resident
  rcases earlier with _ | ⟨first, _ | ⟨second, rest⟩⟩
  · cases reached
    simp [new] at resident
  · simp at put
  · simp at put

theorem concurrent_get_fresh_hit : ∃ moves pool,
    Pool.Run Phase.step (callers 1 fun thread => if thread = 0 then .put [1] [2] else .get [1]) moves pool ∧
    history moves = [(.put [1] [2], none), (.get [1], some [2])] ∧
    some [2] = lastPut [.put [1] [2]] [1] := by
  have run := (Pool.Run.refl : Pool.Run Phase.step (callers 1 fun thread =>
    if thread = 0 then .put [1] [2] else .get [1]) [] _)
  have run := run.snoc 0 rfl rfl rfl
  have run := run.snoc 1 rfl rfl rfl
  have run := run.snoc 1 rfl rfl rfl
  refine ⟨_, _, run, rfl, ?_⟩
  have fresh := concurrent_get_fresh run putThenGet_fits
    (show [(Call.put [1] [2], none)] ++ [(Call.get [1], some [2])] <+: _ from List.prefix_refl _)
  exact fresh.resolve_left (by simp)

end Step

end VectorDb.Storage.BlockCache
