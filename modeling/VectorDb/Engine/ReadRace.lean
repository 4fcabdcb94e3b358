import VectorDb.Engine.CrashSafety
import VectorDb.Engine.OneFlush

namespace VectorDb.Storage
open Lib Common CompactionManager

namespace StorageEngine

def Phase.isLookup : Phase → Bool
  | lookup _ => true
  | _ => false

def Phase.isSearch : Phase → Bool
  | search _ => true
  | _ => false

def Phase.isRegister : Phase → Bool
  | register _ _ _ => true
  | _ => false

def Phase.registered : Phase → Bool
  | catalogue _ => true
  | save _ => true
  | finish => true
  | _ => false

def Phase.unregistered : Phase → Bool
  | swap => true
  | capture _ => true
  | draw _ _ => true
  | write _ _ _ => true
  | _ => false

theorem Phase.unregistered_spec {phase : Phase} (early : phase.unregistered = true) :
    phase.registered = false ∧ phase ≠ .returned ∧ phase.isRegister = false := by
  cases phase <;> simp_all [unregistered, registered, isRegister]

theorem Phase.isRegister_of_registered {phase : Phase} (late : phase.registered = true) :
    phase.isRegister = false := by
  cases phase <;> simp_all [registered, isRegister]

def flushAndGet (key : Bytes) (flushes : Bool) : Phase := if flushes then .swap else .lookup key

section Moves
variable {ι : Type} (moves : List (Move Phase ι))

def HasRegistered : Prop := ∃ move ∈ moves, move.source.isRegister = true

def beforeLookup : List (Move Phase ι) := beforeFirst (fun move => move.source.isLookup) moves

def beforeSearch : List (Move Phase ι) := beforeFirst (fun move => move.source.isSearch) moves

def LooksUpEarly : Prop := ∀ move ∈ beforeLookup moves, move.source ≠ .swap

def SearchesLate : Prop := (∃ move ∈ moves, move.source.isSearch = true) ∧ HasRegistered (beforeSearch moves)

end Moves

variable {pf : Platform} {config : StorageConfig} {base world' : World} {key : Bytes}
  {moves : List (Move Phase Bool)} {calls : Calls Bool}

inductive ReadStage (pf : Platform) (base : World) (key : Bytes) (moves : List (Move Phase Bool)) : Phase → Prop
  | lookup : (∀ move ∈ moves, move.source.isLookup = false) → (∀ move ∈ moves, move.source.isSearch = false) →
      ReadStage pf base key moves (.lookup key)
  | search : (∃ move ∈ moves, move.source.isLookup = true) → (∀ move ∈ moves, move.source.isSearch = false) →
      (LooksUpEarly moves → (find BlockEntry.key base.engine.activeMemtable.entries key).bind BlockEntry.visible = none) →
      ReadStage pf base key moves (.search key)
  | found (value : Bytes) : (∃ move ∈ moves, move.source.isLookup = true) →
      (∀ move ∈ moves, move.source.isSearch = false) → LooksUpEarly moves →
      (find BlockEntry.key base.engine.activeMemtable.entries key).bind BlockEntry.visible = some value →
      ReadStage pf base key moves (.answered (.ok (some value)))
  | searched (entry : Option BlockEntry) : (∃ move ∈ moves, move.source.isLookup = true) →
      (∃ move ∈ moves, move.source.isSearch = true) →
      (LooksUpEarly moves → (find BlockEntry.key base.engine.activeMemtable.entries key).bind BlockEntry.visible = none) →
      (HasRegistered (beforeSearch moves) → entry =
        (find BlockEntry.key base.engine.activeMemtable.entries key).or (newestEntry pf base.store key)) →
      (¬ HasRegistered (beforeSearch moves) → entry = newestEntry pf base.store key) →
      ReadStage pf base key moves (.answered (.ok (entry.bind BlockEntry.visible)))

theorem looksUpEarly_append {move : Move Phase Bool} (lookedUp : ∃ move ∈ moves, move.source.isLookup = true) :
    LooksUpEarly (moves ++ [move]) ↔ LooksUpEarly moves := by
  rw [LooksUpEarly, LooksUpEarly, beforeLookup, beforeFirst_append lookedUp, beforeLookup]

theorem exists_append {p : Move Phase Bool → Prop} (some : ∃ move ∈ moves, p move) (last : Move Phase Bool) :
    ∃ move ∈ moves ++ [last], p move := by
  obtain ⟨move, member, hit⟩ := some
  exact ⟨move, List.mem_append_left _ member, hit⟩

theorem forall_append {p : Move Phase Bool → Prop} (all : ∀ move ∈ moves, p move) {last : Move Phase Bool}
    (hit : p last) : ∀ move ∈ moves ++ [last], p move :=
  List.forall_mem_append.mpr ⟨all, by simpa using hit⟩

theorem ReadStage.bystander {phase : Phase} {move : Move Phase Bool} (stage : ReadStage pf base key moves phase)
    (noLookup : move.source.isLookup = false) (noSearch : move.source.isSearch = false) :
    ReadStage pf base key (moves ++ [move]) phase := by
  cases stage with
  | lookup first second => exact .lookup (forall_append first noLookup) (forall_append second noSearch)
  | search first second early =>
    exact .search (exists_append first _) (forall_append second noSearch)
      fun isEarly => early ((looksUpEarly_append first).mp isEarly)
  | found value first second early found =>
    exact .found value (exists_append first _) (forall_append second noSearch) ((looksUpEarly_append first).mpr early)
      found
  | searched entry first second early late notLate =>
    have same : beforeSearch (moves ++ [move]) = beforeSearch moves := beforeFirst_append second _
    refine .searched entry (exists_append first _) (exists_append second _)
      (fun isEarly => early ((looksUpEarly_append first).mp isEarly)) ?_ ?_
    · rwa [same]
    · rwa [same]

theorem ReadStage.answered_iff {result : ErrorOr (Option Bytes)} {value : Bytes}
    (stage : ReadStage pf base key moves (.answered result))
    (put : ∀ entry, find BlockEntry.key base.engine.activeMemtable.entries key = some entry →
      entry = ⟨key, value, false⟩) :
    result = .ok (some value) ↔
      (find BlockEntry.key base.engine.activeMemtable.entries key).isSome ∧ (LooksUpEarly moves ∨ SearchesLate moves) ∨
        (newestEntry pf base.store key).bind BlockEntry.visible = some value := by
  cases stage with
  | found other _ _ early found =>
    cases active : find BlockEntry.key base.engine.activeMemtable.entries key with
    | none => simp [active] at found
    | some entry =>
      obtain rfl := put entry active
      rw [active] at found
      obtain rfl : value = other := Option.some.inj found
      simp [early]
  | searched entry _ searches early late notLate =>
    rw [Except.ok.injEq]
    cases active : find BlockEntry.key base.engine.activeMemtable.entries key with
    | none =>
      have same : entry = newestEntry pf base.store key := by
        by_cases registered : HasRegistered (beforeSearch moves)
        · rw [late registered, active, Option.none_or]
        · exact notLate registered
      simp [same]
    | some version =>
      obtain rfl := put version active
      have notEarly : ¬ LooksUpEarly moves := fun isEarly => by
        have hidden := early isEarly
        rw [active] at hidden
        cases hidden
      by_cases registered : HasRegistered (beforeSearch moves)
      · simp [late registered, active, SearchesLate, searches, registered, BlockEntry.visible]
      · simp [notLate registered, SearchesLate, registered, notEarly]

structure TableState (pf : Platform) (base : World) (moves : List (Move Phase Bool)) (calls : Calls Bool) : Prop where
  registered : HasRegistered moves → ((calls.phase true).registered = true ∨ calls.phase true = .returned) ∧
    ∃ table : SSTable, table.entries = base.engine.activeMemtable.entries ∧
      calls.state.store = (afterFlush pf base table).store
  unregistered : ¬ HasRegistered moves → (calls.phase true).registered = false ∧
    calls.state.engine.compactionManager = base.engine.compactionManager ∧
    ∀ file ∈ base.engine.compactionManager.files,
      calls.state.disk.tables file.filepath = base.disk.tables file.filepath

theorem registered_append {move : Move Phase Bool} (other : move.source.isRegister = false) :
    HasRegistered (moves ++ [move]) ↔ HasRegistered moves := by
  simp [HasRegistered, or_and_right, exists_or, other]

namespace TableState

theorem before {target : Phase} (state : TableState pf base moves calls)
    (early : (calls.phase true).unregistered = true) (target_early : target.registered = false)
    (manager : world'.engine.compactionManager = calls.state.engine.compactionManager)
    (tables : ∀ file ∈ base.engine.compactionManager.files,
      world'.disk.tables file.filepath = calls.state.disk.tables file.filepath) :
    TableState pf base (moves ++ [⟨true, calls.phase true, target⟩]) (calls.after true target world') := by
  obtain ⟨unlisted, running, other⟩ := Phase.unregistered_spec early
  have unregistered : ¬ HasRegistered moves := by
    intro registered
    rcases (state.registered registered).1 with late | returned
    · rw [unlisted] at late
      cases late
    · exact running returned
  obtain ⟨-, sameManager, sameTables⟩ := state.unregistered unregistered
  refine ⟨fun registered => absurd ((registered_append other).mp registered) unregistered, fun _ => ⟨?_, ?_, ?_⟩⟩
  · rw [Pool.after_phase_self]
    exact target_early
  · exact manager.trans sameManager
  · exact fun file member => (tables file member).trans (sameTables file member)

theorem after {target : Phase} (state : TableState pf base moves calls)
    (late : (calls.phase true).registered = true) (target_late : target.registered = true ∨ target = .returned)
    (store : world'.store = calls.state.store) :
    TableState pf base (moves ++ [⟨true, calls.phase true, target⟩]) (calls.after true target world') := by
  have registered : HasRegistered moves := by
    by_contra unregistered
    rw [(state.unregistered unregistered).1] at late
    cases late
  obtain ⟨-, table, entries, isStore⟩ := state.registered registered
  refine ⟨fun _ => ⟨?_, table, entries, store.trans isStore⟩, fun unregistered => ?_⟩
  · rwa [Pool.after_phase_self]
  · exact absurd ((registered_append (Phase.isRegister_of_registered late)).mpr registered) unregistered

theorem registers {target : Phase} {lsn : Nat} (isRegister : (calls.phase true).isRegister = true)
    (catalogue : target = .catalogue lsn)
    (stage : FlushStage pf base base.engine.activeMemtable.entries lsn world' target) :
    TableState pf base (moves ++ [⟨true, calls.phase true, target⟩]) (calls.after true target world') := by
  subst catalogue
  have registered : HasRegistered (moves ++ [⟨true, calls.phase true, .catalogue lsn⟩]) :=
    ⟨_, List.mem_append_right _ (List.mem_singleton_self _), isRegister⟩
  cases stage with
  | catalogue entries store =>
    refine ⟨fun _ => ⟨.inl ?_, _, entries, store⟩, fun unregistered => absurd registered unregistered⟩
    rw [Pool.after_phase_self]
    rfl

theorem flush {target : Phase} {lsn : Nat} (state : TableState pf base moves calls) (new : NewFile base)
    (stage : FlushStage pf base base.engine.activeMemtable.entries lsn calls.state (calls.phase true))
    (next : Moves pf .faultless calls.state (calls.phase true) target world') :
    TableState pf base (moves ++ [⟨true, calls.phase true, target⟩]) (calls.after true target world') := by
  generalize isPhase : calls.phase true = phase at stage next
  have onward := fun swapped captured => FlushStage.next stage swapped captured next
  rw [← isPhase]
  cases stage with
  | swap agree =>
    cases next with
    | swapEmpty => exact state.before (by rw [isPhase]; rfl) rfl rfl fun _ _ => rfl
    | swap => exact state.before (by rw [isPhase]; rfl) rfl rfl fun _ _ => rfl
  | idle => cases next
  | returned => cases next
  | capture =>
    cases next
    exact state.before (by rw [isPhase]; rfl) rfl rfl fun _ _ => rfl
  | draw =>
    cases next
    exact state.before (by rw [isPhase]; rfl) rfl rfl fun _ _ => rfl
  | write entries store config =>
    cases next
    refine state.before (by rw [isPhase]; rfl) rfl rfl fun file member => Function.update_of_ne ?_ _ _
    rw [config]
    exact new.unused file member
  | register entries store =>
    have stage := onward (by simp) (by simp)
    cases next
    exact registers (by rw [isPhase]; rfl) rfl stage
  | catalogue =>
    cases next
    exact state.after (by rw [isPhase]; rfl) (.inl rfl) rfl
  | save =>
    cases next
    exact state.after (by rw [isPhase]; rfl) (.inl rfl) rfl
  | finish =>
    cases next
    exact state.after (by rw [isPhase]; rfl) (.inr rfl) rfl

theorem read {target : Phase} (state : TableState pf base moves calls)
    (reads : (calls.phase false).isRegister = false) :
    TableState pf base (moves ++ [⟨false, calls.phase false, target⟩])
      (calls.after false target calls.state) := by
  have same := calls.after_phase_of_ne (show true ≠ false by decide) target calls.state
  refine ⟨fun registered => ?_, fun unregistered => ?_⟩
  · rw [same]
    exact state.registered ((registered_append reads).mp registered)
  · rw [same]
    exact state.unregistered fun registered => unregistered ((registered_append reads).mpr registered)

theorem readable (state : TableState pf base moves calls) (new : NewFile base) (readable : Readable base.store)
    (small : dataSize base.engine.activeMemtable.entries ≤ 2 ^ 30) : Readable calls.state.store := by
  by_cases registered : HasRegistered moves
  · obtain ⟨-, table, entries, store⟩ := state.registered registered
    rw [store]
    exact new.readable_afterFlush readable (entries ▸ small)
  · obtain ⟨-, manager, tables⟩ := state.unregistered registered
    exact readable.congr (congrArg CompactionManager.files manager) tables

theorem search (state : TableState pf base moves calls) (new : NewFile base)
    (recorded : ∀ file ∈ base.store.manager.files, ∃ table, Recorded base.store.tables file table) (key : Bytes) :
    ∃ entry, getFromSSTables pf .none calls.state.store key = .ok (entry.bind BlockEntry.visible) ∧
      (HasRegistered moves → entry =
        (find BlockEntry.key base.engine.activeMemtable.entries key).or (newestEntry pf base.store key)) ∧
      (¬ HasRegistered moves → entry = newestEntry pf base.store key) := by
  by_cases registered : HasRegistered moves
  · obtain ⟨-, table, entries, store⟩ := state.registered registered
    refine ⟨_, ?_, fun _ => rfl, fun unregistered => absurd registered unregistered⟩
    rw [store, getFromSSTables_recorded pf (new.recorded_afterFlush pf table recorded),
      new.newestEntry_afterFlush table recorded, entries]
  · obtain ⟨-, manager, tables⟩ := state.unregistered registered
    refine ⟨newestEntry pf base.store key, ?_, fun isRegistered => absurd isRegistered registered, fun _ => rfl⟩
    have files : calls.state.store.manager.files = base.store.manager.files := congrArg CompactionManager.files manager
    rw [← newestEntry_congr pf files tables key]
    refine getFromSSTables_recorded pf (fun file member => ?_) key
    rw [files] at member
    obtain ⟨table, recorded⟩ := recorded file member
    exact ⟨table, (tables file member).trans recorded.1, recorded.2⟩

end TableState

theorem FlushStage.flushing {batch : List BlockEntry} {lsn : Nat} {world : World} {phase : Phase}
    (stage : FlushStage pf base batch lsn world phase) :
    phase.isLookup = false ∧ phase.isSearch = false ∧ phase.applies = none ∧ phase.appends = none := by
  cases stage <;> exact ⟨rfl, rfl, rfl, rfl⟩

theorem Moves.wal_eq {world : World} {source target : Phase} (next : Moves pf .faultless world source target world')
    (unlogged : source.appends = none) : world'.engine.wal = world.engine.wal := by
  cases next with
  | append => cases unlogged
  | _ => rfl

structure Racing (pf : Platform) (base : World) (key : Bytes) (moves : List (Move Phase Bool)) (calls : Calls Bool) :
    Prop where
  wal : calls.state.engine.wal = base.engine.wal
  unswapped : (∀ move ∈ moves, move.source ≠ .swap) →
    calls.state.engine.activeMemtable = base.engine.activeMemtable
  swapped : (∃ move ∈ moves, move.source = .swap) → calls.state.engine.activeMemtable.entries = []
  early : calls.phase true = .swap → ∀ move ∈ moves, move.source ≠ .swap
  stage : FlushStage pf base base.engine.activeMemtable.entries base.engine.wal.currentSequenceNumber calls.state
    (calls.phase true)
  reader : ReadStage pf base key moves (calls.phase false)
  tables : TableState pf base moves calls

namespace Racing

theorem start (base : World) : Racing pf base key [] ⟨base, flushAndGet key⟩ where
  wal := rfl
  unswapped _ := rfl
  swapped := by simp
  early := by simp
  stage := .swap ⟨rfl, rfl, rfl, rfl⟩
  reader := .lookup (by simp) (by simp)
  tables := ⟨by simp [HasRegistered], fun _ => ⟨rfl, rfl, fun _ _ => rfl⟩⟩

theorem flush {target : Phase} (racing : Racing pf base key moves calls) (new : NewFile base)
    (next : Moves pf .faultless calls.state (calls.phase true) target world') :
    Racing pf base key (moves ++ [⟨true, calls.phase true, target⟩]) (calls.after true target world') := by
  obtain ⟨noLookup, noSearch, noApply, noAppend⟩ := racing.stage.flushing
  have same := calls.after_phase_of_ne (show false ≠ true by decide) target world'
  have stage : FlushStage pf base base.engine.activeMemtable.entries base.engine.wal.currentSequenceNumber world'
      target := by
    have before := racing.stage
    have early := racing.early
    generalize calls.phase true = phase at before next early
    by_cases swaps : phase = .swap
    · subst swaps
      cases before with
      | swap agree => exact .swapped agree (by rw [racing.unswapped (early rfl)]) next
    · exact before.next swaps (fun _ _ => by rw [racing.wal]) next
  refine ⟨(next.wal_eq noAppend).trans racing.wal, ?_, ?_, fun stands => ?_, ?_, ?_,
    racing.tables.flush new racing.stage next⟩
  · intro unswapped
    obtain ⟨unswapped, last⟩ := List.forall_mem_append.mp unswapped
    have stays := last _ (List.mem_singleton_self _)
    have before := racing.unswapped unswapped
    generalize calls.phase true = phase at next stays noApply
    cases next with
    | swap => exact absurd rfl stays
    | apply => cases noApply
    | _ => exact before
  · intro swapped
    have before : calls.phase true ≠ .swap → calls.state.engine.activeMemtable.entries = [] := by
      intro stays
      obtain ⟨move, member, isSwap⟩ := swapped
      rcases List.mem_append.mp member with old | last
      · exact racing.swapped ⟨move, old, isSwap⟩
      · rw [List.mem_singleton.mp last] at isSwap
        exact absurd isSwap stays
    generalize calls.phase true = phase at next before noApply
    cases next with
    | swapEmpty empty => exact empty
    | swap => exact MemTable.entries_new pf
    | apply => cases noApply
    | _ => exact before (by simp)
  · rw [Pool.after_phase_self] at stands
    have notSwap : target ≠ .swap := by
      generalize calls.phase true = phase at next noApply noLookup
      cases next with
      | apply => cases noApply
      | lookup => cases noLookup
      | _ => nofun
    exact absurd stands notSwap
  · rwa [Pool.after_phase_self]
  · rw [same]
    exact racing.reader.bystander noLookup noSearch

theorem looksUp (racing : Racing pf base key moves calls)
    (immutable : calls.state.engine.immutableMemtable = none)
    (noLookup : ∀ move ∈ moves, move.source.isLookup = false)
    (noSearch : ∀ move ∈ moves, move.source.isSearch = false) :
    ReadStage pf base key (moves ++ [⟨false, .lookup key, Phase.lookupTarget calls.state key⟩])
      (Phase.lookupTarget calls.state key) := by
  have lookedUp : ∃ move ∈ moves ++ [⟨false, .lookup key, Phase.lookupTarget calls.state key⟩],
      move.source.isLookup = true := ⟨_, List.mem_append_right _ (List.mem_singleton_self _), rfl⟩
  have searches : ∀ move ∈ moves ++ [⟨false, .lookup key, Phase.lookupTarget calls.state key⟩],
      move.source.isSearch = false := forall_append noSearch rfl
  have early : LooksUpEarly (moves ++ [⟨false, .lookup key, Phase.lookupTarget calls.state key⟩]) ↔
      ∀ move ∈ moves, move.source ≠ .swap := by
    rw [LooksUpEarly, beforeLookup, beforeFirst_hit noLookup rfl]
  generalize moves ++ [⟨false, .lookup key, Phase.lookupTarget calls.state key⟩] = moves' at lookedUp searches early ⊢
  have get := calls.state.engine.activeMemtable.get_eq key
  rw [Phase.lookupTarget, immutable, get]
  cases found : (find BlockEntry.key calls.state.engine.activeMemtable.entries key).bind BlockEntry.visible with
  | some value =>
    have unswapped : ∀ move ∈ moves, move.source ≠ .swap := by
      intro move member isSwap
      rw [racing.swapped ⟨move, member, isSwap⟩] at found
      cases found
    rw [racing.unswapped unswapped] at found
    exact .found value lookedUp searches (early.mpr unswapped) found
  | none =>
    refine .search lookedUp searches fun isEarly => ?_
    rw [← racing.unswapped (early.mp isEarly)]
    exact found

theorem afterRead {target : Phase} (racing : Racing pf base key moves calls)
    (reads : calls.phase false = .lookup key ∨ calls.phase false = .search key)
    (reader : ReadStage pf base key (moves ++ [⟨false, calls.phase false, target⟩]) target) :
    Racing pf base key (moves ++ [⟨false, calls.phase false, target⟩]) (calls.after false target calls.state) := by
  obtain ⟨stays, noRegister⟩ : calls.phase false ≠ .swap ∧ (calls.phase false).isRegister = false := by
    rcases reads with isLookup | isSearch
    · rw [isLookup]
      exact ⟨by simp, rfl⟩
    · rw [isSearch]
      exact ⟨by simp, rfl⟩
  have same := calls.after_phase_of_ne (show true ≠ false by decide) target calls.state
  refine ⟨racing.wal, fun unswapped => ?_, fun ⟨move, member, isSwap⟩ => ?_, fun stands => ?_, ?_, ?_,
    racing.tables.read noRegister⟩
  · exact racing.unswapped (List.forall_mem_append.mp unswapped).1
  · rcases List.mem_append.mp member with old | last
    · exact racing.swapped ⟨move, old, isSwap⟩
    · rw [List.mem_singleton.mp last] at isSwap
      exact absurd isSwap stays
  · rw [same] at stands
    exact forall_append (racing.early stands) stays
  · rw [same]
    exact racing.stage
  · rwa [Pool.after_phase_self]

theorem read {target : Phase} (racing : Racing pf base key moves calls) (new : NewFile base)
    (recorded : ∀ file ∈ base.store.manager.files, ∃ table, Recorded base.store.tables file table)
    (immutable : calls.state.engine.immutableMemtable = none)
    (next : Moves pf .faultless calls.state (calls.phase false) target world') :
    Racing pf base key (moves ++ [⟨false, calls.phase false, target⟩]) (calls.after false target world') := by
  have reader := racing.reader
  generalize isPhase : calls.phase false = phase at reader next
  rw [← isPhase]
  cases reader with
  | found => cases next
  | searched => cases next
  | lookup noLookup noSearch =>
    cases next
    refine racing.afterRead (.inl isPhase) ?_
    rw [isPhase]
    exact racing.looksUp immutable noLookup noSearch
  | search lookedUp noSearch early =>
    cases next
    obtain ⟨entry, found, late, notLate⟩ := racing.tables.search new recorded key
    refine racing.afterRead (.inr isPhase) ?_
    rw [isPhase, found]
    have before : beforeSearch (moves ++ [⟨false, .search key, .answered (.ok (entry.bind BlockEntry.visible))⟩]) = moves :=
      beforeFirst_hit noSearch rfl
    refine .searched entry (exists_append lookedUp _) ⟨_, List.mem_append_right _ (List.mem_singleton_self _), rfl⟩
      (fun isEarly => early ((looksUpEarly_append lookedUp).mp isEarly)) ?_ ?_
    · rwa [before]
    · rwa [before]

theorem of_run (new : NewFile base)
    (recorded : ∀ file ∈ base.store.manager.files, ∃ table, Recorded base.store.tables file table)
    (immutable : base.engine.immutableMemtable = none)
    (run : Interleaved pf .faultless ⟨base, flushAndGet key⟩ moves calls) : Racing pf base key moves calls := by
  refine run.induct (P := fun moves calls => Racing pf base key moves calls) (.start base) ?_
  intro moves calls i target world' run racing next
  cases i with
  | false => exact racing.read new recorded (run.immutable_none immutable) next
  | true => exact racing.flush new next

end Racing

/-- In every engine state whose tables read back and whose flush makes a new file, a `Get` during the flush returns
the last value put exactly if the MemTable holds the key and `Get` looks there before the swap or into the tables
after the registration, or the tables had that value all along. At every moment the tables read back. -/
theorem get_during_flush_iff {value : Bytes} (new : NewFile base) (readable : Readable base.store)
    (small : dataSize base.engine.activeMemtable.entries ≤ 2 ^ 30) (immutable : base.engine.immutableMemtable = none)
    (put : ∀ entry, find BlockEntry.key base.engine.activeMemtable.entries key = some entry →
      entry = ⟨key, value, false⟩)
    (run : Interleaved pf .faultless ⟨base, flushAndGet key⟩ moves calls) :
    Readable calls.state.store ∧ ∀ result, calls.phase false = .answered result →
      (result = .ok (some value) ↔
        (find BlockEntry.key base.engine.activeMemtable.entries key).isSome ∧ (LooksUpEarly moves ∨ SearchesLate moves) ∨
          getFromFiles pf (diskFiles base.disk.tables) base.engine.compactionManager.files key =
            some (.ok (some value))) := by
  have recorded := readable.recorded
  have racing : Racing pf base key moves calls := .of_run new recorded immutable run
  have tables : getFromFiles pf (diskFiles base.disk.tables) base.engine.compactionManager.files key =
      some (getFromSSTables pf .none base.store key) := readable.getFromFiles_eq (storedAsBytes_diskFiles _) key
  refine ⟨racing.tables.readable new readable small, fun result answered => ?_⟩
  rw [tables, getFromSSTables_recorded pf recorded, Option.some.injEq, Except.ok.injEq]
  have reader := racing.reader
  rw [answered] at reader
  exact reader.answered_iff put

def restoredDisk (file : SSTableMeta) : Disk where
  log := some (logBytes [.put [1] [9], .put [1] [2]])
  tables := Function.update (fun _ => none) file.filepath (some (.complete (oneEntry [1] [9])))
  checkpoints := ⟨some (.complete ⟨1, [file]⟩), none⟩

theorem restored_opens (file : SSTableMeta) (level : 0 ≤ file.level ∧ file.level < leveled.kNumLevels) :
    ∃ base : World, «open» .reference {} (restoredDisk file) = .ok base.engine base.disk ∧
      base.disk.tables file.filepath = some (.complete (oneEntry [1] [9])) ∧
      base.engine.compactionManager.files = [file] ∧
      base.engine.compactionManager.maxLevel = 7 ∧ base.engine.config = {} ∧ base.engine.nextSstSequence = 1 ∧
      base.engine.immutableMemtable = none ∧ base.engine.activeMemtable.entries = [⟨[1], [2], false⟩] := by
  have log : LogFile [.put [1] [9], .put [1] [2]] := ⟨by decide, by rw [logBytes_length]; decide⟩
  refine ⟨⟨restoredDisk file, _⟩, open_ok log torn_nil ?_ rfl (by simpa using level), ?_, rfl, rfl, rfl, rfl, rfl, ?_⟩
  · rw [List.append_nil]
    rfl
  · simp [restoredDisk]
  · rw [MemTable.entries_applyAll_new]
    rfl

theorem get_during_flush_restored : ∃ file base moves, ∃ calls : Calls Bool,
    «open» .reference {} (restoredDisk file) = .ok base.engine base.disk ∧
    Interleaved .reference .faultless ⟨base, flushAndGet [1]⟩ moves calls ∧
    calls.phase false = .answered (.ok (some [2])) ∧ LooksUpEarly moves ∧ Readable calls.state.store ∧
    ((.ok (some [2]) : ErrorOr (Option Bytes)) = .ok (some [2]) ↔
      (find BlockEntry.key base.engine.activeMemtable.entries [1]).isSome ∧ (LooksUpEarly moves ∨ SearchesLate moves) ∨
        getFromFiles .reference (diskFiles base.disk.tables) base.engine.compactionManager.files [1] =
          some (.ok (some [2]))) := by
  obtain ⟨file, ranges, level, path⟩ : ∃ file : SSTableMeta,
      (file.smallestKey = [1] ∧ file.largestKey = [1]) ∧ file.level = 1 ∧
        file.filepath = outputPath (StorageConfig.sstDir {}) 1 1 :=
    ⟨⟨outputPath (StorageConfig.sstDir {}) 1 1, 1, [1], [1], 0, 2⟩, ⟨rfl, rfl⟩, rfl, rfl⟩
  obtain ⟨base, opens, table, files, -, config, number, immutable, entries⟩ :=
    restored_opens file (by simp [level, leveled.kNumLevels])
  have new : NewFile base := by
    refine ⟨?_, by simp [files, level], ?_⟩
    · simp only [files, List.mem_singleton, forall_eq, path, flushFile, config, number]
      exact (flushPath_ne_outputPath _ _ le_rfl _).symm
    · simp only [files, List.mem_singleton]
      rintro key a rfl b rfl - - other
      exact absurd rfl other
  have readable : Readable base.store := by
    simp only [Readable, World.store, files, List.mem_singleton, forall_eq]
    exact ⟨oneEntry [1] [9], ⟨table, ranges⟩, SSTable.roundTrips_of_dataSize (by decide)⟩
  have none : Interleaved .reference .faultless ⟨base, flushAndGet [1]⟩ [] _ := .refl
  have run : Interleaved .reference .faultless _ [⟨false, .lookup [1], Phase.lookupTarget base [1]⟩] _ :=
    none.snoc false rfl (.lookup [1])
  have found : Phase.lookupTarget base [1] = .answered (.ok (some [2])) := by
    rw [Phase.lookupTarget, MemTable.get_eq, entries]
    rfl
  have answered := (Pool.after_phase_self ⟨base, flushAndGet [1]⟩ false (Phase.lookupTarget base [1]) base).trans found
  have put : ∀ entry, find BlockEntry.key base.engine.activeMemtable.entries [1] = some entry →
      entry = ⟨[1], [2], false⟩ := by
    simp [entries, find_cons, eq_comm]
  obtain ⟨reads, iff⟩ := get_during_flush_iff new readable (by rw [entries]; decide) immutable put run
  exact ⟨file, base, _, _, opens, run, answered,
    by simp [LooksUpEarly, beforeLookup, beforeFirst, Phase.isLookup], reads, iff _ answered⟩

/-- After a restart the numbers begin at 1 again: a restored file of level 0 is in front of the flushed one, and a
`Get` after the whole flush finds the older value. -/
theorem restored_file_hides_flush : ∃ file base moves, ∃ calls : Calls Bool,
    «open» .reference {} (restoredDisk file) = .ok base.engine base.disk ∧
    find BlockEntry.key base.engine.activeMemtable.entries [1] = some ⟨[1], [2], false⟩ ∧
    Interleaved .reference .faultless ⟨base, flushAndGet [1]⟩ moves calls ∧ SearchesLate moves ∧
    calls.phase false = .answered (.ok (some [9])) := by
  obtain ⟨base, opens, table, files, levels, config, number, -, entries⟩ :=
    restored_opens (flushMeta (StorageConfig.sstDir {}) (oneEntry [1] [9]) 5) (by decide)
  have nonempty : base.engine.activeMemtable.entries ≠ [] := by simp [entries]
  have start : Interleaved .reference .faultless ⟨base, flushAndGet [1]⟩ [] _ := .refl
  have flushed := start.flush true rfl nonempty (by simp [levels])
  have lookedUp : Interleaved .reference .faultless _ (flushMoves true base (.ofMemTable _ nonempty) ++
      [⟨false, .lookup [1], .search [1]⟩]) _ := flushed.snoc false rfl (.lookup [1])
  have searched := lookedUp.snoc false rfl (.search [1])
  have flushedFiles : (afterFlush .reference base (.ofMemTable _ nonempty)).store.manager.files =
      [flushMeta (StorageConfig.sstDir {}) (oneEntry [1] [9]) 5,
        flushMeta (StorageConfig.sstDir {}) (.ofMemTable _ nonempty) 1] := by
    simp [afterFlush, World.store, files, config, number]
  have older : (afterFlush .reference base (.ofMemTable _ nonempty)).store.tables
      (flushMeta (StorageConfig.sstDir {}) (oneEntry [1] [9]) 5).filepath = some (.complete (oneEntry [1] [9])) := by
    refine (Function.update_of_ne (fun same => ?_) _ _).trans table
    rw [config, number] at same
    exact absurd (flushPath_inj same) (by decide)
  have hidden : getFromSSTables .reference .none (afterFlush .reference base (.ofMemTable _ nonempty)).store [1] =
      .ok (some [9]) := by
    rw [getFromSSTables, flushedFiles]
    have sorted (newer : SSTable) : Platform.reference.sort searchedBefore
        [flushMeta (StorageConfig.sstDir {}) (oneEntry [1] [9]) 5, flushMeta (StorageConfig.sstDir {}) newer 1] =
        [flushMeta (StorageConfig.sstDir {}) (oneEntry [1] [9]) 5, flushMeta (StorageConfig.sstDir {}) newer 1] := rfl
    rw [sorted, searchTables, if_neg (by decide), openTable_none older]
    rfl
  refine ⟨_, base, _, _, opens, by simp [entries, find_cons], searched, ⟨?_, ?_⟩, congrArg Phase.answered hidden⟩
  · exact ⟨_, List.mem_append_right _ (List.mem_singleton_self _), rfl⟩
  · rw [beforeSearch, beforeFirst_hit (by simp [flushMoves, swappedMoves, Phase.isSearch]) rfl]
    simp [HasRegistered, flushMoves, swappedMoves, Phase.isRegister]

theorem get_during_flush_misses : ∃ base moves calls,
    (StorageEngine.put .reference .none .faultless [1] [2]).run (fresh .reference {}) = .ok () base ∧
    Interleaved .reference .faultless ⟨base, flushAndGet [1]⟩ moves calls ∧
    calls.phase false = .answered (.ok none) := by
  obtain ⟨base, put, serving, stored, -⟩ := (resting_fresh .reference {}).write (.put [1] [2])
    (by rw [logBytes_length]; decide) (by decide)
  have start : Interleaved .reference .faultless ⟨base, flushAndGet [1]⟩ [] _ := .refl
  have swapped := start.snoc true rfl (.swap (serving.active_eq_nil.not.mpr (by simp)))
  have lookedUp := swapped.snoc false rfl (.lookup [1])
  have searched := lookedUp.snoc false rfl (.search [1])
  have missed : getFromSSTables .reference .none base.store [1] = .ok none := by
    rw [getFromSSTables_eq _ serving.searchable.toLevelled, stored [1]]
    rfl
  exact ⟨base, _, _, put, searched, congrArg Phase.answered missed⟩

end StorageEngine

end VectorDb.Storage
