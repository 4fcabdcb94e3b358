import VectorDb.Engine.FileLookup
import VectorDb.Engine.Phases

namespace VectorDb.Storage
open Lib Common CompactionManager

namespace StorageEngine

structure Draw (ι : Type) where
  thread : ι
  table : MemTable
  number : Nat

def Draw.swap {ι : Type} (draw : Draw ι) : ι × MemTable := (draw.thread, draw.table)

section Moves
variable {ι : Type}

def swapOf (move : Move Phase ι) : Option (ι × MemTable) :=
  match move.source, move.target with
  | .swap, .capture toFlush => some (move.thread, toFlush)
  | _, _ => none

def drawOf (move : Move Phase ι) : Option (Draw ι) :=
  match move.source, move.target with
  | .draw toFlush _, .write _ _ seq => some ⟨move.thread, toFlush, seq⟩
  | _, _ => none

def swaps (moves : List (Move Phase ι)) : List (ι × MemTable) := moves.filterMap swapOf

def draws (moves : List (Move Phase ι)) : List (Draw ι) := moves.filterMap drawOf

theorem swaps_concat (moves : List (Move Phase ι)) (move : Move Phase ι) :
    swaps (moves ++ [move]) = swaps moves ++ (swapOf move).toList := by
  rw [swaps, List.filterMap_append]
  cases isSwap : swapOf move <;> simp [swaps, isSwap]

theorem draws_concat (moves : List (Move Phase ι)) (move : Move Phase ι) :
    draws (moves ++ [move]) = draws moves ++ (drawOf move).toList := by
  rw [draws, List.filterMap_append]
  cases isDraw : drawOf move <;> simp [draws, isDraw]

end Moves

def Phase.built : Phase → Bool
  | catalogue _ => true
  | save _ => true
  | finish => true
  | returned => true
  | _ => false

section Jobs
variable {ι : Type} (sstDir : Path) (swapped : List (ι × MemTable)) (drawn : List (Draw ι)) (world : World) (i : ι)

def Catalogued : Prop :=
  ∃ toFlush seq, ∃ table : SSTable, ⟨i, toFlush, seq⟩ ∈ drawn ∧ table.entries = toFlush.entries ∧
    flushMeta sstDir table seq ∈ world.engine.compactionManager.files

inductive FlushJob : Phase → Prop
  | append (m : Mutation) : i ∉ swapped.map Prod.fst → FlushJob (.append m)
  | apply (m : Mutation) : i ∉ swapped.map Prod.fst → FlushJob (.apply m)
  | swap : i ∉ swapped.map Prod.fst → FlushJob .swap
  | capture {toFlush : MemTable} : (i, toFlush) ∈ swapped → i ∉ drawn.map Draw.thread → FlushJob (.capture toFlush)
  | draw {toFlush : MemTable} (lsn : Nat) : (i, toFlush) ∈ swapped → i ∉ drawn.map Draw.thread →
      FlushJob (.draw toFlush lsn)
  | write {toFlush : MemTable} (lsn : Nat) {seq : Nat} : ⟨i, toFlush, seq⟩ ∈ drawn → FlushJob (.write toFlush lsn seq)
  | register {toFlush : MemTable} {table : SSTable} (lsn : Nat) {seq : Nat} : ⟨i, toFlush, seq⟩ ∈ drawn →
      table.entries = toFlush.entries → world.disk.tables (flushPath sstDir seq) = some (.complete table) →
      FlushJob (.register lsn seq (flushPath sstDir seq))
  | catalogue (lsn : Nat) : Catalogued sstDir drawn world i → FlushJob (.catalogue lsn)
  | save (checkpoint : Checkpoint) : Catalogued sstDir drawn world i → FlushJob (.save checkpoint)
  | finish : Catalogued sstDir drawn world i → FlushJob .finish
  | returned : (i ∈ swapped.map Prod.fst → Catalogued sstDir drawn world i) → FlushJob .returned

end Jobs

section Invariant
variable {ι : Type} {sstDir : Path} {swapped swapped' : List (ι × MemTable)} {drawn drawn' : List (Draw ι)}
  {world world' : World} {i : ι} {phase : Phase}

theorem Catalogued.grow (catalogued : Catalogued sstDir drawn world i) (draws : drawn ⊆ drawn')
    (files : world.engine.compactionManager.files ⊆ world'.engine.compactionManager.files) :
    Catalogued sstDir drawn' world' i := by
  obtain ⟨toFlush, seq, table, drew, entries, inFiles⟩ := catalogued
  exact ⟨toFlush, seq, table, draws drew, entries, files inFiles⟩

theorem FlushJob.grow (job : FlushJob sstDir swapped drawn world i phase) (swaps : swapped ⊆ swapped')
    (draws : drawn ⊆ drawn') (files : world.engine.compactionManager.files ⊆ world'.engine.compactionManager.files)
    (noSwap : i ∈ swapped'.map Prod.fst → i ∈ swapped.map Prod.fst)
    (noDraw : i ∈ drawn'.map Draw.thread → i ∈ drawn.map Draw.thread)
    (tables : ∀ toFlush seq, ⟨i, toFlush, seq⟩ ∈ drawn →
      world'.disk.tables (flushPath sstDir seq) = world.disk.tables (flushPath sstDir seq)) :
    FlushJob sstDir swapped' drawn' world' i phase := by
  cases job with
  | append m fresh => exact .append m (mt noSwap fresh)
  | apply m fresh => exact .apply m (mt noSwap fresh)
  | swap fresh => exact .swap (mt noSwap fresh)
  | capture member fresh => exact .capture (swaps member) (mt noDraw fresh)
  | draw lsn member fresh => exact .draw lsn (swaps member) (mt noDraw fresh)
  | write lsn drew => exact .write lsn (draws drew)
  | register lsn drew entries written =>
    exact .register lsn (draws drew) entries ((tables _ _ drew).trans written)
  | catalogue lsn catalogued => exact .catalogue lsn (catalogued.grow draws files)
  | save checkpoint catalogued => exact .save checkpoint (catalogued.grow draws files)
  | finish catalogued => exact .finish (catalogued.grow draws files)
  | returned catalogued => exact .returned fun member => (catalogued (noSwap member)).grow draws files

def BuiltFrom (sstDir : Path) (world : World) (file : SSTableMeta) (draw : Draw ι) : Prop :=
  ∃ table : SSTable, table.entries = draw.table.entries ∧ file = flushMeta sstDir table draw.number ∧
    world.disk.tables (flushPath sstDir draw.number) = some (.complete table)

structure FlushJobs (config : StorageConfig) (swapped : List (ι × MemTable)) (drawn : List (Draw ι)) (world : World)
    (phase : ι → Phase) : Prop where
  configured : world.engine.config = config
  manager : world.engine.compactionManager.dataDir = config.sstDir ∧
    world.engine.compactionManager.maxLevel = leveled.kNumLevels
  next : world.engine.nextSstSequence = drawn.length + 1
  numbers : drawn.map Draw.number = List.range' 1 drawn.length
  swappers : (swapped.map Prod.fst).Nodup
  drawers : (drawn.map Draw.thread).Nodup
  drew : ∀ draw ∈ drawn, (draw.thread, draw.table) ∈ swapped
  jobs : ∀ i, FlushJob config.sstDir swapped drawn world i (phase i)
  files : ∀ file ∈ world.engine.compactionManager.files, ∃ draw ∈ drawn, (phase draw.thread).built = true ∧
    BuiltFrom config.sstDir world file draw
  paths : (world.engine.compactionManager.files.map SSTableMeta.filepath).Nodup

end Invariant

namespace FlushJobs

variable {ι : Type} {pf : Platform} {device : Device} {config : StorageConfig} {swapped swapped' : List (ι × MemTable)}
  {drawn drawn' : List (Draw ι)} {world world' : World} {phase : ι → Phase} {i : ι} {target : Phase}

theorem start (callers : ∀ i, phase i = .swap ∨ ∃ m, phase i = .append m) :
    FlushJobs config [] [] (fresh pf config) phase where
  configured := rfl
  manager := ⟨rfl, rfl⟩
  next := rfl
  numbers := rfl
  swappers := by simp
  drawers := by simp
  drew := by simp
  jobs i := by
    obtain isSwap | ⟨m, isAppend⟩ := callers i
    · rw [isSwap]
      exact .swap (by simp)
    · rw [isAppend]
      exact .append m (by simp)
  files := by simp [fresh, CompactionManager.new]
  paths := by simp [fresh, CompactionManager.new]

theorem number_inj (flushes : FlushJobs config swapped drawn world phase) {a b : Draw ι} (inA : a ∈ drawn)
    (inB : b ∈ drawn) (same : a.number = b.number) : a = b :=
  List.inj_on_of_nodup_map (flushes.numbers ▸ List.nodup_range') inA inB same

theorem thread_inj (flushes : FlushJobs config swapped drawn world phase) {a b : Draw ι} (inA : a ∈ drawn)
    (inB : b ∈ drawn) (same : a.thread = b.thread) : a = b :=
  List.inj_on_of_nodup_map flushes.drawers inA inB same

variable [DecidableEq ι]

theorem others (before : FlushJobs config swapped drawn world phase) (swaps : swapped ⊆ swapped')
    (draws : drawn ⊆ drawn') (files : world.engine.compactionManager.files ⊆ world'.engine.compactionManager.files)
    (ownSwap : ∀ swap ∈ swapped', swap ∈ swapped ∨ swap.1 = i) (ownDraw : ∀ draw ∈ drawn', draw ∈ drawn ∨ draw.thread = i)
    (tables : ∀ draw ∈ drawn, draw.thread ≠ i → world'.disk.tables (flushPath config.sstDir draw.number) =
      world.disk.tables (flushPath config.sstDir draw.number))
    (job : FlushJob config.sstDir swapped' drawn' world' i target) (j : ι) :
    FlushJob config.sstDir swapped' drawn' world' j (Function.update phase i target j) := by
  by_cases mover : j = i
  · rw [mover, Function.update_self]
    exact job
  · rw [Function.update_of_ne mover]
    refine (before.jobs j).grow swaps draws files (fun member => ?_) (fun member => ?_) fun toFlush seq drew =>
      tables _ drew mover
    · obtain ⟨swap, inside, rfl⟩ := List.mem_map.mp member
      exact List.mem_map_of_mem ((ownSwap swap inside).resolve_right mover)
    · obtain ⟨draw, inside, rfl⟩ := List.mem_map.mp member
      exact List.mem_map_of_mem ((ownDraw draw inside).resolve_right mover)

theorem keptFiles (before : FlushJobs config swapped drawn world phase) (draws : drawn ⊆ drawn')
    (stillBuilt : (phase i).built = true → target.built = true)
    (tables : ∀ draw ∈ drawn, (phase draw.thread).built = true →
      world'.disk.tables (flushPath config.sstDir draw.number) = world.disk.tables (flushPath config.sstDir draw.number))
    (file : SSTableMeta) (member : file ∈ world.engine.compactionManager.files) :
    ∃ draw ∈ drawn', (Function.update phase i target draw.thread).built = true ∧
      BuiltFrom config.sstDir world' file draw := by
  obtain ⟨draw, inside, built, table, entries, isFile, written⟩ := before.files file member
  refine ⟨draw, draws inside, ?_, table, entries, isFile, (tables draw inside built).trans written⟩
  by_cases mover : draw.thread = i
  · rw [mover, Function.update_self]
    exact stillBuilt (mover ▸ built)
  · rwa [Function.update_of_ne mover]

theorem other (before : FlushJobs config swapped drawn world phase)
    (sameConfig : world'.engine.config = world.engine.config)
    (sequence : world'.engine.nextSstSequence = world.engine.nextSstSequence) (store : world'.store = world.store)
    (stillBuilt : (phase i).built = true → target.built = true)
    (job : FlushJob config.sstDir swapped drawn world i target) :
    FlushJobs config swapped drawn world' (Function.update phase i target) := by
  have tables : world'.disk.tables = world.disk.tables := congrArg Store.tables store
  have manager : world'.engine.compactionManager = world.engine.compactionManager := congrArg Store.manager store
  have sameFiles : world.engine.compactionManager.files ⊆ world'.engine.compactionManager.files := by simp [manager]
  refine ⟨sameConfig.trans before.configured, manager ▸ before.manager, sequence.trans before.next, before.numbers,
    before.swappers, before.drawers, before.drew, ?_, ?_, manager ▸ before.paths⟩
  · refine before.others (List.Subset.refl _) (List.Subset.refl _) sameFiles (fun _ member => .inl member)
      (fun _ member => .inl member) (fun _ _ _ => by rw [tables]) ?_
    exact job.grow (List.Subset.refl _) (List.Subset.refl _) sameFiles id id fun _ _ _ => by rw [tables]
  · rw [manager]
    exact before.keptFiles (List.Subset.refl _) stillBuilt fun _ _ _ => by rw [tables]

theorem swap {toFlush : MemTable} (before : FlushJobs config swapped drawn world phase)
    (isSwap : phase i = .swap) (sameConfig : world'.engine.config = world.engine.config)
    (sequence : world'.engine.nextSstSequence = world.engine.nextSstSequence) (store : world'.store = world.store) :
    FlushJobs config (swapped ++ [(i, toFlush)]) drawn world' (Function.update phase i (.capture toFlush)) := by
  have tables : world'.disk.tables = world.disk.tables := congrArg Store.tables store
  have manager : world'.engine.compactionManager = world.engine.compactionManager := congrArg Store.manager store
  have sameFiles : world.engine.compactionManager.files ⊆ world'.engine.compactionManager.files := by simp [manager]
  have fresh : i ∉ swapped.map Prod.fst := by
    have job := before.jobs i
    rw [isSwap] at job
    cases job with
    | swap fresh => exact fresh
  have undrawn : i ∉ drawn.map Draw.thread := by
    intro member
    obtain ⟨draw, inside, rfl⟩ := List.mem_map.mp member
    exact fresh (List.mem_map_of_mem (before.drew draw inside))
  refine ⟨sameConfig.trans before.configured, manager ▸ before.manager, sequence.trans before.next, before.numbers,
    ?_, before.drawers, fun draw member => List.mem_append_left _ (before.drew draw member), ?_, ?_,
    manager ▸ before.paths⟩
  · rw [List.map_append]
    exact before.swappers.append (by simp) (by simpa using fresh)
  · refine before.others (List.subset_append_left _ _) (List.Subset.refl _) sameFiles (fun swap member => ?_)
      (fun _ member => .inl member) (fun _ _ _ => by rw [tables]) (.capture (by simp) undrawn)
    simpa using (List.mem_append.mp member).imp_right fun last => congrArg Prod.fst (List.mem_singleton.mp last)
  · rw [manager]
    exact before.keptFiles (List.Subset.refl _) (by simp [isSwap, Phase.built]) fun _ _ _ => by rw [tables]

theorem draw {toFlush : MemTable} {lsn : Nat} (before : FlushJobs config swapped drawn world phase)
    (isDraw : phase i = .draw toFlush lsn) :
    FlushJobs config swapped (drawn ++ [⟨i, toFlush, world.engine.nextSstSequence⟩])
      { world with engine := { world.engine with nextSstSequence := world.engine.nextSstSequence + 1 } }
      (Function.update phase i (.write toFlush lsn world.engine.nextSstSequence)) := by
  obtain ⟨member, fresh⟩ : (i, toFlush) ∈ swapped ∧ i ∉ drawn.map Draw.thread := by
    have job := before.jobs i
    rw [isDraw] at job
    cases job with
    | draw _ member fresh => exact ⟨member, fresh⟩
  refine ⟨before.configured, before.manager, by simp [before.next], ?_, before.swappers, ?_, ?_, ?_, ?_, before.paths⟩
  · rw [List.map_append, before.numbers, before.next, List.length_append, List.length_singleton, List.range'_1_concat,
      Nat.add_comm 1]
    rfl
  · rw [List.map_append]
    exact before.drawers.append (by simp) (by simpa using fresh)
  · exact List.forall_mem_append.mpr ⟨before.drew, by simpa using member⟩
  · refine before.others (List.Subset.refl _) (List.subset_append_left _ _) (List.Subset.refl _)
      (fun _ member => .inl member) (fun draw member => ?_) (fun _ _ _ => rfl) (.write lsn (by simp))
    simpa using (List.mem_append.mp member).imp_right fun last => congrArg Draw.thread (List.mem_singleton.mp last)
  · exact before.keptFiles (List.subset_append_left _ _) (by simp [isDraw, Phase.built]) fun _ _ _ => rfl

theorem write {toFlush : MemTable} {lsn seq : Nat} (before : FlushJobs config swapped drawn world phase)
    (isWrite : phase i = .write toFlush lsn seq) (nonempty : toFlush.entries ≠ []) :
    FlushJobs config swapped drawn { world with disk := { world.disk with
        tables := Function.update world.disk.tables (flushPath world.engine.config.sstDir seq)
          (some (.complete (.ofMemTable toFlush nonempty))) } }
      (Function.update phase i (.register lsn seq (flushPath world.engine.config.sstDir seq))) := by
  have drew : ⟨i, toFlush, seq⟩ ∈ drawn := by
    have job := before.jobs i
    rw [isWrite] at job
    cases job with
    | write _ drew => exact drew
  have apart : ∀ draw ∈ drawn, draw.thread ≠ i → flushPath config.sstDir draw.number ≠ flushPath config.sstDir seq := by
    intro draw inside other same
    exact other (congrArg Draw.thread (before.number_inj inside drew (flushPath_inj same)))
  rw [before.configured]
  refine ⟨before.configured, before.manager, before.next, before.numbers, before.swappers, before.drawers, before.drew,
    ?_, ?_, before.paths⟩
  · refine before.others (List.Subset.refl _) (List.Subset.refl _) (List.Subset.refl _) (fun _ member => .inl member)
      (fun _ member => .inl member) (fun draw inside other => Function.update_of_ne (apart draw inside other) _ _)
      (.register lsn drew (by rfl) (Function.update_self _ _ _))
  · refine before.keptFiles (List.Subset.refl _) (by simp [isWrite, Phase.built]) fun draw inside built =>
      Function.update_of_ne (apart draw inside ?_) _ _
    rintro rfl
    rw [isWrite] at built
    cases built

theorem register {lsn seq : Nat} {path : Path} (before : FlushJobs config swapped drawn world phase)
    (isRegister : phase i = .register lsn seq path) :
    FlushJobs config swapped drawn
      (world.withStore (withFiles world.store [flushedMeta .none path seq world.disk.tables]))
      (Function.update phase i (.catalogue lsn)) := by
  have job := before.jobs i
  rw [isRegister] at job
  cases job with
  | @register toFlush table _ _ drew entries written =>
    rw [flushedMeta_eq written]
    have files : (world.withStore (withFiles world.store
        [flushMeta config.sstDir table seq])).engine.compactionManager.files =
          world.engine.compactionManager.files ++ [flushMeta config.sstDir table seq] := rfl
    have fresh : flushPath config.sstDir seq ∉ world.engine.compactionManager.files.map SSTableMeta.filepath := by
      intro old
      obtain ⟨file, member, same⟩ := List.mem_map.mp old
      obtain ⟨draw, inside, built, other, -, isFile, -⟩ := before.files file member
      rw [isFile] at same
      obtain rfl := before.number_inj inside drew (flushPath_inj same)
      rw [isRegister] at built
      cases built
    refine ⟨before.configured, before.manager, before.next, before.numbers, before.swappers, before.drawers, before.drew,
      ?_, ?_, ?_⟩
    · refine before.others (List.Subset.refl _) (List.Subset.refl _) ?_ (fun _ member => .inl member)
        (fun _ member => .inl member) (fun _ _ _ => rfl) (.catalogue lsn ⟨toFlush, seq, table, drew, entries, ?_⟩)
      · rw [files]
        exact List.subset_append_left _ _
      · simp [files]
    · rw [files]
      refine List.forall_mem_append.mpr ⟨before.keptFiles (List.Subset.refl _) (by simp [isRegister, Phase.built])
        fun _ _ _ => rfl, ?_⟩
      simp only [List.mem_singleton, forall_eq]
      exact ⟨_, drew, by rw [Function.update_self]; rfl, table, entries, rfl, written⟩
    · rw [files, List.map_append]
      exact before.paths.append (by simp) (List.disjoint_singleton.mpr fresh)

theorem of_run {phase : ι → Phase} {moves : List (Move Phase ι)} {calls : Calls ι}
    (callers : ∀ i, phase i = .swap ∨ ∃ m, phase i = .append m)
    (run : Interleaved pf device ⟨fresh pf config, phase⟩ moves calls) :
    FlushJobs config (swaps moves) (draws moves) calls.state calls.phase := by
  refine run.induct (P := fun moves calls => FlushJobs config (swaps moves) (draws moves) calls.state calls.phase)
    (.start callers) ?_
  intro moves calls i target world' _ before next
  have job := before.jobs i
  generalize isPhase : calls.phase i = source at next job
  have unbuilt : source.built = false → ((calls.phase i).built = true → target.built = true) := by
    intro unbuilt built
    rw [isPhase, unbuilt] at built
    cases built
  cases next <;> simp only [swaps_concat, draws_concat, swapOf, drawOf, Option.toList_none, Option.toList_some,
    List.append_nil]
  case append =>
    cases job with
    | append _ fresh => exact before.other rfl rfl rfl (unbuilt rfl) (.apply _ fresh)
  case apply m =>
    cases job with
    | apply _ fresh =>
      have job : FlushJob config.sstDir (swaps moves) (draws moves) calls.state i
          (if (calls.state.engine.activeMemtable.apply pf m).approximateMemoryUsage ≥
            calls.state.engine.config.memtableSizeBytes then .swap else .returned) := by
        split_ifs
        · exact .swap fresh
        · exact .returned fun member => absurd member fresh
      exact before.other rfl rfl rfl (unbuilt rfl) job
  case swapEmpty =>
    cases job with
    | swap fresh =>
      exact before.other rfl rfl rfl (unbuilt rfl) (.returned fun member => absurd member fresh)
  case swap => exact before.swap isPhase rfl rfl rfl
  case capture =>
    cases job with
    | capture member fresh =>
      exact before.other rfl rfl rfl (unbuilt rfl) (.draw _ member fresh)
  case draw => exact before.draw isPhase
  case write _ _ nonempty => exact before.write isPhase nonempty
  case register => exact before.register isPhase
  case catalogue =>
    cases job with
    | catalogue _ catalogued => exact before.other rfl rfl rfl (fun _ => rfl) (.save _ catalogued)
  case save =>
    cases job with
    | save _ catalogued => exact before.other rfl rfl rfl (fun _ => rfl) (.finish catalogued)
  case finish =>
    cases job with
    | finish catalogued =>
      exact before.other rfl rfl rfl (fun _ => rfl) (.returned fun _ => catalogued)
  case lookup => cases job
  case search => cases job

omit [DecidableEq ι]

theorem increasing (flushes : FlushJobs config swapped drawn world phase) :
    drawn.Pairwise fun a b => a.number < b.number := by
  have numbers : (drawn.map Draw.number).Pairwise (· < ·) := flushes.numbers ▸ List.pairwise_lt_range' 1
  exact List.pairwise_map.mp numbers

theorem done (flushes : FlushJobs config swapped drawn world phase) (returned : ∀ i, phase i = .returned)
    {swap : ι × MemTable} (member : swap ∈ swapped) :
    ∃ draw ∈ drawn, draw.swap = swap ∧ ∃ table : SSTable, table.entries = draw.table.entries ∧
      flushMeta config.sstDir table draw.number ∈ world.engine.compactionManager.files := by
  have job := flushes.jobs swap.1
  rw [returned] at job
  cases job with
  | returned catalogued =>
    obtain ⟨toFlush, seq, table, drew, entries, inFiles⟩ := catalogued (List.mem_map_of_mem member)
    refine ⟨⟨swap.1, toFlush, seq⟩, drew, ?_, table, entries, inFiles⟩
    exact List.inj_on_of_nodup_map flushes.swappers (flushes.drew _ drew) member rfl

theorem draws_perm (flushes : FlushJobs config swapped drawn world phase) (returned : ∀ i, phase i = .returned) :
    (drawn.map Draw.swap).Perm swapped := by
  have distinct : (drawn.map Draw.swap).Nodup := by
    refine List.Nodup.of_map Prod.fst ?_
    rw [List.map_map]
    exact flushes.drawers
  refine (List.perm_ext_iff_of_nodup distinct (List.Nodup.of_map _ flushes.swappers)).mpr fun swap => ⟨?_, fun member => ?_⟩
  · intro member
    obtain ⟨draw, inside, rfl⟩ := List.mem_map.mp member
    exact flushes.drew draw inside
  · obtain ⟨draw, inside, rfl, -⟩ := flushes.done returned member
    exact List.mem_map_of_mem inside

theorem searchable (flushes : FlushJobs config swapped drawn world phase) : Searchable world.store := by
  have zero : ∀ file ∈ world.store.manager.files, file.level = 0 := by
    intro file member
    obtain ⟨draw, -, -, table, -, rfl, -⟩ := flushes.files file member
    rfl
  refine ⟨⟨fun file member => ?_, flushes.paths, fun file member level deep number _ => ?_, fun file member => ?_,
    fun a inA b _ _ _ deep => ?_, fun file member deep => ?_⟩, fun a inA b inB _ _ same => ?_⟩
  · obtain ⟨draw, -, -, table, -, rfl, written⟩ := flushes.files file member
    exact ⟨table, written, rfl, rfl⟩
  · obtain ⟨draw, -, -, table, -, rfl, -⟩ := flushes.files file member
    rw [World.store, flushes.manager.1]
    exact flushPath_ne_outputPath _ _ deep number
  · rw [zero file member, World.store, flushes.manager.2]
    decide
  · rw [zero a inA] at deep
    omega
  · rw [zero file member] at deep
    omega
  · obtain ⟨draw, inside, -, table, -, rfl, written⟩ := flushes.files a inA
    obtain ⟨draw', inside', -, table', -, rfl, written'⟩ := flushes.files b inB
    obtain rfl := flushes.number_inj inside inside' same
    rw [written] at written'
    cases written'
    rfl

theorem readable (flushes : FlushJobs config swapped drawn world phase)
    (small : ∀ swap ∈ swapped, dataSize swap.2.entries ≤ 2 ^ 30) : Readable world.store := by
  intro file member
  obtain ⟨draw, inside, -, table, entries, rfl, written⟩ := flushes.files file member
  refine ⟨table, ⟨written, rfl, rfl⟩, SSTable.roundTrips_of_dataSize ?_⟩
  rw [entries]
  exact small _ (flushes.drew draw inside)

theorem version (flushes : FlushJobs config swapped drawn world phase) {file : SSTableMeta}
    (member : file ∈ world.store.manager.files) :
    ∃ draw ∈ drawn, file.level = 0 ∧ file.sequenceNumber = draw.number ∧
      ∀ key, versionAt world.store.tables key file.filepath = find BlockEntry.key draw.table.entries key := by
  obtain ⟨draw, inside, -, table, entries, rfl, written⟩ := flushes.files file member
  have recorded : Recorded world.store.tables (flushMeta config.sstDir table draw.number) table := ⟨written, rfl, rfl⟩
  refine ⟨draw, inside, rfl, rfl, fun key => ?_⟩
  rw [versionAt_recorded recorded, SSTable.lookup, entries]

theorem file (flushes : FlushJobs config swapped drawn world phase) (returned : ∀ i, phase i = .returned)
    {draw : Draw ι} (member : draw ∈ drawn) :
    ∃ file ∈ world.store.manager.files, file.level = 0 ∧ file.sequenceNumber = draw.number ∧
      ∀ key, versionAt world.store.tables key file.filepath = find BlockEntry.key draw.table.entries key := by
  obtain ⟨other, inside, same, table, entries, inFiles⟩ := flushes.done returned (flushes.drew draw member)
  obtain rfl := flushes.thread_inj inside member (congrArg Prod.fst same)
  obtain ⟨draw', inside', level, number, versions⟩ := flushes.version inFiles
  obtain rfl := flushes.number_inj inside' member number.symm
  exact ⟨_, inFiles, level, number, versions⟩

theorem newestEntry_eq (flushes : FlushJobs config swapped drawn world phase) (returned : ∀ i, phase i = .returned)
    (pf : Platform) (key : Bytes) : newestEntry pf world.store key =
      drawn.reverse.findSome? fun draw => find BlockEntry.key draw.table.entries key := by
  have ordered : drawn.reverse.Pairwise fun a b => Draw.number b < Draw.number a :=
    List.pairwise_reverse.mpr flushes.increasing
  refine Option.ext fun entry => ?_
  rw [flushes.searchable.newestEntry_eq_some, findSome_ranked ordered]
  simp only [FirstHit, List.mem_reverse]
  constructor
  · rintro ⟨file, member, found, front⟩
    obtain ⟨draw, inside, level, number, versions⟩ := flushes.version member
    refine ⟨draw, inside, (versions key).symm.trans found, fun other member' held => ?_⟩
    obtain ⟨file', inFiles, level', number', versions'⟩ := flushes.file returned member'
    rcases front file' inFiles (by rwa [versions']) with rfl | newer
    · omega
    · unfold Newer at newer
      omega
  · rintro ⟨draw, inside, found, front⟩
    obtain ⟨file, member, level, number, versions⟩ := flushes.file returned inside
    refine ⟨file, member, (versions key).trans found, fun file' member' held => ?_⟩
    obtain ⟨draw', inside', level', number', versions'⟩ := flushes.version member'
    rw [versions'] at held
    have older := front draw' inside' held
    by_cases same : draw'.number = draw.number
    · refine .inl (flushes.searchable.stamps file' member' file member level' level ?_)
      omega
    · refine .inr (.inr ⟨by omega, ?_⟩)
      omega

end FlushJobs

def Builds {ι : Type} (moves : List (Move Phase ι)) (swap : ι × MemTable) (file : SSTableMeta) : Prop :=
  ⟨swap.1, swap.2, file.sequenceNumber⟩ ∈ draws moves

def AgeOrdered {ι : Type} (moves : List (Move Phase ι)) (world : World) : Prop :=
  (swaps moves).Pairwise fun earlier later => ∀ a ∈ world.engine.compactionManager.files,
    ∀ b ∈ world.engine.compactionManager.files, a.level = 0 → b.level = 0 → Builds moves earlier a →
      Builds moves later b → a.sequenceNumber < b.sequenceNumber

section Theorem
variable {ι : Type} [DecidableEq ι] {pf : Platform} {device : Device} {config : StorageConfig} {phase : ι → Phase}
  {moves : List (Move Phase ι)} {calls : Calls ι}

omit [DecidableEq ι] in
theorem ageOrdered_iff {world : World} (flushes : FlushJobs config (swaps moves) (draws moves) world phase)
    (returned : ∀ i, phase i = .returned) :
    AgeOrdered moves world ↔ (draws moves).map Draw.swap = swaps moves := by
  constructor
  · intro aged
    have drawn : ((draws moves).map Draw.swap).Pairwise fun earlier later => ∀ a ∈ draws moves, ∀ b ∈ draws moves,
        a.swap = earlier → b.swap = later → a.number < b.number := by
      refine List.pairwise_map.mpr (List.Pairwise.imp_of_mem (fun {a b} inA inB less => ?_) flushes.increasing)
      intro a' inA' b' inB' sameA sameB
      rwa [flushes.thread_inj inA' inA (congrArg Prod.fst sameA), flushes.thread_inj inB' inB (congrArg Prod.fst sameB)]
    have swapped : (swaps moves).Pairwise fun earlier later => ∀ a ∈ draws moves, ∀ b ∈ draws moves,
        a.swap = earlier → b.swap = later → a.number < b.number := by
      refine aged.imp fun {earlier later} ordered => ?_
      rintro a inA b inB rfl rfl
      obtain ⟨fileA, memberA, levelA, numberA, -⟩ := flushes.file returned inA
      obtain ⟨fileB, memberB, levelB, numberB, -⟩ := flushes.file returned inB
      rw [← numberA, ← numberB]
      exact ordered fileA memberA fileB memberB levelA levelB (by rw [Builds, numberA]; exact inA)
        (by rw [Builds, numberB]; exact inB)
    refine List.Perm.eq_of_pairwise (fun x y inDraws inSwaps less more => ?_) drawn swapped (flushes.draws_perm returned)
    obtain ⟨a, inA, rfl⟩ := List.mem_map.mp inDraws
    obtain ⟨b, inB, rfl, -⟩ := flushes.done returned inSwaps
    have := less a inA b inB rfl rfl
    have := more b inB a inA rfl rfl
    omega
  · intro same
    rw [AgeOrdered, ← same, List.pairwise_map]
    refine List.Pairwise.imp_of_mem (fun {a b} inA inB less => ?_) flushes.increasing
    intro file _ file' _ _ _ builds builds'
    have isA := flushes.thread_inj builds inA rfl
    have isB := flushes.thread_inj builds' inB rfl
    rw [← isA, ← isB] at less
    exact less

/-- Concurrent flushes on a fresh engine, once all calls have returned, of MemTables within the limits of the file
format: every MemTable swapped out is a file, the files are in age order exactly if the numbers are drawn in the
order of the swaps, and then a lookup finds the newest flushed version. -/
theorem flushes_age_ordered_iff {start : World} (opened : «open» pf config Disk.empty = .ok start.engine start.disk)
    (callers : ∀ i, phase i = .swap ∨ ∃ m, phase i = .append m)
    (run : Interleaved pf device ⟨start, phase⟩ moves calls) (returned : ∀ i, calls.phase i = .returned)
    (small : ∀ swap ∈ swaps moves, dataSize swap.2.entries ≤ 2 ^ 30) :
    (∀ swap ∈ swaps moves, ∃ file ∈ calls.state.engine.compactionManager.files, file.level = 0 ∧
      Builds moves swap file ∧ ∀ key, versionAt calls.state.disk.tables key file.filepath =
        find BlockEntry.key swap.2.entries key) ∧
    (∀ file ∈ calls.state.engine.compactionManager.files, file.level = 0 ∧ ∃ swap ∈ swaps moves,
      Builds moves swap file) ∧
    (AgeOrdered moves calls.state ↔ (draws moves).map Draw.swap = swaps moves) ∧
    ((draws moves).map Draw.swap = swaps moves → ∀ key,
      getFromFiles pf (diskFiles calls.state.disk.tables) calls.state.engine.compactionManager.files key =
        some (.ok (((swaps moves).reverse.findSome? fun swap => find BlockEntry.key swap.2.entries key).bind
          BlockEntry.visible))) := by
  obtain rfl := opened_eq_fresh opened
  have flushes := FlushJobs.of_run callers run
  refine ⟨fun swap member => ?_, fun file member => ?_, ageOrdered_iff flushes returned, fun same key => ?_⟩
  · obtain ⟨draw, inside, rfl, -⟩ := flushes.done returned member
    obtain ⟨file, inFiles, level, number, versions⟩ := flushes.file returned inside
    exact ⟨file, inFiles, level, by rw [Builds, number]; exact inside, versions⟩
  · obtain ⟨draw, inside, level, number, -⟩ := flushes.version member
    exact ⟨level, draw.swap, flushes.drew draw inside, by rw [Builds, number]; exact inside⟩
  · refine ((flushes.readable small).getFromFiles_eq (storedAsBytes_diskFiles _) key).trans (congrArg some ?_)
    rw [getFromSSTables_eq pf flushes.searchable.toLevelled, flushes.newestEntry_eq returned, ← same,
      ← List.map_reverse, List.findSome?_map]
    rfl

end Theorem

/-- Two writers of one key and two flushes. The first part tells a flush, the second the later one. -/
def twoFlushes : Bool × Bool → Phase
  | (true, _) => .swap
  | (false, later) => .append (if later then .put [1] [3] else .put [1] [2])

def written1 (value : Bytes) : MemTable := (MemTable.new .reference).apply .reference (.put [1] value)

theorem written1_entries (value : Bytes) : (written1 value).entries = [⟨[1], value, false⟩] := by
  rw [written1, MemTable.entries_apply, MemTable.entries_new]
  rfl

theorem two_flushes_run (overtakes : Bool) : ∃ moves calls,
    Interleaved .reference .faultless ⟨fresh .reference {}, twoFlushes⟩ moves calls ∧
    (∀ i, calls.phase i = .returned) ∧ swaps moves = [((true, false), written1 [2]), ((true, true), written1 [3])] ∧
    draws moves = if overtakes then [⟨(true, true), written1 [3], 1⟩, ⟨(true, false), written1 [2], 2⟩]
      else [⟨(true, false), written1 [2], 1⟩, ⟨(true, true), written1 [3], 2⟩] := by
  have holds := holds_fresh .reference {}
  obtain ⟨lsn, wal, file, first⟩ := holds.append_room (m := .put [1] [2]) (by rw [logBytes_length]; decide)
  obtain ⟨lsn', wal', file', second⟩ := (holds.append_ok first).2.append_room (m := .put [1] [3])
    (by rw [logBytes_length]; decide)
  have filled : ∀ value, (written1 value).entries ≠ [] := fun value => by simp [written1_entries]
  have levels : (0 : Int) < leveled.kNumLevels := by decide
  have run : Interleaved .reference .faultless ⟨fresh .reference {}, twoFlushes⟩ [] _ := .refl
  have run := run.snoc (false, false) rfl (.append first)
  have run := run.snoc (false, false) rfl (.apply_small (MemTable.new .reference) (64 * 1024 * 1024) rfl rfl (by decide))
  have run := run.snoc (true, false) rfl (.swap (filled [2]))
  have run := run.snoc (false, true) rfl (.append second)
  have run := run.snoc (false, true) rfl (.apply_small (MemTable.new .reference) (64 * 1024 * 1024) rfl rfl (by decide))
  have run := run.snoc (true, true) rfl (.swap (filled [3]))
  cases overtakes with
  | true =>
    have run := run.flushSwapped (true, true) rfl (filled [3]) levels
    refine ⟨_, _, run.flushSwapped (true, false) rfl (filled [2]) levels, ?_, rfl, rfl⟩
    rintro ⟨_ | _, _ | _⟩ <;> rfl
  | false =>
    have run := run.flushSwapped (true, false) rfl (filled [2]) levels
    refine ⟨_, _, run.flushSwapped (true, true) rfl (filled [3]) levels, ?_, rfl, rfl⟩
    rintro ⟨_ | _, _ | _⟩ <;> rfl

theorem twoFlushes_callers (i : Bool × Bool) : twoFlushes i = .swap ∨ ∃ m, twoFlushes i = .append m := by
  obtain ⟨_ | _, later⟩ := i
  · exact .inr ⟨_, rfl⟩
  · exact .inl rfl

theorem twoFlushes_small {swapped : List ((Bool × Bool) × MemTable)}
    (are : swapped = [((true, false), written1 [2]), ((true, true), written1 [3])]) :
    ∀ swap ∈ swapped, dataSize swap.2.entries ≤ 2 ^ 30 := by
  simp [are, written1_entries, dataSize, load, BlockEntry.encodedSize]

theorem flushes_age_ordered_in_turn : ∃ moves calls,
    Interleaved .reference .faultless ⟨fresh .reference {}, twoFlushes⟩ moves calls ∧
    (∀ i, calls.phase i = .returned) ∧ AgeOrdered moves calls.state ∧
    getFromFiles .reference (diskFiles calls.state.disk.tables) calls.state.engine.compactionManager.files [1] =
      some (.ok (some [3])) := by
  obtain ⟨moves, calls, run, returned, swapped, drawn⟩ := two_flushes_run false
  obtain ⟨-, -, aged, reads⟩ := flushes_age_ordered_iff rfl twoFlushes_callers run returned
    (twoFlushes_small swapped)
  have inTurn : (draws moves).map Draw.swap = swaps moves := by
    rw [swapped, drawn]
    rfl
  refine ⟨moves, calls, run, returned, aged.mpr inTurn, (reads inTurn [1]).trans ?_⟩
  rw [swapped]
  simp [written1_entries, find_cons, BlockEntry.visible]

/-- The flush of the newer MemTable draws its number first: the file of the older one hides it. -/
theorem overtaken_flush_hides_newer : ∃ moves calls,
    Interleaved .reference .faultless ⟨fresh .reference {}, twoFlushes⟩ moves calls ∧
    (∀ i, calls.phase i = .returned) ∧ ¬ AgeOrdered moves calls.state ∧
    getFromFiles .reference (diskFiles calls.state.disk.tables) calls.state.engine.compactionManager.files [1] =
      some (.ok (some [2])) ∧
    ((swaps moves).reverse.findSome? fun swap => find BlockEntry.key swap.2.entries [1]) = some ⟨[1], [3], false⟩ := by
  obtain ⟨moves, calls, run, returned, swapped, drawn⟩ := two_flushes_run true
  have flushes := FlushJobs.of_run twoFlushes_callers run
  refine ⟨moves, calls, run, returned, ?_, ?_, ?_⟩
  · rw [ageOrdered_iff flushes returned, swapped, drawn]
    intro same
    cases congrArg (fun swaps => swaps.head?.map Prod.fst) same
  · refine ((flushes.readable (twoFlushes_small swapped)).getFromFiles_eq (storedAsBytes_diskFiles _) [1]).trans ?_
    rw [getFromSSTables_eq _ flushes.searchable.toLevelled, flushes.newestEntry_eq returned, drawn]
    simp [written1_entries, find_cons, BlockEntry.visible]
  · rw [swapped]
    simp [written1_entries, find_cons]

end StorageEngine

end VectorDb.Storage
