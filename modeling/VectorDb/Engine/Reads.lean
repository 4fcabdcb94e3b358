import VectorDb.Engine.Moderate

namespace VectorDb.Storage
open Lib Common CompactionManager

namespace StorageEngine

def plainMap (commands : List Command) : Bytes → Option Bytes :=
  commands.foldl (fun map command =>
    match command with
    | .put key value => Function.update map key (some value)
    | .delete key => Function.update map key none
    | .flush => map) fun _ => none

theorem plainMap_eq (commands : List Command) (key : Bytes) :
    plainMap commands key = (newest BlockEntry.key (effects (written commands)) key).bind BlockEntry.visible := by
  induction commands using List.reverseRecOn with
  | nil => rfl
  | append_singleton commands command ih =>
    rw [plainMap, List.foldl_append, ← plainMap, written_concat, effects_append]
    cases command with
    | put key' value =>
      by_cases same : key = key'
      · simp [Command.mutations, effects, newest_concat, Mutation.effect, BlockEntry.visible, same]
      · simpa [Command.mutations, effects, newest_concat, Mutation.effect, same, Ne.symm same] using ih
    | delete key' =>
      by_cases same : key = key'
      · simp [Command.mutations, effects, newest_concat, Mutation.effect, BlockEntry.visible, same]
      · simpa [Command.mutations, effects, newest_concat, Mutation.effect, same, Ne.symm same] using ih
    | flush => simpa [Command.mutations, effects] using ih

section LastFlush
variable (pf : Platform) (device : Device) (start : World)

def emptyAfter (commands : List Command) : Bool :=
  match runAll pf device commands start with
  | .ok _ world => world.engine.activeMemtable.isEmpty
  | .error _ _ => false

/-- The calls up to the last flush: the longest prefix that leaves the active MemTable empty. -/
def settled (commands : List Command) : List Command :=
  ((commands.inits.filter (emptyAfter pf device start)).getLast?).getD []

def DeletedSinceFlush (commands : List Command) (key : Bytes) : Prop :=
  plainMap (settled pf device start commands) key ≠ none ∧ plainMap commands key = none

theorem settled_concat (commands : List Command) (command : Command) :
    settled pf device start (commands ++ [command]) =
      if emptyAfter pf device start (commands ++ [command]) then commands ++ [command]
      else settled pf device start commands := by
  rw [settled, settled, List.inits_append, List.filter_append]
  by_cases empty : emptyAfter pf device start (commands ++ [command]) <;> simp [empty]

end LastFlush

variable {pf : Platform} {device : Device} {config : StorageConfig} {world : World}

theorem settled_nil (start : World) : settled pf device start [] = [] := by
  simp only [settled, List.inits, List.filter_cons, List.filter_nil]
  split <;> rfl

theorem runAll_stored {commands : List Command} (ran : runAll pf device commands (fresh pf config) = .ok () world) :
    ∃ unflushed, written commands = written (settled pf device (fresh pf config) commands) ++ unflushed ∧
      Serving pf config unflushed world ∧ Stored pf (written (settled pf device (fresh pf config) commands)) world := by
  induction commands using List.reverseRecOn generalizing world with
  | nil =>
    cases ran
    rw [settled_nil]
    exact ⟨[], rfl, serving_fresh pf config, stored_fresh pf config⟩
  | append_singleton commands command ih =>
    obtain ⟨between, before, last⟩ := runAll_concat.mp ran
    obtain ⟨unflushed, all, serving, stored⟩ := ih before
    obtain ⟨flushed', unflushed', all', kept, serving', stored'⟩ := serving.command_stored stored last
    rw [← all, ← written_concat] at all'
    have empty : emptyAfter pf device (fresh pf config) (commands ++ [command]) = true ↔ unflushed' = [] := by
      rw [← serving'.active_eq_nil, ← MemTable.isEmpty_iff, emptyAfter, ran]
    rw [settled_concat]
    split_ifs with flushed
    · rw [empty] at flushed
      subst flushed
      rw [List.append_nil] at all'
      exact ⟨[], by simp, serving', all' ▸ stored'⟩
    · obtain rfl := kept.resolve_right (empty.not.mp flushed)
      exact ⟨unflushed', all'.symm, serving', stored'⟩

theorem Serving.get_eq {unflushed flushed : List Mutation} (serving : Serving pf config unflushed world)
    (stored : Stored pf flushed world) (key : Bytes) : get pf .none world key =
      .ok (((newest BlockEntry.key (effects unflushed) key).bind BlockEntry.visible).or
        ((newest BlockEntry.key (effects flushed) key).bind BlockEntry.visible)) := by
  rw [get, MemTable.get_eq, serving.find_active, serving.immutable, getFromSSTables_eq pf serving.searchable.toLevelled,
    stored key]
  cases (newest BlockEntry.key (effects unflushed) key).bind BlockEntry.visible <;> rfl

theorem Serving.flush_get {unflushed flushed : List Mutation} (serving : Serving pf config unflushed world)
    (stored : Stored pf flushed world) (key : Bytes) :
    ∃ world', (flushMemTable pf .none).run world = .ok () world' ∧ get pf .none world' key =
      .ok ((newest BlockEntry.key (effects (flushed ++ unflushed)) key).bind BlockEntry.visible) := by
  by_cases empty : world.engine.activeMemtable.entries = []
  · refine ⟨world, flushMemTable_empty pf empty, ?_⟩
    obtain rfl := serving.active_eq_nil.mp empty
    rw [serving.get_eq stored, List.append_nil]
    rfl
  · refine ⟨_, flushMemTable_run pf empty serving.levels, ?_⟩
    rw [(serving.afterFlush _).get_eq (stored.afterFlush serving empty)]
    rfl

theorem visible_or_iff (recent older : Option BlockEntry) :
    (recent.bind BlockEntry.visible).or (older.bind BlockEntry.visible) = (recent.or older).bind BlockEntry.visible ↔
      ¬ (older.bind BlockEntry.visible ≠ none ∧ (recent.or older).bind BlockEntry.visible = none) := by
  cases recent with
  | none => simp
  | some entry =>
    cases seen : entry.visible with
    | none => simp [seen]
    | some value => simp [seen]

theorem runAll_readable {commands : List Command} (moderate : Moderate pf config (written commands))
    (ran : runAll pf device commands (fresh pf config) = .ok () world) : Readable world.store := by
  obtain ⟨⟨unflushed, serving⟩, sized⟩ := runAll_sized moderate ran
  exact sized.readable serving.searchable

/-- Within the limits of the file format, `Get` agrees with the plain map, and a flush leaves it alone, unless the key
was live at the last flush and has been deleted since. -/
theorem get_plainMap_iff {start : World} {commands : List Command}
    (opened : «open» pf config Disk.empty = .ok start.engine start.disk)
    (ran : runAll pf device commands start = .ok () world) (moderate : Moderate pf config (written commands))
    (key : Bytes) :
    (getBytes pf world key = some (.ok (plainMap commands key)) ↔ ¬ DeletedSinceFlush pf device start commands key) ∧
    ∃ flushed, (flushMemTable pf .none).run world = .ok () flushed ∧
      (getBytes pf flushed key = getBytes pf world key ↔ ¬ DeletedSinceFlush pf device start commands key) := by
  obtain rfl := opened_eq_fresh opened
  obtain ⟨unflushed, all, serving, stored⟩ := runAll_stored ran
  have condition := visible_or_iff (newest BlockEntry.key (effects unflushed) key)
    (newest BlockEntry.key (effects (written (settled pf device (fresh pf config) commands))) key)
  rw [← newest_append, ← effects_append, ← all, ← plainMap_eq, ← plainMap_eq] at condition
  obtain ⟨flushed, done, after⟩ := serving.flush_get stored key
  have flushes : runAll pf device (commands ++ [.flush]) (fresh pf config) = .ok () flushed :=
    runAll_concat.mpr ⟨world, ran, done⟩
  have moderate' : Moderate pf config (written (commands ++ [.flush])) := by
    rw [written_concat]
    exact moderate.part (by simp [Command.mutations])
  rw [getBytes_eq (runAll_readable moderate ran), serving.get_eq stored, ← plainMap_eq, Option.some.injEq, Except.ok.injEq]
  refine ⟨condition, flushed, done, ?_⟩
  rw [getBytes_eq (runAll_readable moderate' flushes), after, ← all, ← plainMap_eq, Option.some.injEq, Except.ok.injEq,
    eq_comm]
  exact condition

theorem get_plainMap_overwritten : ∃ start world, «open» .reference {} Disk.empty = .ok start.engine start.disk ∧
    runAll .reference .faultless [.put [1] [2], .flush, .put [1] [3]] start = .ok () world ∧
    getBytes .reference world [1] = some (.ok (some [3])) := by
  obtain ⟨world, ran⟩ := runAll_succeeds .reference {} [.put [1] [2], .flush, .put [1] [3]]
    (by rw [logBytes_length]; decide)
  have live : ¬ DeletedSinceFlush .reference .faultless (fresh .reference {})
      [.put [1] [2], .flush, .put [1] [3]] [1] := by
    simp [DeletedSinceFlush, plainMap]
  have moderate : Moderate .reference {} (written [.put [1] [2], .flush, .put [1] [3]]) :=
    ⟨⟨by decide, by decide⟩, by decide, by decide⟩
  exact ⟨fresh .reference {}, world, rfl, ran, (get_plainMap_iff rfl ran moderate [1]).1.mpr live⟩

theorem get_finds_deleted : ∃ start world, «open» .reference {} Disk.empty = .ok start.engine start.disk ∧
    runAll .reference .faultless [.put [1] [2], .flush, .delete [1]] start = .ok () world ∧
    getBytes .reference world [1] = some (.ok (some [2])) ∧
    plainMap [.put [1] [2], .flush, .delete [1]] [1] = none := by
  obtain ⟨logged, put, serving, stored, holds, -⟩ := (resting_fresh .reference {}).write (.put [1] [2])
    (by rw [logBytes_length]; decide) (by decide)
  obtain ⟨nonempty, flush, resting⟩ := Resting.flush serving stored holds
  obtain ⟨world, delete, serving, stored, -⟩ := resting.write (.delete [1])
    (by rw [logBytes_length]; decide) (by decide)
  have ran : runAll .reference .faultless ([] ++ [.put [1] [2]] ++ [.flush] ++ [.delete [1]]) (fresh .reference {}) =
      .ok () world :=
    runAll_concat.mpr ⟨_, runAll_concat.mpr ⟨logged, runAll_concat.mpr ⟨_, rfl, put⟩, flush⟩, delete⟩
  refine ⟨fresh .reference {}, world, rfl, ran, ?_, by simp [plainMap]⟩
  have moderate : Moderate .reference {} (written ([] ++ [.put [1] [2]] ++ [.flush] ++ [.delete [1]])) :=
    ⟨⟨by decide, by decide⟩, by decide, by decide⟩
  rw [getBytes_eq (runAll_readable moderate ran), serving.get_eq stored]
  rfl

end StorageEngine

end VectorDb.Storage
