import VectorDb.Engine.DiskContents

namespace VectorDb.Storage
open Lib Common CompactionManager

namespace StorageEngine

variable {pf : Platform} {config : StorageConfig} {world : World}

/-- The format's 32-bit fields hold in every file the engine writes, whether a flush or a merge writes it:
each file reads back entry by entry, and `Get` over the bytes of the files is `Get` over the tables. -/
theorem tables_read_back {start : World} {events : List Event}
    (opened : «open» pf config Disk.empty = .ok start.engine start.disk)
    (run : Trace (Event.Step pf) start events world) (moderate : Moderate pf config (logged events)) :
    (∀ path table, world.disk.tables path = some (.complete table) → RoundTrips table.entries table.entries.length) ∧
    ∀ files, StoredAsBytes files world.disk.tables →
      ∀ key, getOnDisk pf files world.engine key = some (get pf .none world key) := by
  obtain rfl := opened_eq_fresh opened
  have sized := trace_sized moderate run
  obtain ⟨flushed, unflushed, serving, listed, same⟩ := trace_listed run
  refine ⟨fun path table is => ?_, fun files stored => getOnDisk_eq (trace_readable moderate run) stored⟩
  obtain ⟨file, member, rfl⟩ := List.mem_map.mp ((same path).mp (Option.isSome_iff_exists.mpr ⟨_, is⟩))
  exact SSTable.roundTrips_of_dataSize (sized.files file member table is).all

theorem tables_read_back_spread : ∃ world, Trace (Event.Step .reference) (fresh .reference {}) spread world ∧
    ∀ path table, world.disk.tables path = some (.complete table) → RoundTrips table.entries table.entries.length := by
  obtain ⟨world, run⟩ := spread_run
  exact ⟨world, run, (tables_read_back rfl run spread_moderate).1⟩

end StorageEngine

end VectorDb.Storage
