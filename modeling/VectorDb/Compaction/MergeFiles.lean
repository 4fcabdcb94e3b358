import VectorDb.Compaction.Catalogue
import VectorDb.Lib.KWayMerge

namespace VectorDb.Storage
open Lib Common

structure Store where
  tables : Tables
  manager : CompactionManager

/-- `CompactionStats` without the duration. -/
structure CompactionStats where
  sourceLevel : Int
  targetLevel : Int
  filesRead : Nat
  filesWritten : Nat
  bytesRead : Nat
  bytesWritten : Nat
  keysMerged : Nat
  tombstonesDropped : Nat
  duplicateKeysDropped : Nat
deriving DecidableEq, Repr

namespace CompactionManager

variable (pf : Platform) (io : Faults)

def generateOutputPath (level : Int) : Action Status Store Path := do
  let store ← get
  let number := store.manager.nextFileNumber
  set { store with manager := { store.manager with nextFileNumber := number + 1 } }
  return outputPath store.manager.dataDir level number

def toMutation (entry : BlockEntry) : Mutation :=
  if entry.isTombstone then .delete entry.key else .put entry.key entry.value

def writeVectorToSSTable (path : Path) (entries : List BlockEntry) : Action Status Store Unit := do
  if entries = [] then throw ⟨.kInvalidArgument, text "Cannot write empty SSTable"⟩
  Action.zoom Store.tables (fun tables store => { store with tables })
    (writeTable io path ((MemTable.new pf).applyAll pf (entries.map toMutation)))

/-- The local variables of `MergeFiles` that `flush_output` and the loop share. -/
structure MergeLocals where
  targetLevel : Int
  isBottomLevel : Bool
  outputMetas : List SSTableMeta
  outputEntries : List BlockEntry
  lastEmittedKey : Bytes
  outBytesEstimate : Nat
  currentOutputPath : Path
  stats : CompactionStats

def outputMeta (locals : MergeLocals) (store : Store) : SSTableMeta where
  filepath := locals.currentOutputPath
  level := locals.targetLevel
  smallestKey := (locals.outputEntries.head?.map BlockEntry.key).getD []
  largestKey := (locals.outputEntries.getLast?.map BlockEntry.key).getD []
  fileSizeBytes :=
    match store.tables locals.currentOutputPath with
    | some file => file.size
    | none => locals.outBytesEstimate
  sequenceNumber := store.manager.nextFileNumber

def flushOutput (locals : MergeLocals) : Action Status Store MergeLocals := do
  if locals.outputEntries = [] then return locals
  writeVectorToSSTable pf io locals.currentOutputPath locals.outputEntries
  let file := outputMeta locals (← get)
  let path ← generateOutputPath locals.targetLevel
  return { locals with
    outputMetas := locals.outputMetas ++ [file]
    outputEntries := []
    outBytesEstimate := 0
    currentOutputPath := path
    stats := { locals.stats with
      filesWritten := locals.stats.filesWritten + 1
      bytesWritten := locals.stats.bytesWritten + file.fileSizeBytes } }

def kMaxOutputBytes : Nat := 64 * 1024 * 1024

def consume (locals : MergeLocals) (entry : BlockEntry) : Action Status Store MergeLocals :=
  if entry.key = locals.lastEmittedKey then
    return { locals with
      stats := { locals.stats with duplicateKeysDropped := locals.stats.duplicateKeysDropped + 1 } }
  else
    let locals := { locals with lastEmittedKey := entry.key }
    if entry.isTombstone && locals.isBottomLevel then
      return { locals with stats := { locals.stats with tombstonesDropped := locals.stats.tombstonesDropped + 1 } }
    else
      let locals := { locals with
        outBytesEstimate := locals.outBytesEstimate + entry.encodedSize
        outputEntries := locals.outputEntries ++ [entry] }
      if locals.outBytesEstimate ≥ kMaxOutputBytes then flushOutput pf io locals else return locals

/-- The merge loop. A heap item carries the unread rest of its file in place of the file's index. -/
def drain : Nat → List (Run BlockEntry) → MergeLocals → Action Status Store MergeLocals
  | 0, _, locals => return locals
  | fuel + 1, heap, locals =>
    match pf.popHeap (Run.comesAfter BlockEntry.key) heap with
    | none => return locals
    | some (top, heap) => do
      let locals ← consume pf io locals top.head
      drain fuel (top.refill heap) locals

def readInputs (inputs : List SSTableMeta) (stats : CompactionStats) :
    Action Status Store (List (SSTableMeta × SSTable) × CompactionStats) := do
  let fileData ← Action.reads fun store =>
    inputs.mapM fun file => do return (file, ← openTable io store.tables file.filepath)
  return (fileData, { stats with
    keysMerged := stats.keysMerged + (fileData.map fun (_, table) => table.entries.length).sum
    bytesRead := stats.bytesRead + (inputs.map SSTableMeta.fileSizeBytes).sum })

def seedHeap (fileData : List (SSTableMeta × SSTable)) : List (Run BlockEntry) :=
  fileData.map fun (file, table) => ⟨table.entries.head table.nonempty, file.sequenceNumber, table.entries.tail⟩

def mergeFiles (inputs : List SSTableMeta) (targetLevel : Int) (stats : CompactionStats) :
    Action Status Store (List SSTableMeta × CompactionStats) := do
  let (fileData, stats) ← readInputs io inputs stats
  let isBottomLevel := targetLevel = (← get).manager.maxLevel - 1
  let path ← generateOutputPath targetLevel
  let locals ← drain pf io (Run.size (seedHeap fileData)) (seedHeap fileData)
    ⟨targetLevel, isBottomLevel, [], [], [], 0, path, stats⟩
  let locals ← flushOutput pf io locals
  return (locals.outputMetas, locals.stats)

end CompactionManager

end VectorDb.Storage
