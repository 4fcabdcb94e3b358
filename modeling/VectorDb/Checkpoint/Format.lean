import VectorDb.Checkpoint.Checkpoint
import VectorDb.Common.Decoding
import VectorDb.SSTable.Block

namespace VectorDb.Storage.CheckpointManager
open Lib Common BinarySerializer Decoder Decoding

def writeMeta (buffer : Bytes) (file : SSTableMeta) : Bytes :=
  let buffer := writeUint32 buffer (BitVec.ofInt 32 file.level).toNat
  let buffer := writeUint64 buffer file.fileSizeBytes
  let buffer := writeUint64 buffer file.sequenceNumber
  let buffer := writeString buffer file.smallestKey
  let buffer := writeString buffer file.largestKey
  writeString buffer file.filepath

/-- The buffer `SaveCheckpoint` writes. -/
def serializeCheckpoint (checkpoint : Checkpoint) : Bytes :=
  let buffer := writeUint64 [] checkpoint.lastFlushedLsn
  let buffer := writeUint32 buffer checkpoint.sstables.length
  checkpoint.sstables.foldl writeMeta buffer

def readMeta : BufferDecoder SSTableMeta := do
  let level ← readUint32
  let fileSizeBytes ← readUint64
  let sequenceNumber ← readUint64
  let smallestKey ← readString
  let largestKey ← readString
  let filepath ← readString
  return ⟨filepath, castInt level, smallestKey, largestKey, fileSizeBytes, sequenceNumber⟩

def readMetas : Nat → List SSTableMeta → BufferDecoder (List SSTableMeta)
  | 0, sstables => pure sstables
  | numFiles + 1, sstables => do
    let file ← readMeta
    readMetas numFiles (sstables ++ [file])

def parseCheckpoint : BufferDecoder Checkpoint := do
  let lastFlushedLsn ← readUint64
  let numFiles ← readUint32
  let sstables ← readMetas numFiles []
  return ⟨lastFlushedLsn, sstables⟩

def loadBytes (file : Option Bytes) : ErrorOr Checkpoint :=
  match file with
  | none => .ok ⟨0, []⟩
  | some bytes => (parseCheckpoint.eval bytes 0).map Prod.fst

structure MetaFits (file : SSTableMeta) : Prop where
  level : -2 ^ 31 ≤ file.level ∧ file.level < 2 ^ 31
  fileSizeBytes : file.fileSizeBytes < 2 ^ 64
  sequenceNumber : file.sequenceNumber < 2 ^ 64
  smallestKey : file.smallestKey.length < 2 ^ 32
  largestKey : file.largestKey.length < 2 ^ 32
  filepath : file.filepath.length < 2 ^ 32

structure CheckpointFits (checkpoint : Checkpoint) : Prop where
  lastFlushedLsn : checkpoint.lastFlushedLsn < 2 ^ 64
  count : checkpoint.sstables.length < 2 ^ 32
  files : ∀ file ∈ checkpoint.sstables, MetaFits file

def encodeString (value : Bytes) : Bytes := littleEndian 4 value.length ++ value

def encodeMeta (file : SSTableMeta) : Bytes :=
  littleEndian 4 (BitVec.ofInt 32 file.level).toNat ++ (littleEndian 8 file.fileSizeBytes ++
    (littleEndian 8 file.sequenceNumber ++ (encodeString file.smallestKey ++ (encodeString file.largestKey ++
      encodeString file.filepath))))

theorem foldl_writeMeta (files : List SSTableMeta) (buffer : Bytes) :
    files.foldl writeMeta buffer = buffer ++ files.flatMap encodeMeta := by
  induction files generalizing buffer with
  | nil => simp
  | cons file files ih =>
    rw [List.foldl_cons, ih]
    simp [writeMeta, writeUint32, writeUint64, writeString, encodeMeta, encodeString]

theorem serializeCheckpoint_eq (checkpoint : Checkpoint) :
    serializeCheckpoint checkpoint = littleEndian 8 checkpoint.lastFlushedLsn ++
      (littleEndian 4 checkpoint.sstables.length ++ checkpoint.sstables.flatMap encodeMeta) := by
  simp [serializeCheckpoint, foldl_writeMeta, writeUint32, writeUint64]

theorem castInt_ofInt {level : Int} (range : -2 ^ 31 ≤ level ∧ level < 2 ^ 31) :
    castInt (BitVec.ofInt 32 level).toNat = level := by
  rw [castInt, BitVec.ofNat_toNat, BitVec.setWidth_eq, BitVec.toInt_ofInt]
  exact Int.bmod_eq_of_le (by simpa using range.1) (by simpa using range.2)

theorem reads_readMeta {file : SSTableMeta} (fits : MetaFits file) : readMeta.Reads (encodeMeta file) file := by
  have level : (BitVec.ofInt 32 file.level).toNat < 256 ^ 4 := BitVec.isLt _
  apply (reads_readUint level).bind
  apply (reads_readUint fits.fileSizeBytes).bind
  apply (reads_readUint fits.sequenceNumber).bind
  apply (reads_readString fits.smallestKey).bind
  apply (reads_readString fits.largestKey).bind
  rw [castInt_ofInt fits.level]
  exact (reads_readString fits.filepath).bind_pure _

theorem reads_readMetas (files known : List SSTableMeta) (fits : ∀ file ∈ files, MetaFits file) :
    (readMetas files.length known).Reads (files.flatMap encodeMeta) (known ++ files) := by
  induction files generalizing known with
  | nil =>
    rw [List.append_nil]
    exact reads_pure known
  | cons file files ih =>
    have later := ih (known ++ [file]) fun other member => fits other (by simp [member])
    rw [List.append_assoc] at later
    exact (reads_readMeta (fits file (by simp))).bind later

theorem reads_parseCheckpoint {checkpoint : Checkpoint} (fits : CheckpointFits checkpoint) :
    parseCheckpoint.Reads (serializeCheckpoint checkpoint) checkpoint := by
  rw [serializeCheckpoint_eq]
  apply (reads_readUint fits.lastFlushedLsn).bind
  apply (reads_readUint fits.count).bind
  exact (reads_readMetas checkpoint.sstables [] fits.files).bind_pure _

theorem guarded_readMeta {room : Nat} : readMeta.Guarded reach room fun _ _ => True := by
  apply guarded_readUint32.bind
  intro _ _ _
  apply guarded_readUint64.bind
  intro _ _ _
  apply guarded_readUint64.bind
  intro _ _ _
  apply guarded_readString.bind
  intro _ _ _
  apply guarded_readString.bind
  intro _ _ _
  apply guarded_readString.bind
  intro _ _ _
  exact guarded_pure _ trivial

theorem guarded_readMetas (numFiles : Nat) {room : Nat} (known : List SSTableMeta) :
    (readMetas numFiles known).Guarded reach room fun _ _ => True := by
  induction numFiles generalizing room known with
  | zero => exact guarded_pure _ trivial
  | succ numFiles ih =>
    apply guarded_readMeta.bind
    intro file _ _
    exact ih _

theorem guarded_parseCheckpoint : parseCheckpoint.Guarded reach 0 fun _ _ => True := by
  apply guarded_readUint64.bind
  intro _ _ _
  apply guarded_readUint32.bind
  intro numFiles _ _
  apply (guarded_readMetas numFiles []).bind
  intro _ _ _
  exact guarded_pure _ trivial

theorem loadBytes_serialize {checkpoint : Checkpoint} (fits : CheckpointFits checkpoint) :
    loadBytes (some (serializeCheckpoint checkpoint)) = .ok checkpoint := by
  rw [loadBytes, (reads_parseCheckpoint fits).eval_eq]
  rfl

theorem loadBytes_truncated {checkpoint : Checkpoint} (fits : CheckpointFits checkpoint) {bytes : Bytes}
    (initial : bytes <+: serializeCheckpoint checkpoint) (cut : bytes ≠ serializeCheckpoint checkpoint) :
    ∃ e, loadBytes (some bytes) = .error e := by
  obtain ⟨e, refused⟩ := (reads_parseCheckpoint fits).truncated guarded_parseCheckpoint [] initial cut
  refine ⟨e, ?_⟩
  rw [List.nil_append, List.length_nil] at refused
  rw [loadBytes, refused]
  rfl

theorem checkpoint_format_lossless (checkpoint : Checkpoint) (fits : CheckpointFits checkpoint) :
    loadBytes (some (serializeCheckpoint checkpoint)) = .ok checkpoint ∧
      ∀ bytes, bytes <+: serializeCheckpoint checkpoint → bytes ≠ serializeCheckpoint checkpoint →
        ∃ e, loadBytes (some bytes) = .error e :=
  ⟨loadBytes_serialize fits, fun _ => loadBytes_truncated fits⟩

theorem checkpoint_format_lossless_one_file :
    let checkpoint : Checkpoint := ⟨7, [⟨text "a.sst", -1, [97], [98], 40, 3⟩]⟩
    loadBytes (some (serializeCheckpoint checkpoint)) = .ok checkpoint ∧
      ∃ e, loadBytes (some ((serializeCheckpoint checkpoint).take 20)) = .error e := by
  have fits : CheckpointFits ⟨7, [⟨text "a.sst", -1, [97], [98], 40, 3⟩]⟩ := by
    refine ⟨by decide, by decide, ?_⟩
    intro file member
    obtain rfl := List.mem_singleton.mp member
    exact ⟨by decide, by decide, by decide, by decide, by decide, by decide⟩
  obtain ⟨loads, refuses⟩ := checkpoint_format_lossless _ fits
  exact ⟨loads, refuses _ (List.take_prefix _ _) (by decide)⟩

def Stored (bytes : Bytes) : CheckpointFile → Prop
  | .complete checkpoint => CheckpointFits checkpoint ∧ bytes = serializeCheckpoint checkpoint
  | .torn => ∃ checkpoint, CheckpointFits checkpoint ∧ bytes <+: serializeCheckpoint checkpoint ∧
      bytes ≠ serializeCheckpoint checkpoint

theorem loadCheckpoint_stored {file : CheckpointFile} {bytes : Bytes} (stored : Stored bytes file)
    (temp : Option CheckpointFile) (checkpoint : Checkpoint) :
    loadCheckpoint ⟨some file, temp⟩ = .ok checkpoint ↔ loadBytes (some bytes) = .ok checkpoint := by
  cases file with
  | complete held =>
    obtain ⟨fits, rfl⟩ := stored
    rw [loadBytes_serialize fits]
    rfl
  | torn =>
    obtain ⟨held, fits, initial, cut⟩ := stored
    obtain ⟨e, refused⟩ := loadBytes_truncated fits initial cut
    rw [refused]
    exact iff_of_false nofun nofun

end VectorDb.Storage.CheckpointManager
