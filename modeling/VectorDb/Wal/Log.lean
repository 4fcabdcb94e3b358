import VectorDb.Wal.Record

namespace VectorDb.Storage
open Lib Common BinarySerializer

/-- The bound `ReadAll` puts on a payload. `Open` scans the same file without one. -/
def kMaxPayload : Nat := 64 * 1024 * 1024

/-- One pass of the reading loops of `Open` and `ReadAll`: the entry and the bytes it takes, or
`none` where the loop breaks. -/
def readRecord (limit : Option Nat) (rest : Bytes) : Option (WALEntry × Nat) := do
  let headerBuf := rest.take kWALHeaderSize
  guard ¬ headerBuf.length < kWALHeaderSize
  let (payloadLen, hdrOffset) ← (readUint32 headerBuf 0).toOption
  let (expectedCrc, _) ← (readUint32 headerBuf hdrOffset).toOption
  guard ¬ limit.any (payloadLen > ·)
  let payload := (rest.drop kWALHeaderSize).take payloadLen
  guard ¬ payload.length < payloadLen
  guard ((computeCRC32 payload).toNat = expectedCrc)
  let entry ← (deserializeEntry payload).toOption
  return (entry, kWALHeaderSize + payloadLen)

def scanFrom (limit : Option Nat) : Nat → Bytes → List WALEntry
  | 0, _ => []
  | fuel + 1, rest =>
    match readRecord limit rest with
    | none => []
    | some (entry, size) => entry :: scanFrom limit fuel (rest.drop size)

/-- The reading loop. A record takes at least the header, so the file's length is enough fuel. -/
def scan (limit : Option Nat) (file : Bytes) : List WALEntry := scanFrom limit file.length file

/-- How the file buffer answers one call of the stream: how many pending bytes it passes on to the
file, and whether the call succeeds. -/
structure Reply where
  passed : Nat
  ok : Bool

structure Device where
  write : Bytes → Bytes → Reply
  flush : Bytes → Bytes → Reply

/-- The largest `std::streamoff`. -/
def maxFileSize : Nat := 2 ^ 63 - 1

/-- A device that refuses only what would take the file past its largest size. -/
def Device.faultless : Device where
  write file pending := ⟨0, decide (file.length + pending.length ≤ maxFileSize)⟩
  flush _ _ := ⟨0, true⟩

structure OutputStream where
  good : Bool
  pending : Bytes

namespace OutputStream

def write (device : Device) (stream : OutputStream) (file bytes : Bytes) : OutputStream × Bytes :=
  if stream.good then
    let pending := stream.pending ++ bytes
    let reply := device.write file pending
    (⟨reply.ok, pending.drop reply.passed⟩, file ++ pending.take reply.passed)
  else (stream, file)

def flush (device : Device) (stream : OutputStream) (file : Bytes) : OutputStream × Bytes :=
  if stream.good then
    let reply := device.flush file stream.pending
    if reply.ok then (⟨true, []⟩, file ++ stream.pending)
    else (⟨false, stream.pending.drop reply.passed⟩, file ++ stream.pending.take reply.passed)
  else (stream, file)

end OutputStream

structure WAL where
  writeFile : OutputStream
  nextSequenceNumber : Nat

namespace WAL

def nextAfter (nextSeq : Nat) (entry : WALEntry) : Nat :=
  if entry.sequenceNumber ≥ nextSeq then (entry.sequenceNumber + 1) % 2 ^ 64 else nextSeq

/-- `WAL::Open` on the file's bytes, if there is a file. It leaves the bytes as they are. -/
def «open» (file : Option Bytes) : WAL where
  writeFile := ⟨true, []⟩
  nextSequenceNumber := (file.elim [] (scan none)).foldl nextAfter 1

def append (device : Device) (wal : WAL) (file : Bytes) (entry : WALEntry) : ErrorOr Nat × WAL × Bytes :=
  let stamped := { entry with sequenceNumber := wal.nextSequenceNumber }
  let next := (wal.nextSequenceNumber + 1) % 2 ^ 64
  let (stream, file) := wal.writeFile.write device file (serializeEntry stamped)
  if ¬ stream.good then (.error (ioError "WAL write failed"), ⟨stream, next⟩, file)
  else
    let (stream, file) := stream.flush device file
    (.ok stamped.sequenceNumber, ⟨stream, next⟩, file)

def readAll (file : Bytes) : List WALEntry := scan (some kMaxPayload) file

def currentSequenceNumber (wal : WAL) : Nat := (wal.nextSequenceNumber + (2 ^ 64 - 1)) % 2 ^ 64

end WAL

theorem guard_bind {α : Type} (p : Prop) [Decidable p] (f : Unit → Option α) :
    (guard p >>= f) = if p then f () else none := by
  by_cases h : p <;> simp [h]

theorem readRecord_some {limit : Option Nat} {rest : Bytes} {entry : WALEntry} {size : Nat}
    (read : readRecord limit rest = some (entry, size)) :
    size ≤ rest.length ∧ ∃ payloadLen hdrOffset,
      readUint32 (rest.take kWALHeaderSize) 0 = .ok (payloadLen, hdrOffset) ∧
        size = kWALHeaderSize + payloadLen := by
  simp only [readRecord, guard_bind, Option.ite_none_right_eq_some, Option.bind_eq_bind,
    Option.bind_eq_some_iff] at read
  obtain ⟨header, ⟨payloadLen, hdrOffset⟩, lengthRead, _, -, -, whole, -, _, -, result⟩ := read
  simp only [Option.pure_def, Option.some.injEq, Prod.mk.injEq] at result
  obtain ⟨-, rfl⟩ := result
  refine ⟨?_, payloadLen, hdrOffset, ?_, rfl⟩
  · simp [kWALHeaderSize] at header whole ⊢
    omega
  · cases reading : readUint32 (rest.take kWALHeaderSize) 0 <;> simp_all [Except.toOption]

def recordHeader (payload : Bytes) : Bytes :=
  writeUint32 (writeUint32 [] payload.length) (computeCRC32 payload).toNat

theorem recordHeader_length (payload : Bytes) : (recordHeader payload).length = kWALHeaderSize := by
  simp [recordHeader, writeUint32, kWALHeaderSize]

theorem serializeEntry_eq (entry : WALEntry) :
    serializeEntry entry = recordHeader (serializePayload entry) ++ serializePayload entry := rfl

private theorem header_reads (payload back : Bytes) (fits : payload.length < 2 ^ 32) :
    let header := (recordHeader payload ++ back).take kWALHeaderSize
    header.length = kWALHeaderSize ∧ readUint32 header 0 = .ok (payload.length, 4) ∧
      readUint32 header 4 = .ok ((computeCRC32 payload).toNat, 8) ∧
      (recordHeader payload ++ back).drop kWALHeaderSize = back := by
  intro header
  have headerEq : header = recordHeader payload := List.take_left' (recordHeader_length payload)
  have start : BytesAt header 0 (littleEndian 4 payload.length ++
      (littleEndian 4 (computeCRC32 payload).toNat ++ [])) :=
    BytesAt.start (by simp [headerEq, recordHeader, writeUint32])
  obtain ⟨lengthRead, atCrc⟩ := start.readUint32_eq fits
  exact ⟨by rw [headerEq, recordHeader_length], lengthRead, (atCrc.readUint32_eq (BitVec.isLt _)).1,
    List.drop_left' (recordHeader_length payload)⟩

theorem readRecord_header (limit : Option Nat) {payload body : Bytes} (back : Bytes)
    (fits : payload.length < 2 ^ 32) (within : ∀ bound ∈ limit, payload.length ≤ bound)
    (sameLength : body.length = payload.length) :
    readRecord limit (recordHeader payload ++ (body ++ back)) =
      if computeCRC32 body = computeCRC32 payload then
        (deserializeEntry body).toOption.map (·, kWALHeaderSize + payload.length) else none := by
  obtain ⟨size, lengthRead, crcRead, rest⟩ := header_reads payload (body ++ back) fits
  have inLimit : limit.any (payload.length > ·) = false := by
    cases limit with
    | none => rfl
    | some bound => simpa using within bound rfl
  by_cases intact : computeCRC32 body = computeCRC32 payload
  · cases parsed : deserializeEntry body <;>
      simp [readRecord, size, lengthRead, crcRead, rest, inLimit, sameLength, Except.toOption,
        List.take_left' sameLength, intact, parsed]
  · simp [readRecord, size, lengthRead, crcRead, rest, inLimit, sameLength, Except.toOption,
      List.take_left' sameLength, intact, BitVec.toNat_inj]

theorem readRecord_serializeEntry (limit : Option Nat) (m : Mutation) (lsn : Nat) (back : Bytes)
    (lsnFits : lsn < 2 ^ 64) (fits : m.payloadSize < 2 ^ 32) (within : ∀ bound ∈ limit, m.payloadSize ≤ bound) :
    readRecord limit (serializeEntry (m.entry lsn) ++ back) =
      some (m.entry lsn, kWALHeaderSize + m.payloadSize) := by
  have size := serializePayload_length m lsn
  rw [serializeEntry_eq, List.append_assoc, readRecord_header limit back (by omega) (by rwa [size]) rfl, if_pos rfl,
    deserialize_serialize m lsn lsnFits fits, size]
  rfl

theorem readRecord_torn (limit : Option Nat) (m : Mutation) (lsn kept : Nat) (fits : m.payloadSize < 2 ^ 32)
    (torn : kept < (serializeEntry (m.entry lsn)).length) :
    readRecord limit ((serializeEntry (m.entry lsn)).take kept) = none := by
  rw [Option.eq_none_iff_forall_ne_some]
  rintro ⟨entry, size⟩ read
  obtain ⟨inside, payloadLen, _, lengthRead, rfl⟩ := readRecord_some read
  rw [serializeEntry_length] at torn
  have whole : kWALHeaderSize ≤ kept := by
    simp at inside
    omega
  have size := serializePayload_length m lsn
  obtain ⟨-, headerRead, -⟩ := header_reads (serializePayload (m.entry lsn)) (serializePayload (m.entry lsn)) (by omega)
  rw [List.take_take, min_eq_left whole, serializeEntry_eq, headerRead, size] at lengthRead
  cases lengthRead
  simp [serializeEntry_length] at inside
  omega

theorem readRecord_nil (limit : Option Nat) : readRecord limit [] = none := by
  simp [readRecord, guard_bind, kWALHeaderSize]

private theorem scanFrom_fuel (limit : Option Nat) (fuel : Nat) (rest : Bytes) (enough : rest.length ≤ fuel) :
    scanFrom limit fuel rest = scan limit rest := by
  have agree : ∀ fuel₁ fuel₂ (rest : Bytes), rest.length ≤ fuel₁ → rest.length ≤ fuel₂ →
      scanFrom limit fuel₁ rest = scanFrom limit fuel₂ rest := by
    intro fuel₁
    induction fuel₁ with
    | zero =>
      intro fuel₂ rest none₁ _
      obtain rfl : rest = [] := by simpa using none₁
      cases fuel₂ <;> simp [scanFrom, readRecord_nil]
    | succ fuel₁ ih =>
      intro fuel₂ rest enough₁ enough₂
      cases fuel₂ with
      | zero =>
        obtain rfl : rest = [] := by simpa using enough₂
        simp [scanFrom, readRecord_nil]
      | succ fuel₂ =>
        simp only [scanFrom]
        cases read : readRecord limit rest with
        | none => rfl
        | some result =>
          obtain ⟨entry, size⟩ := result
          obtain ⟨_, _, _, _, rfl⟩ := readRecord_some read
          simp only [kWALHeaderSize]
          rw [ih fuel₂ _ (by simp; omega) (by simp; omega)]
  exact agree fuel rest.length rest enough le_rfl

theorem scan_cons {limit : Option Nat} {file : Bytes} {entry : WALEntry} {size : Nat}
    (read : readRecord limit file = some (entry, size)) :
    scan limit file = entry :: scan limit (file.drop size) := by
  obtain ⟨inside, _, _, _, rfl⟩ := readRecord_some read
  cases file with
  | nil => simp [kWALHeaderSize] at inside
  | cons byte rest =>
    rw [scan, List.length_cons, scanFrom, read]
    simp only [kWALHeaderSize]
    rw [scanFrom_fuel _ _ _ (by simp; omega)]

theorem scan_stop {limit : Option Nat} {file : Bytes} (read : readRecord limit file = none) :
    scan limit file = [] := by
  cases file with
  | nil => rfl
  | cons byte rest => rw [scan, List.length_cons, scanFrom, read]

theorem readRecord_append {limit : Option Nat} {rest : Bytes} {record : WALEntry × Nat} (more : Bytes)
    (read : readRecord limit rest = some record) : readRecord limit (rest ++ more) = some record := by
  obtain ⟨entry, size⟩ := record
  obtain ⟨inside, payloadLen, hdrOffset, lengthRead, rfl⟩ := readRecord_some read
  have header : (rest ++ more).take kWALHeaderSize = rest.take kWALHeaderSize :=
    List.take_append_of_le_length (by omega)
  have payload : ((rest ++ more).drop kWALHeaderSize).take payloadLen =
      (rest.drop kWALHeaderSize).take payloadLen := by
    rw [List.drop_append_of_le_length (by omega), List.take_append_of_le_length (by simp; omega)]
  rw [← read]
  simp only [readRecord, header, lengthRead, Except.toOption, Option.bind_eq_bind, Option.bind_some, payload]

theorem scan_initial (limit : Option Nat) (file more : Bytes) : scan limit file <+: scan limit (file ++ more) := by
  induction length : file.length using Nat.strongRecOn generalizing file with
  | ind n ih =>
    cases read : readRecord limit file with
    | none =>
      rw [scan_stop read]
      exact List.nil_prefix
    | some record =>
      obtain ⟨entry, size⟩ := record
      obtain ⟨inside, payloadLen, -, -, rfl⟩ := readRecord_some read
      rw [scan_cons read, scan_cons (readRecord_append more read), List.drop_append_of_le_length inside]
      refine List.cons_prefix_cons.mpr ⟨rfl, ih _ ?_ _ rfl⟩
      simp [kWALHeaderSize] at inside ⊢
      omega

end VectorDb.Storage
