import VectorDb.Common.BinarySerializer
import VectorDb.Lib.BinarySearch
import VectorDb.SSTable.BlockEntry

namespace VectorDb.Storage
open Lib Common BinarySerializer

def kTargetBlockSize : Nat := 4096

/-- `static_cast<int>` of a size. -/
def castInt (n : Nat) : Int := (BitVec.ofNat 32 n).toInt

structure Block where
  entries : List BlockEntry
  currentSize : Nat
deriving DecidableEq, Repr

namespace Block

def empty : Block := ⟨[], 4⟩

/-- `Block::Add`. `none` is the refusal, which leaves the block as it is. -/
def add (block : Block) (entry : BlockEntry) : Option Block :=
  if block.entries ≠ [] ∧ block.currentSize + entry.encodedSize > kTargetBlockSize then none
  else some ⟨block.entries ++ [entry], block.currentSize + entry.encodedSize⟩

def lastKey (block : Block) : Bytes := (block.entries.getLast?.map BlockEntry.key).getD []

theorem lastKey_mem {block : Block} (nonempty : block.entries ≠ []) :
    ∃ entry ∈ block.entries, entry.key = block.lastKey := by
  refine ⟨block.entries.getLast nonempty, List.getLast_mem nonempty, ?_⟩
  simp [lastKey, List.getLast?_eq_some_getLast nonempty]

def writeEntry (buffer : Bytes) (entry : BlockEntry) : Bytes :=
  let buffer := writeUint32 buffer entry.key.length ++ entry.key
  let buffer := writeUint32 buffer entry.value.length ++ entry.value
  buffer ++ [if entry.isTombstone then 1 else 0]

def serialize (block : Block) : Bytes := block.entries.foldl writeEntry (writeUint32 [] block.entries.length)

def readEntry (data : Bytes) (offset : Nat) : ErrorOr (BlockEntry × Nat) := do
  let (keyLen, offset) ← readUint32 data offset
  if offset + keyLen > data.length then throw (corruption "Block key extends past data")
  let key := (data.drop offset).take keyLen
  let offset := offset + keyLen
  let (valLen, offset) ← readUint32 data offset
  if offset + valLen > data.length then throw (corruption "Block value extends past data")
  let value := (data.drop offset).take valLen
  let offset := offset + valLen
  if offset ≥ data.length then throw (corruption "Block tombstone flag missing")
  return (⟨key, value, data.getD offset 0 ≠ 0⟩, offset + 1)

/-- The entry is moved into the block before its size is taken, so the size is that of an entry
with an empty key and value. -/
def pushMoved (block : Block) (entry : BlockEntry) : Block :=
  ⟨block.entries ++ [entry], block.currentSize + BlockEntry.encodedSize { entry with key := [], value := [] }⟩

def readEntries (data : Bytes) : Nat → Nat → Block → ErrorOr Block
  | 0, _, block => .ok block
  | count + 1, offset, block => do
    let (entry, offset) ← readEntry data offset
    readEntries data count offset (block.pushMoved entry)

def deserialize (data : Bytes) : ErrorOr Block := do
  let (numEntries, offset) ← readUint32 data 0
  readEntries data numEntries offset empty

def get (block : Block) (key : Bytes) : Option BlockEntry :=
  bisect block.entries (fun entry => compare entry.key key) block.entries.length 0
    (castInt block.entries.length - 1)

def encode (entry : BlockEntry) : Bytes :=
  littleEndian 4 entry.key.length ++ (entry.key ++ (littleEndian 4 entry.value.length ++
    (entry.value ++ [if entry.isTombstone then 1 else 0])))

theorem encode_length (entry : BlockEntry) : (encode entry).length = entry.encodedSize := by
  simp [encode, BlockEntry.encodedSize]
  omega

theorem length_le_encode (entries : List BlockEntry) : 9 * entries.length ≤ (entries.flatMap encode).length := by
  induction entries with
  | nil => simp
  | cons entry entries ih =>
    simp only [List.length_cons, List.flatMap_cons, List.length_append, encode_length, BlockEntry.encodedSize]
    omega

theorem foldl_writeEntry (entries : List BlockEntry) (buffer : Bytes) :
    entries.foldl writeEntry buffer = buffer ++ entries.flatMap encode := by
  induction entries generalizing buffer with
  | nil => simp
  | cons entry entries ih =>
    rw [List.foldl_cons, ih]
    simp [writeEntry, writeUint32, encode]

theorem serialize_eq (block : Block) :
    block.serialize = littleEndian 4 block.entries.length ++ block.entries.flatMap encode := by
  simp [serialize, foldl_writeEntry, writeUint32]

theorem length_le_serialize (block : Block) : 9 * block.entries.length ≤ block.serialize.length := by
  rw [serialize_eq, List.length_append]
  exact (length_le_encode _).trans (Nat.le_add_left _ _)

def Fits (entry : BlockEntry) : Prop := entry.key.length < 2 ^ 32 ∧ entry.value.length < 2 ^ 32

instance (entry : BlockEntry) : Decidable (Fits entry) := inferInstanceAs (Decidable (_ ∧ _))

theorem readEntry_eq {data back : Bytes} {offset : Nat} {entry : BlockEntry} (fits : Fits entry)
    (here : BytesAt data offset (encode entry ++ back)) :
    readEntry data offset = .ok (entry, offset + entry.encodedSize) := by
  obtain ⟨key, value, isTombstone⟩ := entry
  simp only [encode, List.append_assoc] at here
  obtain ⟨keyRead, atKey⟩ := here.readUint32_eq fits.1
  obtain ⟨valueRead, atValue⟩ := atKey.skip.readUint32_eq fits.2
  have atFlag := atValue.skip
  have keyInside := not_lt.mpr atKey.inside
  have valueInside := not_lt.mpr atValue.inside
  have flagInside := not_le.mpr (Nat.lt_of_succ_le atFlag.inside)
  have flag : data.getD (offset + 4 + key.length + 4 + value.length) 0 = if isTombstone then 1 else 0 := by
    obtain ⟨front, rfl, size⟩ := atFlag
    rw [← size]
    simp
  have offsets : offset + 4 + key.length + 4 + value.length + 1 =
      offset + (BlockEntry.mk key value isTombstone).encodedSize := by
    simp only [BlockEntry.encodedSize]
    omega
  simp only [readEntry, keyRead, valueRead, atKey.slice, atValue.slice, flag, gt_iff_lt, ge_iff_le, keyInside,
    valueInside, flagInside, if_false, bind, Except.bind, pure, Except.pure, offsets]
  cases isTombstone <;> simp

theorem readEntries_eq {data back : Bytes} {offset : Nat} (entries : List BlockEntry) (block : Block)
    (fits : ∀ entry ∈ entries, Fits entry) (here : BytesAt data offset (entries.flatMap encode ++ back)) :
    readEntries data entries.length offset block = .ok (entries.foldl pushMoved block) := by
  induction entries generalizing offset block with
  | nil => rfl
  | cons entry entries ih =>
    rw [List.flatMap_cons, List.append_assoc] at here
    rw [List.length_cons, readEntries, readEntry_eq (fits entry (by simp)) here]
    have next := here.skip
    rw [encode_length] at next
    exact ih _ (fun other member => fits other (by simp [member])) next

theorem foldl_pushMoved (entries : List BlockEntry) (block : Block) :
    (entries.foldl pushMoved block).entries = block.entries ++ entries := by
  induction entries generalizing block with
  | nil => simp
  | cons entry entries ih => simp [ih, pushMoved]

theorem deserialize_eq (block : Block) (count : block.entries.length < 2 ^ 32)
    (fits : ∀ entry ∈ block.entries, Fits entry) :
    deserialize block.serialize = .ok (block.entries.foldl pushMoved empty) := by
  have start : BytesAt block.serialize 0 _ := BytesAt.start block.serialize_eq
  obtain ⟨countRead, atEntries⟩ := start.readUint32_eq count
  simp only [deserialize, countRead, bind, Except.bind]
  refine readEntries_eq block.entries empty fits (?_ : BytesAt _ _ (_ ++ []))
  simpa using atEntries

theorem deserialize_serialize (block : Block) (count : block.entries.length < 2 ^ 32)
    (fits : ∀ entry ∈ block.entries, Fits entry) :
    ∃ read, deserialize block.serialize = .ok read ∧ read.entries = block.entries :=
  ⟨_, deserialize_eq block count fits, by simp [foldl_pushMoved, empty]⟩

theorem castInt_eq {n : Nat} (small : n < 2 ^ 31) : castInt n = n := by
  simp [castInt, BitVec.toInt_eq_toNat_cond]
  omega

theorem get_eq_find {block : Block} (ascending : Ascending BlockEntry.key block.entries)
    (count : block.entries.length < 2 ^ 31) (key : Bytes) :
    block.get key = find BlockEntry.key block.entries key := by
  rw [get, castInt_eq count]
  exact bisect_eq_find ascending key

end Block

end VectorDb.Storage
