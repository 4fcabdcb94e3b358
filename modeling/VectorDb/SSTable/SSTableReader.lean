import VectorDb.SSTable.SSTableWriter

namespace VectorDb.Storage
open Lib Common BinarySerializer

/-- An open table: the bytes at its path, and what `Open` keeps in memory. -/
structure SSTableReader where
  file : Bytes
  bloom : BloomFilter
  index : List IndexEntry
  numEntries : Nat

namespace SSTableReader

/-- The bytes `seekg` and `read` give. The offset is cast to a signed `streamoff`, and a seek to a
negative one fails. -/
def readBytes (file : Bytes) (offset size : Nat) : Bytes :=
  if offset < 2 ^ 63 then (file.drop offset).take size else []

/-- `seekg` and `read`, with the stream still good after them. -/
def readAt (file : Bytes) (offset size : Nat) : Option Bytes :=
  let bytes := readBytes file offset size
  if offset < 2 ^ 63 ∧ bytes.length = size then some bytes else none

structure Footer where
  bloomOffset : Nat
  bloomSize : Nat
  indexOffset : Nat
  indexSize : Nat
  numEntries : Nat
  magic : Nat

def readFooter (footerBuf : Bytes) : ErrorOr Footer := do
  let (bloomOffset, offset) ← readUint64 footerBuf 0
  let (bloomSize, offset) ← readUint64 footerBuf offset
  let (indexOffset, offset) ← readUint64 footerBuf offset
  let (indexSize, offset) ← readUint64 footerBuf offset
  let (numEntries, offset) ← readUint64 footerBuf offset
  let (magic, _) ← readUint64 footerBuf offset
  return ⟨bloomOffset, bloomSize, indexOffset, indexSize, numEntries, magic⟩

def readBloom (bloomBuf : Bytes) : ErrorOr BloomFilter := do
  let (numBits, offset) ← readUint32 bloomBuf 0
  let (numHashFns, offset) ← readUint32 bloomBuf offset
  return ⟨bloomBuf.drop offset, numBits, castInt numHashFns⟩

def readIndexEntry (indexBuf : Bytes) (offset : Nat) : ErrorOr (IndexEntry × Nat) := do
  let (keyLen, offset) ← readUint32 indexBuf offset
  if offset + keyLen > indexBuf.length then throw (corruption "Index key extends past block")
  let lastKey := (indexBuf.drop offset).take keyLen
  let (blockOffset, offset) ← readUint64 indexBuf (offset + keyLen)
  let (blockSize, offset) ← readUint32 indexBuf offset
  return (⟨lastKey, blockOffset, blockSize⟩, offset)

def readIndexEntries (indexBuf : Bytes) : Nat → Nat → ErrorOr (List IndexEntry)
  | 0, _ => .ok []
  | count + 1, offset => do
    let (entry, offset) ← readIndexEntry indexBuf offset
    let rest ← readIndexEntries indexBuf count offset
    return entry :: rest

def readIndex (indexBuf : Bytes) : ErrorOr (List IndexEntry) := do
  let (numIndexEntries, offset) ← readUint32 indexBuf 0
  readIndexEntries indexBuf numIndexEntries offset

def «open» (filepath : Bytes) (file : Option Bytes) : ErrorOr SSTableReader := do
  let some file := file | .error ⟨.kStorageIoError, text "SSTable file not found: " ++ filepath⟩
  if file.length < SSTableWriter.kFooterSize then
    throw ⟨.kStorageCorruption, text "SSTable too small for footer: " ++ filepath⟩
  let footer ← readFooter (file.drop (file.length - SSTableWriter.kFooterSize))
  if footer.magic ≠ SSTableWriter.kMagicNumber then
    throw ⟨.kStorageCorruption, text "Invalid SSTable magic number: " ++ filepath⟩
  let some bloomBuf := readAt file footer.bloomOffset footer.bloomSize
    | .error (corruption "Failed to read bloom filter block")
  let bloom ← readBloom bloomBuf
  let some indexBuf := readAt file footer.indexOffset footer.indexSize
    | .error (corruption "Failed to read index block")
  let index ← readIndex indexBuf
  return ⟨file, bloom, index, footer.numEntries⟩

def readBlock (reader : SSTableReader) (idx : IndexEntry) : ErrorOr Block :=
  let blockData := readBytes reader.file idx.blockOffset idx.blockSize
  if blockData.length < idx.blockSize then .error (corruption "Incomplete block read")
  else Block.deserialize blockData

def candidate (reader : SSTableReader) (key : Bytes) : Int :=
  lowerBound reader.index (fun idx => decide (idx.lastKey ≥ key)) reader.index.length 0
    (castInt reader.index.length - 1) (-1)

def search (reader : SSTableReader) (key : Bytes) : ErrorOr (Option BlockEntry) :=
  match reader.candidate key with
  | .negSucc _ => .ok none
  | .ofNat candidate =>
    match reader.index[candidate]? with
    | none => .ok none
    | some idx => do
      let block ← reader.readBlock idx
      return block.get key

/-- `SSTableReader::Get`. `none` is undefined behaviour in the Bloom filter. -/
def get (reader : SSTableReader) (key : Bytes) : Option (ErrorOr (Option BlockEntry)) := do
  if ← reader.bloom.mayContain key then return reader.search key
  else return .ok none

def readAll (reader : SSTableReader) : ErrorOr (List BlockEntry) := do
  let blocks ← reader.index.mapM reader.readBlock
  return blocks.flatMap Block.entries

end SSTableReader

end VectorDb.Storage
