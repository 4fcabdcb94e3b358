import VectorDb.Common.Status

namespace VectorDb.Common.BinarySerializer
open Lib

def writeUint32 (buffer : Bytes) (value : Nat) : Bytes := buffer ++ littleEndian 4 value

def writeUint64 (buffer : Bytes) (value : Nat) : Bytes := buffer ++ littleEndian 8 value

def writeString (buffer value : Bytes) : Bytes := writeUint32 buffer value.length ++ value

/-- A `float` is the 32-bit word its bytes make. -/
def writeFloat (buffer : Bytes) (value : Nat) : Bytes := buffer ++ littleEndian 4 value

def writeFloatVector (buffer : Bytes) (vec : List Nat) : Bytes :=
  writeUint32 buffer vec.length ++ vec.flatMap (littleEndian 4)

def overflow : Status := corruption "BinarySerializer: Buffer overflow/underflow detected"

/-- `CHECK_BOUNDS` followed by the copy of `width` bytes at the offset. -/
def readUint (width : Nat) (buffer : Bytes) (offset : Nat) : ErrorOr (Nat × Nat) :=
  if offset + width > buffer.length then .error overflow
  else .ok (ofLittleEndian ((buffer.drop offset).take width), offset + width)

def readUint32 : Bytes → Nat → ErrorOr (Nat × Nat) := readUint 4

def readUint64 : Bytes → Nat → ErrorOr (Nat × Nat) := readUint 8

def readString (buffer : Bytes) (offset : Nat) : ErrorOr (Bytes × Nat) := do
  let (length, offset) ← readUint32 buffer offset
  if offset + length > buffer.length then .error overflow
  else .ok ((buffer.drop offset).take length, offset + length)

def readFloat : Bytes → Nat → ErrorOr (Nat × Nat) := readUint 4

def floatWords : Nat → Bytes → List Nat
  | 0, _ => []
  | length + 1, bytes => ofLittleEndian (bytes.take 4) :: floatWords length (bytes.drop 4)

def readFloatVector (buffer : Bytes) (offset : Nat) : ErrorOr (List Nat × Nat) := do
  let (length, offset) ← readUint32 buffer offset
  let bytes := length * 4
  if offset + bytes > buffer.length then .error overflow
  else .ok (floatWords length ((buffer.drop offset).take bytes), offset + bytes)

theorem length_words (vec : List Nat) : (vec.flatMap (littleEndian 4)).length = vec.length * 4 := by
  induction vec with
  | nil => rfl
  | cons word vec ih => rw [List.flatMap_cons, List.length_append, ih, littleEndian_length, List.length_cons]; omega

theorem floatWords_words {vec : List Nat} (fits : ∀ word ∈ vec, word < 2 ^ 32) :
    floatWords vec.length (vec.flatMap (littleEndian 4)) = vec := by
  induction vec with
  | nil => rfl
  | cons word vec ih =>
    have small : word < 256 ^ 4 := fits word (by simp)
    rw [List.flatMap_cons, List.length_cons, floatWords, List.take_left' (littleEndian_length 4 word),
      List.drop_left' (littleEndian_length 4 word), ofLittleEndian_littleEndian, Nat.mod_eq_of_lt small,
      ih fun other member => fits other (by simp [member])]

def BytesAt (buffer : Bytes) (offset : Nat) (rest : Bytes) : Prop :=
  ∃ front, buffer = front ++ rest ∧ front.length = offset

namespace BytesAt

variable {buffer middle back : Bytes} {offset : Nat}

theorem start {bytes : Bytes} (shape : buffer = bytes) : BytesAt buffer 0 bytes := ⟨[], shape, rfl⟩

theorem skip (here : BytesAt buffer offset (middle ++ back)) :
    BytesAt buffer (offset + middle.length) back := by
  obtain ⟨front, rfl, rfl⟩ := here
  exact ⟨front ++ middle, by simp, by simp⟩

theorem inside (here : BytesAt buffer offset (middle ++ back)) : offset + middle.length ≤ buffer.length := by
  obtain ⟨front, rfl, rfl⟩ := here
  simp

theorem slice (here : BytesAt buffer offset (middle ++ back)) :
    (buffer.drop offset).take middle.length = middle := by
  obtain ⟨front, rfl, rfl⟩ := here
  simp

theorem readUint_eq {width value : Nat} (here : BytesAt buffer offset (littleEndian width value ++ back)) :
    readUint width buffer offset = .ok (value % 256 ^ width, offset + width) ∧
      BytesAt buffer (offset + width) back := by
  have size := here.inside
  have bytes := here.slice
  have next := here.skip
  rw [littleEndian_length] at size bytes next
  rw [readUint, if_neg (by omega), bytes, ofLittleEndian_littleEndian]
  exact ⟨rfl, next⟩

theorem readUint32_eq {value : Nat} (here : BytesAt buffer offset (littleEndian 4 value ++ back))
    (fits : value < 2 ^ 32) :
    readUint32 buffer offset = .ok (value, offset + 4) ∧ BytesAt buffer (offset + 4) back := by
  obtain ⟨read, next⟩ := here.readUint_eq
  rw [Nat.mod_eq_of_lt (by omega)] at read
  exact ⟨read, next⟩

theorem readUint64_eq {value : Nat} (here : BytesAt buffer offset (littleEndian 8 value ++ back))
    (fits : value < 2 ^ 64) :
    readUint64 buffer offset = .ok (value, offset + 8) ∧ BytesAt buffer (offset + 8) back := by
  obtain ⟨read, next⟩ := here.readUint_eq
  rw [Nat.mod_eq_of_lt (by omega)] at read
  exact ⟨read, next⟩

end BytesAt

end VectorDb.Common.BinarySerializer
