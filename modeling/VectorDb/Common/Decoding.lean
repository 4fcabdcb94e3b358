import VectorDb.Common.BinarySerializer
import VectorDb.Lib.Decoder

namespace VectorDb.Common.Decoding
open Lib BinarySerializer Decoder

abbrev BufferDecoder := Decoder Byte Status

def readUint (width : Nat) : BufferDecoder Nat := do
  require width overflow
  let bytes ← take width
  return ofLittleEndian bytes

def readUint32 : BufferDecoder Nat := readUint 4

def readUint64 : BufferDecoder Nat := readUint 8

def readString : BufferDecoder Bytes := do
  let length ← readUint32
  require length overflow
  take length

def readFloatVector : BufferDecoder (List Nat) := do
  let length ← readUint32
  require (length * 4) overflow
  let bytes ← take (length * 4)
  return floatWords length bytes

/-- The longest length a field can declare. -/
def reach : Nat := 2 ^ 32

theorem eval_require_bind {α : Type} (required : Nat) (e : Status) (f : Unit → BufferDecoder α) (buffer : Bytes)
    (offset : Nat) : (require required e >>= f).eval buffer offset =
      if offset + required > buffer.length then .error e else (f ()).eval buffer offset := rfl

theorem eval_take_bind {α : Type} (width : Nat) (f : Bytes → BufferDecoder α) (buffer : Bytes) (offset : Nat) :
    (take width >>= f).eval buffer offset = (f ((buffer.drop offset).take width)).eval buffer (offset + width) := rfl

theorem map_eval_bind {α γ : Type} (d : BufferDecoder α) (f : α → BufferDecoder γ) (buffer : Bytes) (offset : Nat) :
    ((d >>= f).eval buffer offset).map Prod.fst =
      d.eval buffer offset >>= fun read => ((f read.1).eval buffer read.2).map Prod.fst := by
  rw [eval_bind]
  cases d.eval buffer offset <;> rfl

theorem eval_readUint (width : Nat) (buffer : Bytes) (offset : Nat) :
    (readUint width).eval buffer offset = BinarySerializer.readUint width buffer offset := by
  simp only [readUint, eval_bind, eval_require, BinarySerializer.readUint]
  split <;> rfl

theorem readUint_inside {width offset value next : Nat} {buffer : Bytes}
    (read : BinarySerializer.readUint width buffer offset = .ok (value, next)) :
    next = offset + width ∧ next ≤ buffer.length := by
  rw [BinarySerializer.readUint] at read
  split at read
  next => cases read
  next inside =>
    cases read
    exact ⟨rfl, not_lt.mp inside⟩

theorem eval_readString (buffer : Bytes) (offset : Nat) :
    readString.eval buffer offset = BinarySerializer.readString buffer offset := by
  simp only [readString, readUint32, eval_bind, eval_readUint, eval_require, BinarySerializer.readString,
    BinarySerializer.readUint32]
  cases BinarySerializer.readUint 4 buffer offset with
  | error e => rfl
  | ok read =>
    by_cases short : read.2 + read.1 > buffer.length <;> simp [short, bind, Except.bind, eval_take]

theorem eval_readFloatVector (buffer : Bytes) (offset : Nat) :
    readFloatVector.eval buffer offset = BinarySerializer.readFloatVector buffer offset := by
  simp only [readFloatVector, readUint32, eval_bind, eval_readUint, eval_require, BinarySerializer.readFloatVector,
    BinarySerializer.readUint32]
  cases BinarySerializer.readUint 4 buffer offset with
  | error e => rfl
  | ok read =>
    by_cases short : read.2 + read.1 * 4 > buffer.length <;> simp [short, bind, Except.bind, eval_take]

theorem reads_readUint {width value : Nat} (fits : value < 256 ^ width) :
    (readUint width).Reads (littleEndian width value) value := by
  intro front back
  have here : BytesAt (front ++ (littleEndian width value ++ back)) front.length (littleEndian width value ++ back) :=
    ⟨front, rfl, rfl⟩
  rw [eval_readUint, here.readUint_eq.1, Nat.mod_eq_of_lt fits, littleEndian_length]

theorem reads_bytes (e : Status) (value : Bytes) :
    (do require value.length e; take value.length : BufferDecoder Bytes).Reads value value := by
  intro front back
  have here : BytesAt (front ++ (value ++ back)) front.length (value ++ back) := ⟨front, rfl, rfl⟩
  rw [eval_bind, eval_require, if_neg (not_lt.mpr here.inside)]
  simp only [bind, Except.bind, eval_take, here.slice]

theorem reads_readString {value : Bytes} (fits : value.length < 2 ^ 32) :
    readString.Reads (littleEndian 4 value.length ++ value) value :=
  (reads_readUint fits).bind (reads_bytes overflow value)

theorem reads_readFloatVector {vec : List Nat} (short : vec.length < 2 ^ 32) (fits : ∀ word ∈ vec, word < 2 ^ 32) :
    readFloatVector.Reads (littleEndian 4 vec.length ++ vec.flatMap (littleEndian 4)) vec := by
  have copied := (reads_bytes overflow (vec.flatMap (littleEndian 4))).bind_pure (floatWords vec.length)
  rw [length_words, floatWords_words fits] at copied
  exact (reads_readUint short).bind copied

theorem guarded_require {required room : Nat} (e : Status) (within : required ≤ reach) :
    (require required e : BufferDecoder Unit).Guarded reach room fun _ room => required ≤ room :=
  ⟨within, le_max_right _ _⟩

theorem guarded_take {width room : Nat} (roomy : width ≤ room) :
    (take width : BufferDecoder Bytes).Guarded reach room fun bytes _ => bytes.length = width :=
  ⟨roomy, fun _ length => length⟩

theorem guarded_readUint {width room : Nat} (within : width ≤ reach) :
    (readUint width).Guarded reach room fun value _ => value < 256 ^ width := by
  apply (guarded_require overflow within).bind
  intro _ room roomy
  apply (guarded_take roomy).bind
  intro bytes _ length
  rw [← length]
  exact guarded_pure _ (ofLittleEndian_lt bytes)

theorem guarded_readUint32 {room : Nat} : readUint32.Guarded reach room fun value _ => value ≤ reach :=
  (guarded_readUint (by decide)).weaken fun _ _ small => small.le

theorem guarded_readUint64 {room : Nat} : readUint64.Guarded reach room fun _ _ => True :=
  (guarded_readUint (by decide)).weaken fun _ _ _ => trivial

theorem guarded_bytes {length room : Nat} (e : Status) (within : length ≤ reach) :
    (do require length e; take length : BufferDecoder Bytes).Guarded reach room fun bytes _ => bytes.length = length := by
  apply (guarded_require e within).bind
  intro _ room roomy
  exact guarded_take roomy

theorem guarded_readString {room : Nat} : readString.Guarded reach room fun _ _ => True := by
  apply guarded_readUint32.bind
  intro length room within
  exact (guarded_bytes overflow within).weaken fun _ _ _ => trivial

theorem guarded_readFloatVector {room : Nat} : readFloatVector.Guarded (reach * 4) room fun _ _ => True := by
  apply (guarded_readUint32.wider (by decide)).bind
  intro length room within
  refine ⟨Nat.mul_le_mul_right 4 within, ?_⟩
  exact ⟨le_max_right _ _, fun _ _ => trivial⟩

theorem consumes_require (required : Nat) (e : Status) : (require required e : BufferDecoder Unit).Consumes 0 := by
  intro buffer offset _ finish ok
  rw [eval_require] at ok
  split at ok
  next => cases ok
  next =>
    cases ok
    exact le_rfl

theorem consumes_take (width : Nat) : (take width : BufferDecoder Bytes).Consumes width := by
  intro buffer offset bytes finish ok
  cases ok
  exact le_rfl

theorem consumes_readUint (width : Nat) : (readUint width).Consumes width := by
  intro buffer offset value finish ok
  rw [eval_readUint, BinarySerializer.readUint] at ok
  split at ok
  next => cases ok
  next =>
    cases ok
    exact le_rfl

theorem consumes_readString : readString.Consumes 4 := by
  apply (consumes_readUint 4).bind
  intro length
  apply (consumes_require length overflow).bind
  intro _
  exact (consumes_take length).weaken (by omega)

end VectorDb.Common.Decoding
