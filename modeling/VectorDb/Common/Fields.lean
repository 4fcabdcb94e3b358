import VectorDb.Common.Decoding

namespace VectorDb.Common
open Lib BinarySerializer

inductive Field where
  | uint32 (value : Nat)
  | uint64 (value : Nat)
  | float (value : Nat)
  | string (value : Bytes)
  | floatVector (vec : List Nat)
deriving DecidableEq, Repr

inductive FieldType where
  | uint32
  | uint64
  | float
  | string
  | floatVector
deriving DecidableEq, Repr

namespace FieldType

def read (buffer : Bytes) (offset : Nat) : FieldType → ErrorOr (Field × Nat)
  | uint32 => (readUint32 buffer offset).map (Prod.map Field.uint32 id)
  | uint64 => (readUint64 buffer offset).map (Prod.map Field.uint64 id)
  | float => (readFloat buffer offset).map (Prod.map Field.float id)
  | string => (readString buffer offset).map (Prod.map Field.string id)
  | floatVector => (readFloatVector buffer offset).map (Prod.map Field.floatVector id)

/-- The values up to the first error, and the offset behind them or the error. -/
def readAll (buffer : Bytes) : List FieldType → Nat → List Field × ErrorOr Nat
  | [], offset => ([], .ok offset)
  | type :: types, offset =>
    match type.read buffer offset with
    | .error e => ([], .error e)
    | .ok (field, offset) =>
      let rest := readAll buffer types offset
      (field :: rest.1, rest.2)

def decoder : FieldType → Decoding.BufferDecoder Field
  | uint32 => do return .uint32 (← Decoding.readUint32)
  | uint64 => do return .uint64 (← Decoding.readUint64)
  | float => do return .float (← Decoding.readUint 4)
  | string => do return .string (← Decoding.readString)
  | floatVector => do return .floatVector (← Decoding.readFloatVector)

theorem eval_bind_pure {α : Type} (d : Decoding.BufferDecoder α) (field : α → Field) (buffer : Bytes) (offset : Nat) :
    (d >>= fun a => pure (field a)).eval buffer offset = (d.eval buffer offset).map (Prod.map field id) := by
  rw [Decoder.eval_bind]
  cases d.eval buffer offset <;> rfl

theorem eval_decoder (type : FieldType) (buffer : Bytes) (offset : Nat) :
    type.decoder.eval buffer offset = type.read buffer offset := by
  cases type with
  | uint32 => rw [decoder, eval_bind_pure, Decoding.readUint32, Decoding.eval_readUint]; rfl
  | uint64 => rw [decoder, eval_bind_pure, Decoding.readUint64, Decoding.eval_readUint]; rfl
  | float => rw [decoder, eval_bind_pure, Decoding.eval_readUint]; rfl
  | string => rw [decoder, eval_bind_pure, Decoding.eval_readString]; rfl
  | floatVector => rw [decoder, eval_bind_pure, Decoding.eval_readFloatVector]; rfl

theorem guarded_bind_pure {α : Type} {d : Decoding.BufferDecoder α} {post : α → Nat → Prop} {reach room : Nat}
    (guarded : d.Guarded reach room post) (field : α → Field) :
    (d >>= fun a => pure (field a)).Guarded reach room fun _ _ => True :=
  guarded.bind fun _ _ _ => trivial

theorem guarded_decoder (type : FieldType) : type.decoder.Guarded (Decoding.reach * 4) 0 fun _ _ => True := by
  have wide : Decoding.reach ≤ Decoding.reach * 4 := by decide
  cases type with
  | uint32 => exact guarded_bind_pure (Decoding.guarded_readUint32.wider wide) _
  | uint64 => exact guarded_bind_pure (Decoding.guarded_readUint64.wider wide) _
  | float => exact guarded_bind_pure ((Decoding.guarded_readUint (by decide)).wider wide) _
  | string => exact guarded_bind_pure (Decoding.guarded_readString.wider wide) _
  | floatVector => exact guarded_bind_pure Decoding.guarded_readFloatVector _

variable {buffer : Bytes} {offset : Nat} {type : FieldType} {types : List FieldType}

theorem readAll_of_ok {field : Field} {next : Nat} (read : type.read buffer offset = .ok (field, next)) :
    readAll buffer (type :: types) offset = (field :: (readAll buffer types next).1, (readAll buffer types next).2) := by
  simp only [readAll, read]

theorem readAll_of_error {e : Status} (read : type.read buffer offset = .error e) :
    readAll buffer (type :: types) offset = ([], .error e) := by
  simp only [readAll, read]

end FieldType

namespace Field

def type : Field → FieldType
  | uint32 _ => .uint32
  | uint64 _ => .uint64
  | float _ => .float
  | string _ => .string
  | floatVector _ => .floatVector

def write (buffer : Bytes) : Field → Bytes
  | uint32 value => writeUint32 buffer value
  | uint64 value => writeUint64 buffer value
  | float value => writeFloat buffer value
  | string value => writeString buffer value
  | floatVector vec => writeFloatVector buffer vec

def writeAll (buffer : Bytes) (fields : List Field) : Bytes := fields.foldl write buffer

/-- The ranges of the C++ types, and lengths that a `uint32_t` holds. -/
def Fits : Field → Prop
  | uint32 value => value < 2 ^ 32
  | uint64 value => value < 2 ^ 64
  | float value => value < 2 ^ 32
  | string value => value.length < 2 ^ 32
  | floatVector vec => vec.length < 2 ^ 32 ∧ ∀ word ∈ vec, word < 2 ^ 32

def bytes : Field → Bytes
  | uint32 value => littleEndian 4 value
  | uint64 value => littleEndian 8 value
  | float value => littleEndian 4 value
  | string value => littleEndian 4 value.length ++ value
  | floatVector vec => littleEndian 4 vec.length ++ vec.flatMap (littleEndian 4)

theorem write_eq (buffer : Bytes) (field : Field) : field.write buffer = buffer ++ field.bytes := by
  cases field with
  | uint32 => rfl
  | uint64 => rfl
  | float => rfl
  | string value => exact List.append_assoc _ _ _
  | floatVector vec => exact List.append_assoc _ _ _

theorem writeAll_eq (buffer : Bytes) (fields : List Field) : writeAll buffer fields = buffer ++ fields.flatMap bytes := by
  induction fields generalizing buffer with
  | nil => exact (List.append_nil buffer).symm
  | cons field fields ih =>
    rw [writeAll, List.foldl_cons, ← writeAll, ih, write_eq, List.append_assoc, List.flatMap_cons]

theorem reads {field : Field} (fits : field.Fits) : field.type.decoder.Reads field.bytes field := by
  cases field with
  | uint32 value => exact (Decoding.reads_readUint fits).bind_pure _
  | uint64 value => exact (Decoding.reads_readUint fits).bind_pure _
  | float value => exact (Decoding.reads_readUint fits).bind_pure _
  | string value => exact (Decoding.reads_readString fits).bind_pure _
  | floatVector vec => exact (Decoding.reads_readFloatVector fits.1 fits.2).bind_pure _

theorem read_bytes {field : Field} (fits : field.Fits) (front back : Bytes) :
    field.type.read (front ++ (field.bytes ++ back)) front.length = .ok (field, front.length + field.bytes.length) := by
  rw [← FieldType.eval_decoder, reads fits]

theorem read_cut {field : Field} (fits : field.Fits) (front : Bytes) {part : Bytes} (initial : part <+: field.bytes)
    (cut : part ≠ field.bytes) : ∃ e, field.type.read (front ++ part) front.length = .error e := by
  obtain ⟨e, refused⟩ := (reads fits).truncated (FieldType.guarded_decoder field.type) front initial cut
  exact ⟨e, by rw [← FieldType.eval_decoder, refused]⟩

variable {fields : List Field}

theorem readAll_bytes (fits : ∀ field ∈ fields, field.Fits) (front : Bytes) :
    FieldType.readAll (front ++ fields.flatMap bytes) (fields.map type) front.length =
      (fields, .ok (front ++ fields.flatMap bytes).length) := by
  induction fields generalizing front with
  | nil => simp [FieldType.readAll]
  | cons field fields ih =>
    have rest := ih (fun other member => fits other (by simp [member])) (front ++ field.bytes)
    rw [List.append_assoc, List.length_append] at rest
    rw [List.map_cons, List.flatMap_cons, FieldType.readAll_of_ok (read_bytes (fits field (by simp)) front _), rest]

theorem readAll_cut (fits : ∀ field ∈ fields, field.Fits) (front : Bytes) {part : Bytes}
    (initial : part <+: fields.flatMap bytes) (cut : part ≠ fields.flatMap bytes) :
    ∃ k e, k < fields.length ∧
      FieldType.readAll (front ++ part) (fields.map type) front.length = (fields.take k, .error e) := by
  induction fields generalizing front part with
  | nil => exact absurd (List.prefix_nil.mp initial) cut
  | cons field fields ih =>
    have first := fits field (by simp)
    rw [List.flatMap_cons] at initial cut
    by_cases whole : field.bytes <+: part
    · obtain ⟨later, rfl⟩ := whole
      obtain ⟨k, e, inside, read⟩ := ih (fun other member => fits other (by simp [member])) (front ++ field.bytes)
        ((List.prefix_append_right_inj _).mp initial) fun same => cut (by rw [same])
      rw [List.append_assoc, List.length_append] at read
      refine ⟨k + 1, e, Nat.succ_lt_succ inside, ?_⟩
      rw [List.map_cons, FieldType.readAll_of_ok (read_bytes first front later), read, List.take_succ_cons]
    · -- the cut is inside the first field
      have short : part <+: field.bytes := by
        rcases List.prefix_or_prefix_of_prefix initial (List.prefix_append field.bytes _) with inside | behind
        · exact inside
        · exact absurd behind whole
      obtain ⟨e, refused⟩ := read_cut first front short fun same => whole (same ▸ List.prefix_refl _)
      exact ⟨0, e, Nat.succ_pos _, FieldType.readAll_of_error refused⟩

theorem fields_round_trip (initial : Bytes) (fits : ∀ field ∈ fields, field.Fits) :
    FieldType.readAll (writeAll initial fields) (fields.map type) initial.length =
        (fields, .ok (writeAll initial fields).length) ∧
      ∀ cut, initial.length ≤ cut → cut < (writeAll initial fields).length →
        ∃ k e, k < fields.length ∧
          FieldType.readAll ((writeAll initial fields).take cut) (fields.map type) initial.length =
            (fields.take k, .error e) := by
  rw [writeAll_eq]
  refine ⟨readAll_bytes fits initial, ?_⟩
  intro cut behind inside
  rw [List.length_append] at inside
  rw [List.take_append, List.take_of_length_le behind]
  apply readAll_cut fits initial (List.take_prefix _ _)
  intro same
  have lengths := congrArg List.length same
  rw [List.length_take] at lengths
  omega

theorem fields_round_trip_mixed :
    let fields := [uint32 7, string [97, 98], floatVector [1065353216], uint64 9]
    FieldType.readAll (writeAll [0] fields) (fields.map type) 1 = (fields, .ok 27) ∧
      ∃ k e, FieldType.readAll ((writeAll [0] fields).take 12) (fields.map type) 1 = (fields.take k, .error e) := by
  intro fields
  have fits : ∀ field ∈ fields, field.Fits := by simp [fields, Fits]
  obtain ⟨whole, cuts⟩ := fields_round_trip [0] fits
  obtain ⟨k, e, -, read⟩ := cuts 12 (by decide) (by decide)
  exact ⟨whole, k, e, read⟩

end Field

end VectorDb.Common
