import Mathlib.Tactic

namespace VectorDb.Lib

variable {w : Nat}

/-- A checksum's register taking in one byte: it moves down by a byte and the table's word for the
byte that falls out is added. -/
def tableUpdate (table : BitVec 8 → BitVec w) (state : BitVec w) (b : BitVec 8) : BitVec w :=
  state >>> 8 ^^^ table (state.setWidth 8 ^^^ b)

def Distinguishing (table : BitVec 8 → BitVec w) : Prop :=
  Function.Injective fun i => table i >>> (w - 8)

variable {table : BitVec 8 → BitVec w}

theorem shiftRight_further {x y : BitVec w} {n m : Nat} (further : n ≤ m) (same : x >>> n = y >>> n) :
    x >>> m = y >>> m := by
  obtain ⟨more, rfl⟩ := Nat.exists_eq_add_of_le further
  rw [BitVec.shiftRight_add, BitVec.shiftRight_add, same]

theorem tableUpdate_top (state : BitVec w) (b : BitVec 8) :
    tableUpdate table state b >>> (w - 8) = table (state.setWidth 8 ^^^ b) >>> (w - 8) := by
  have moved : state >>> 8 >>> (w - 8) = 0#w := by
    rw [← BitVec.shiftRight_add]
    exact BitVec.ushiftRight_eq_zero (by omega)
  rw [tableUpdate, BitVec.ushiftRight_xor_distrib, moved, BitVec.zero_xor]

theorem tableUpdate_index {state state' : BitVec w} {b b' : BitVec 8} {n : Nat}
    (distinguishing : Distinguishing table) (kept : n ≤ w - 8)
    (same : tableUpdate table state b >>> n = tableUpdate table state' b' >>> n) :
    state.setWidth 8 ^^^ b = state'.setWidth 8 ^^^ b' := by
  have top := shiftRight_further kept same
  rw [tableUpdate_top, tableUpdate_top] at top
  exact distinguishing top

theorem tableUpdate_high {state state' : BitVec w} {b b' : BitVec 8} {n : Nat}
    (distinguishing : Distinguishing table) (kept : n ≤ w - 8)
    (same : tableUpdate table state b >>> n = tableUpdate table state' b' >>> n) :
    state >>> (8 + n) = state' >>> (8 + n) := by
  have index := tableUpdate_index distinguishing kept same
  rw [tableUpdate, tableUpdate, index, BitVec.ushiftRight_xor_distrib, BitVec.ushiftRight_xor_distrib] at same
  rw [BitVec.shiftRight_add, BitVec.shiftRight_add]
  exact (BitVec.xor_left_inj _).mp same

theorem eq_of_low_high {x y : BitVec w} (low : x.setWidth 8 = y.setWidth 8) (high : x >>> 8 = y >>> 8) : x = y := by
  apply BitVec.eq_of_getLsbD_eq
  intro i _
  by_cases small : i < 8
  · have bit := congrArg (BitVec.getLsbD · i) low
    simpa [small] using bit
  · have bit := congrArg (BitVec.getLsbD · (i - 8)) high
    simpa [show 8 + (i - 8) = i by omega] using bit

theorem tableUpdate_injective (distinguishing : Distinguishing table) (b : BitVec 8) :
    Function.Injective fun state => tableUpdate table state b := by
  intro state state' same
  have shifted : tableUpdate table state b >>> 0 = tableUpdate table state' b >>> 0 :=
    congrArg (fun x : BitVec w => x >>> 0) same
  apply eq_of_low_high
  · exact (BitVec.xor_left_inj b).mp (tableUpdate_index distinguishing (Nat.zero_le _) shifted)
  · exact tableUpdate_high distinguishing (Nat.zero_le _) shifted

theorem foldl_tableUpdate_injective (distinguishing : Distinguishing table) (bytes : List (BitVec 8)) :
    Function.Injective fun state => bytes.foldl (tableUpdate table) state := by
  induction bytes with
  | nil => exact Function.injective_id
  | cons b bytes ih => exact ih.comp (tableUpdate_injective distinguishing b)

theorem foldl_tableUpdate_high (distinguishing : Distinguishing table) {bytes bytes' : List (BitVec 8)}
    {state state' : BitVec w} (lengths : bytes.length = bytes'.length) (short : 8 * bytes.length ≤ w)
    (same : bytes.foldl (tableUpdate table) state = bytes'.foldl (tableUpdate table) state') :
    state >>> (8 * bytes.length) = state' >>> (8 * bytes.length) := by
  induction bytes generalizing bytes' state state' with
  | nil =>
    obtain rfl : bytes' = [] := List.length_eq_zero_iff.mp lengths.symm
    rw [show state = state' from same]
  | cons b bytes ih =>
    cases bytes' with
    | nil => cases lengths
    | cons b' bytes' =>
      rw [List.length_cons] at short ⊢
      have later := ih (Nat.succ.inj lengths) (by omega) same
      rw [Nat.mul_succ, Nat.add_comm]
      exact tableUpdate_high distinguishing (by omega) later

theorem foldl_tableUpdate_window (distinguishing : Distinguishing table) {bytes bytes' : List (BitVec 8)}
    {state : BitVec w} (lengths : bytes.length = bytes'.length) (short : 8 * bytes.length ≤ w)
    (same : bytes.foldl (tableUpdate table) state = bytes'.foldl (tableUpdate table) state) : bytes = bytes' := by
  induction bytes generalizing bytes' state with
  | nil => exact (List.length_eq_zero_iff.mp lengths.symm).symm
  | cons b bytes ih =>
    cases bytes' with
    | nil => cases lengths
    | cons b' bytes' =>
      rw [List.length_cons] at short
      have later := foldl_tableUpdate_high distinguishing (Nat.succ.inj lengths) (by omega) same
      have index := tableUpdate_index distinguishing (by omega) later
      obtain rfl : b = b' := (BitVec.xor_right_inj _).mp index
      rw [ih (Nat.succ.inj lengths) (by omega) same]

end VectorDb.Lib
