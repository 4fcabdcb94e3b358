import Mathlib.Data.List.Lex
import Mathlib.Data.Nat.Digits.Lemmas
import Mathlib.Tactic

namespace VectorDb.Lib

instance byteCount_neZero : NeZero 256 := ⟨by decide⟩

abbrev Byte := Fin 256

/-- Byte strings, ordered lexicographically by unsigned byte as `std::string::compare` does. -/
abbrev Bytes := List Byte

instance : LT Bytes := Preorder.toLT

instance : LE Bytes := Preorder.toLE

instance : Ord Bytes := LinearOrder.toOrd

instance (a b : Bytes) : Decidable (a < b) := LinearOrder.toDecidableLT a b

instance (a b : Bytes) : Decidable (a ≤ b) := LinearOrder.toDecidableLE a b

def text (s : String) : Bytes := s.toList.map fun c => Fin.ofNat 256 c.toNat

def littleEndian : Nat → Nat → Bytes
  | 0, _ => []
  | width + 1, n => Fin.ofNat 256 n :: littleEndian width (n / 256)

def ofLittleEndian : Bytes → Nat
  | [] => 0
  | b :: bs => b.val + 256 * ofLittleEndian bs

@[simp] theorem littleEndian_length (width n : Nat) : (littleEndian width n).length = width := by
  induction width generalizing n with
  | zero => rfl
  | succ width ih => simp [littleEndian, ih]

theorem ofLittleEndian_littleEndian (width n : Nat) :
    ofLittleEndian (littleEndian width n) = n % 256 ^ width := by
  induction width generalizing n with
  | zero => simp [littleEndian, ofLittleEndian, Nat.mod_one]
  | succ width ih =>
    simp only [littleEndian, ofLittleEndian, ih, Fin.val_ofNat]
    rw [pow_succ', Nat.mod_mul]

theorem littleEndian_ofLittleEndian (bs : Bytes) : littleEndian bs.length (ofLittleEndian bs) = bs := by
  induction bs with
  | nil => rfl
  | cons b bs ih =>
    have low : (b.val + 256 * ofLittleEndian bs) % 256 = b.val := by omega
    have high : (b.val + 256 * ofLittleEndian bs) / 256 = ofLittleEndian bs := by omega
    rw [List.length_cons, ofLittleEndian, littleEndian, high, ih]
    congr 1
    exact Fin.ext low

theorem ofLittleEndian_lt (bs : Bytes) : ofLittleEndian bs < 256 ^ bs.length := by
  induction bs with
  | nil => simp [ofLittleEndian]
  | cons b bs ih =>
    simp only [ofLittleEndian, List.length_cons, pow_succ]
    have := b.isLt
    omega

theorem nil_le (bs : Bytes) : ([] : Bytes) ≤ bs := not_lt.mp (List.not_lt_nil bs)

theorem append_lt_append {a b : Bytes} (same : a.length = b.length) (less : a < b) (x y : Bytes) :
    a ++ x < b ++ y := by
  induction a generalizing b with
  | nil =>
    cases b with
    | nil => exact absurd less (lt_irrefl _)
    | cons => cases same
  | cons first a ih =>
    cases b with
    | nil => cases same
    | cons other b =>
      rw [List.cons_append, List.cons_append, List.cons_lt_cons_iff]
      rcases List.cons_lt_cons_iff.mp less with before | ⟨equal, rest⟩
      · exact .inl before
      · exact .inr ⟨equal, ih (by simpa using same) rest⟩

theorem reverse_littleEndian_lt {width i j : Nat} (less : i < j) (fits : j < 256 ^ width) :
    (littleEndian width i).reverse < (littleEndian width j).reverse := by
  induction width generalizing i j with
  | zero => simp at fits; omega
  | succ width ih =>
    simp only [littleEndian, List.reverse_cons]
    by_cases high : i / 256 = j / 256
    · rw [high]
      refine List.append_left_lt (List.cons_lt_cons_iff.mpr (.inl ?_))
      rw [Fin.lt_def, Fin.val_ofNat, Fin.val_ofNat]
      omega
    · refine append_lt_append (by simp) (ih (by omega) ?_) _ _
      rw [pow_succ] at fits
      omega

def decimal (n : Nat) : Bytes :=
  if n = 0 then [48] else ((Nat.digits 10 n).map fun d => Fin.ofNat 256 (d + 48)).reverse

def ofDecimal (bs : Bytes) : Nat := Nat.ofDigits 10 (bs.reverse.map fun b => b.val - 48)

theorem ofDecimal_decimal (n : Nat) : ofDecimal (decimal n) = n := by
  by_cases zero : n = 0
  · subst zero
    decide
  · simp only [ofDecimal, decimal, zero, if_false, List.reverse_reverse, List.map_map]
    have digits : (Nat.digits 10 n).map ((fun b : Byte => b.val - 48) ∘ fun d => Fin.ofNat 256 (d + 48))
        = Nat.digits 10 n := by
      rw [List.map_congr_left (g := id), List.map_id]
      intro d digit
      have := Nat.digits_lt_base (b := 10) (by decide) digit
      simp only [Function.comp_apply, Fin.val_ofNat, id_eq]
      omega
    rw [digits, Nat.ofDigits_digits]

theorem decimal_injective : Function.Injective decimal :=
  Function.LeftInverse.injective ofDecimal_decimal

theorem decimal_digit (n : Nat) : ∀ b ∈ decimal n, 48 ≤ b.val ∧ b.val < 58 := by
  intro b member
  by_cases zero : n = 0
  · simp only [decimal, zero, if_true, List.mem_singleton] at member
    subst member
    decide
  · simp only [decimal, zero, if_false, List.mem_reverse, List.mem_map] at member
    obtain ⟨d, digit, rfl⟩ := member
    have := Nat.digits_lt_base (b := 10) (m := n) (by decide) digit
    simp only [Fin.val_ofNat]
    omega

/-- `std::setw(width)` with `std::setfill('0')`. -/
def zeroPad (width : Nat) (bs : Bytes) : Bytes := List.replicate (width - bs.length) 48 ++ bs

theorem ofDecimal_zeroPad (width : Nat) (bs : Bytes) : ofDecimal (zeroPad width bs) = ofDecimal bs := by
  simp only [ofDecimal, zeroPad, List.reverse_append, List.map_append, Nat.ofDigits_append,
    List.reverse_replicate, List.map_replicate]
  have zeros (k : Nat) : Nat.ofDigits 10 (List.replicate k ((48 : Byte).val - 48)) = 0 := by
    induction k with
    | zero => rfl
    | succ k => simp [List.replicate_succ, Nat.ofDigits_cons]
  rw [zeros, Nat.mul_zero, Nat.add_zero]

theorem append_mark_inj {mark : Byte} {a a' b b' : Bytes} (clean : mark ∉ a) (clean' : mark ∉ a')
    (same : a ++ mark :: b = a' ++ mark :: b') : a = a' ∧ b = b' := by
  induction a generalizing a' with
  | nil =>
    cases a' with
    | nil => simpa using same
    | cons first rest =>
      simp only [List.nil_append, List.cons_append, List.cons.injEq] at same
      exact absurd (same.1 ▸ List.mem_cons_self) clean'
  | cons first rest ih =>
    cases a' with
    | nil =>
      simp only [List.nil_append, List.cons_append, List.cons.injEq] at same
      exact absurd (same.1 ▸ List.mem_cons_self) clean
    | cons first' rest' =>
      simp only [List.cons_append, List.cons.injEq] at same
      obtain ⟨tails, backs⟩ := ih (fun member => clean (by simp [member])) (fun member => clean' (by simp [member]))
        same.2
      exact ⟨by rw [same.1, tails], backs⟩

end VectorDb.Lib
