import Mathlib.Data.ZMod.Units
import Mathlib.GroupTheory.OrderOfElement
import Mathlib.Tactic

namespace VectorDb.Lib

variable {R : Type} [CommRing R] [Finite R] {a b : R} {S : Set R}

theorem add_mem_of_affine_closed (unit : IsUnit a) (scale : ∀ r ∈ S, a * r ∈ S) (shift : ∀ r ∈ S, a * r + b ∈ S)
    {r : R} (member : r ∈ S) : r + b ∈ S := by
  obtain ⟨u, rfl⟩ := unit
  obtain ⟨n, positive, back⟩ := isOfFinOrder_iff_pow_eq_one.mp (isOfFinOrder_of_finite u)
  obtain ⟨n, rfl⟩ := Nat.exists_eq_succ_of_ne_zero positive.ne'
  have scaled : ∀ k, (u : R) ^ k * r ∈ S := by
    intro k
    induction k with
    | zero => simpa using member
    | succ k ih =>
      rw [pow_succ', mul_assoc]
      exact scale _ ih
  have shifted := shift _ (scaled n)
  rwa [← mul_assoc, ← pow_succ', ← Units.val_pow_eq_pow_val, back, Units.val_one, one_mul] at shifted

theorem affine_closed_eq_univ (unit : IsUnit a) (scale : ∀ r ∈ S, a * r ∈ S) (shift : ∀ r ∈ S, a * r + b ∈ S)
    (generates : ∀ r : R, ∃ n : Nat, n • b = r) (nonempty : S.Nonempty) : S = Set.univ := by
  obtain ⟨start, member⟩ := nonempty
  have shifted : ∀ n : Nat, start + n • b ∈ S := by
    intro n
    induction n with
    | zero => simpa using member
    | succ n ih =>
      rw [succ_nsmul, ← add_assoc]
      exact add_mem_of_affine_closed unit scale shift ih
  apply Set.eq_univ_of_forall
  intro r
  obtain ⟨n, far⟩ := generates (r - start)
  have reached := shifted n
  rwa [far, add_sub_cancel] at reached

theorem exists_nsmul_eq {m : Nat} [NeZero m] {b : ZMod m} (unit : IsUnit b) (r : ZMod m) : ∃ n : Nat, n • b = r := by
  obtain ⟨u, rfl⟩ := unit
  refine ⟨(r * (u⁻¹ : (ZMod m)ˣ)).val, ?_⟩
  rw [nsmul_eq_mul, ZMod.natCast_zmod_val, mul_assoc, Units.inv_mul, mul_one]

end VectorDb.Lib
