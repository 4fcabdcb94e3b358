import VectorDb.Lib.AffineWalk
import VectorDb.SSTable.BloomFilter

namespace VectorDb.Storage.BloomFilter
open Lib

def fnvPrime : Nat := 16777619

def hashStep (hash : BitVec 32) (c : Byte) : BitVec 32 := (hash ^^^ BitVec.ofNat 32 c.val) * 16777619

theorem hashKey_concat (key : Bytes) (c : Byte) (seed : BitVec 32) :
    hashKey (key ++ [c]) seed = hashStep (hashKey key seed) c := by
  rw [hashKey, List.foldl_append]
  rfl

theorem exists_hashStep (hash : BitVec 32) {x : Nat} (small : x < 256) :
    ∃ c, (hashStep hash c).toNat = (256 * (hash.toNat / 256) + x) * fnvPrime % 2 ^ 32 := by
  have lowByte : hash.toNat % 256 ^^^ x < 2 ^ 8 := Nat.xor_lt_two_pow (Nat.mod_lt _ (by decide)) small
  refine ⟨⟨hash.toNat % 256 ^^^ x, lowByte⟩, ?_⟩
  have high : (hash.toNat ^^^ (hash.toNat % 256 ^^^ x)) / 2 ^ 8 = hash.toNat / 2 ^ 8 := by
    rw [Nat.xor_div_two_pow, Nat.div_eq_of_lt lowByte, Nat.xor_zero]
  have low : (hash.toNat ^^^ (hash.toNat % 256 ^^^ x)) % 2 ^ 8 = x := by
    rw [Nat.xor_mod_two_pow, Nat.mod_eq_of_lt lowByte, ← Nat.xor_assoc, Nat.xor_self, Nat.zero_xor]
  have whole := Nat.div_add_mod (hash.toNat ^^^ (hash.toNat % 256 ^^^ x)) (2 ^ 8)
  rw [high, low] at whole
  rw [hashStep, BitVec.toNat_mul, BitVec.toNat_xor, BitVec.toNat_ofNat,
    Nat.mod_eq_of_lt (lowByte.trans (by decide)), ← whole]
  rfl

def upper (hash : BitVec 32) : ZMod (2 ^ 24) := (hash.toNat / 256 : Nat)

theorem upper_step {hash next : BitVec 32} {x : Nat}
    (step : next.toNat = (256 * (hash.toNat / 256) + x) * fnvPrime % 2 ^ 32) :
    upper next = fnvPrime * upper hash + (x * fnvPrime / 256 : Nat) := by
  have split : (256 * (hash.toNat / 256) + x) * fnvPrime = 256 * (fnvPrime * (hash.toNat / 256)) + x * fnvPrime := by
    ring
  rw [upper, step, split, show 2 ^ 32 = 256 * 2 ^ 24 from rfl, Nat.mod_mul_right_div_self, ZMod.natCast_mod,
    Nat.mul_add_div (by decide), Nat.cast_add, Nat.cast_mul, upper]

def hashes (seed : BitVec 32) : Set (BitVec 32) := Set.range fun key => hashKey key seed

theorem exists_next {seed hash : BitVec 32} (member : hash ∈ hashes seed) {x : Nat} (small : x < 256) :
    ∃ next ∈ hashes seed, next.toNat = (256 * (hash.toNat / 256) + x) * fnvPrime % 2 ^ 32 := by
  obtain ⟨key, rfl⟩ := member
  obtain ⟨c, step⟩ := exists_hashStep (hashKey key seed) small
  exact ⟨_, ⟨key ++ [c], hashKey_concat key c seed⟩, step⟩

theorem fnvPrime_isUnit : IsUnit ((fnvPrime : Nat) : ZMod (2 ^ 24)) := (ZMod.isUnit_iff_coprime _ _).mpr (by decide)

theorem upper_image (seed : BitVec 32) : Set.image upper (hashes seed) = Set.univ := by
  have shiftUnit : IsUnit ((1 * fnvPrime / 256 : Nat) : ZMod (2 ^ 24)) := (ZMod.isUnit_iff_coprime _ _).mpr (by decide)
  apply affine_closed_eq_univ fnvPrime_isUnit (b := ((1 * fnvPrime / 256 : Nat) : ZMod (2 ^ 24)))
  · rintro _ ⟨hash, member, rfl⟩
    obtain ⟨next, reached, step⟩ := exists_next member (x := 0) (by decide)
    exact ⟨next, reached, by simpa using upper_step step⟩
  · rintro _ ⟨hash, member, rfl⟩
    obtain ⟨next, reached, step⟩ := exists_next member (x := 1) (by decide)
    exact ⟨next, reached, upper_step step⟩
  · exact exists_nsmul_eq shiftUnit
  · exact ⟨_, _, ⟨[], rfl⟩, rfl⟩

theorem toNat_eq_of_upper {hash target : BitVec 32} (high : upper hash = upper target)
    (low : hash.toNat % 256 = target.toNat % 256) : hash = target := by
  have same := (ZMod.natCast_eq_natCast_iff' _ _ _).mp high
  have := hash.isLt
  have := target.isLt
  apply BitVec.eq_of_toNat_eq
  omega

theorem hashKey_surjective (seed target : BitVec 32) : ∃ key, hashKey key seed = target := by
  -- the last byte fixes the low byte of the hash, since 155 is the prime's inverse modulo 256
  let x := target.toNat * 155 % 256
  obtain ⟨u, unit⟩ := fnvPrime_isUnit
  let before : ZMod (2 ^ 24) := (u⁻¹ : (ZMod (2 ^ 24))ˣ) * (upper target - (x * fnvPrime / 256 : Nat))
  have reachable : before ∈ Set.image upper (hashes seed) := upper_image seed ▸ Set.mem_univ _
  obtain ⟨hash, member, atBefore⟩ := reachable
  obtain ⟨next, ⟨key, rfl⟩, step⟩ := exists_next member (x := x) (Nat.mod_lt _ (by decide))
  refine ⟨key, toNat_eq_of_upper ?_ ?_⟩
  · rw [upper_step step, atBefore, ← unit, Units.mul_inv_cancel_left, sub_add_cancel]
  · simp only [step, x, fnvPrime]
    omega

end VectorDb.Storage.BloomFilter
