import Mathlib.Data.Nat.Bitwise
import VectorDb.Lib.Bytes

namespace VectorDb.Storage
open Lib

structure BloomFilter where
  bits : Bytes
  numBits : Nat
  numHashFunctions : Int
deriving DecidableEq, Repr

namespace BloomFilter

/-- `std::round(std::log(2.0) * bits_per_key)`, where the double nearest to ln 2 is
6243314768165359 / 2^53. -/
def roundLog2 (bitsPerKey : Nat) : Nat := (2 * 6243314768165359 * bitsPerKey + 2 ^ 53) / 2 ^ 54

def new (expectedKeys bitsPerKey : Nat) : BloomFilter :=
  let numBits := max (expectedKeys * bitsPerKey % 2 ^ 64) 64
  let numBytes := (numBits + 7) / 8
  ⟨List.replicate numBytes 0, numBytes * 8, max 1 (min (roundLog2 bitsPerKey) 30)⟩

/-- FNV-1a from a seeded basis. -/
def hashKey (key : Bytes) (seed : BitVec 32) : BitVec 32 :=
  key.foldl (fun hash c => (hash ^^^ BitVec.ofNat 32 c.val) * 16777619) (2166136261 ^^^ seed)

/-- The `i`-th probe before it is reduced modulo the number of bits. -/
def probe (key : Bytes) (i : Nat) : Nat :=
  (hashKey key 0xbc9f1d34 + BitVec.ofNat 32 i * hashKey key 0x9747b28c).toNat

def setBit (bits : Bytes) (pos : Nat) : Bytes :=
  bits.modify (pos / 8) fun byte => Fin.ofNat 256 (byte.val ||| 1 <<< (pos % 8))

def positions (filter : BloomFilter) (key : Bytes) : List Nat :=
  (List.range filter.numHashFunctions.toNat).map fun i => probe key i % filter.numBits

/-- `Add` is only called on filters from the sizing constructor, which have at least 64 bits. -/
def add (filter : BloomFilter) (key : Bytes) : BloomFilter :=
  { filter with
    bits := (List.range filter.numHashFunctions.toNat).foldl
      (fun bits i => setBit bits (probe key i % filter.numBits)) filter.bits }

def testProbes (filter : BloomFilter) (key : Bytes) : List Nat → Option Bool
  | [] => some true
  | i :: rest => do
    guard (filter.numBits ≠ 0)
    let pos := probe key i % filter.numBits
    let byte ← filter.bits[pos / 8]?
    if byte.val &&& 1 <<< (pos % 8) = 0 then some false else testProbes filter key rest

/-- `MayContain`. `none` is undefined behaviour: a remainder by zero, or a read outside the bit array. -/
def mayContain (filter : BloomFilter) (key : Bytes) : Option Bool :=
  testProbes filter key (List.range filter.numHashFunctions.toNat)

def IsSet (bits : Bytes) (pos : Nat) : Prop := ∃ byte, bits[pos / 8]? = some byte ∧ byte.val.testBit (pos % 8)

theorem setBit_length (bits : Bytes) (pos : Nat) : (setBit bits pos).length = bits.length := by
  simp [setBit]

private theorem or_bit (byte : Byte) (r : Nat) (small : r < 8) :
    (Fin.ofNat 256 (byte.val ||| 1 <<< r)).val = byte.val ||| 2 ^ r := by
  rw [Nat.one_shiftLeft]
  refine Nat.mod_eq_of_lt (Nat.or_lt_two_pow (n := 8) byte.isLt ?_)
  exact Nat.pow_lt_pow_right (by omega) small

theorem setBit_isSet {bits : Bytes} {pos : Nat} (inside : pos / 8 < bits.length) : IsSet (setBit bits pos) pos := by
  refine ⟨Fin.ofNat 256 (bits[pos / 8].val ||| 1 <<< (pos % 8)), ?_, ?_⟩
  · simp [setBit, List.getElem?_eq_getElem inside]
  · rw [or_bit _ _ (Nat.mod_lt _ (by omega))]
    simp

theorem IsSet.setBit {bits : Bytes} {pos : Nat} (isSet : IsSet bits pos) (other : Nat) :
    IsSet (setBit bits other) pos := by
  obtain ⟨byte, here, bit⟩ := isSet
  by_cases same : other / 8 = pos / 8
  · refine ⟨Fin.ofNat 256 (byte.val ||| 1 <<< (other % 8)), by simp [BloomFilter.setBit, same, here], ?_⟩
    rw [or_bit _ _ (Nat.mod_lt _ (by omega))]
    simp [bit]
  · exact ⟨byte, by simp [BloomFilter.setBit, same, here], bit⟩

structure Sized (filter : BloomFilter) : Prop where
  positive : 0 < filter.numBits
  bytes : filter.bits.length * 8 = filter.numBits

theorem new_sized (expectedKeys bitsPerKey : Nat) : (new expectedKeys bitsPerKey).Sized := by
  constructor
  · simp only [new]
    omega
  · simp [new]

theorem Sized.inside {filter : BloomFilter} (sized : filter.Sized) (key : Bytes) :
    ∀ pos ∈ filter.positions key, pos / 8 < filter.bits.length := by
  intro pos touched
  obtain ⟨i, -, rfl⟩ := List.mem_map.mp touched
  have bound := Nat.mod_lt (probe key i) sized.positive
  have bytes := sized.bytes
  omega

theorem new_hashes (expectedKeys bitsPerKey : Nat) :
    1 ≤ (new expectedKeys bitsPerKey).numHashFunctions ∧ (new expectedKeys bitsPerKey).numHashFunctions ≤ 30 := by
  simp only [new]
  omega

theorem testProbes_of_isSet (filter : BloomFilter) (positive : 0 < filter.numBits) (key : Bytes) (is : List Nat)
    (isSet : ∀ i ∈ is, IsSet filter.bits (probe key i % filter.numBits)) :
    testProbes filter key is = some true := by
  induction is with
  | nil => rfl
  | cons i rest ih =>
    obtain ⟨byte, here, bit⟩ := isSet i (by simp)
    have found : byte.val &&& 1 <<< (probe key i % filter.numBits % 8) ≠ 0 := by
      rw [Nat.one_shiftLeft, Nat.and_two_pow, bit]
      simp
    simp [testProbes, here, found, positive.ne', ih fun j member => isSet j (by simp [member])]

theorem testProbes_isSome (filter : BloomFilter) (positive : 0 < filter.numBits)
    (inside : filter.numBits ≤ filter.bits.length * 8) (key : Bytes) (is : List Nat) :
    ∃ answer, testProbes filter key is = some answer := by
  induction is with
  | nil => exact ⟨true, rfl⟩
  | cons i rest ih =>
    obtain ⟨answer, rest⟩ := ih
    have bound : probe key i % filter.numBits / 8 < filter.bits.length := by
      have := Nat.mod_lt (probe key i) positive
      omega
    simp only [testProbes, positive.ne', ne_eq, not_false_eq_true, guard_true, Option.pure_def,
      Option.bind_eq_bind, Option.bind_some, List.getElem?_eq_getElem bound, rest]
    split <;> simp

theorem mayContain_no_bits (filter : BloomFilter) (noBits : filter.numBits = 0)
    (hashes : 0 < filter.numHashFunctions) (key : Bytes) : filter.mayContain key = none := by
  obtain ⟨n, count⟩ : ∃ n, filter.numHashFunctions.toNat = n + 1 :=
    Nat.exists_eq_succ_of_ne_zero (by omega)
  rw [mayContain, count, List.range_succ_eq_map, testProbes]
  simp [noBits]

private theorem foldl_setBit (poss : List Nat) (bits : Bytes) :
    (poss.foldl setBit bits).length = bits.length ∧
      (∀ pos, IsSet bits pos → IsSet (poss.foldl setBit bits) pos) ∧
      ∀ pos ∈ poss, pos / 8 < bits.length → IsSet (poss.foldl setBit bits) pos := by
  induction poss generalizing bits with
  | nil => simp
  | cons first rest ih =>
    obtain ⟨size, keeps, sets⟩ := ih (setBit bits first)
    rw [setBit_length] at size sets
    refine ⟨size, fun pos isSet => keeps pos (isSet.setBit first), fun pos member inside => ?_⟩
    rcases List.mem_cons.mp member with rfl | later
    · exact keeps pos (setBit_isSet inside)
    · exact sets pos later inside

def addAll (filter : BloomFilter) (keys : List Bytes) : BloomFilter := keys.foldl add filter

theorem add_eq (filter : BloomFilter) (key : Bytes) :
    filter.add key = { filter with bits := (filter.positions key).foldl setBit filter.bits } := by
  rw [add, positions, List.foldl_map]

theorem add_sized {filter : BloomFilter} (sized : filter.Sized) (key : Bytes) : (filter.add key).Sized := by
  rw [add_eq]
  exact ⟨sized.positive, by rw [← sized.bytes, (foldl_setBit _ _).1]⟩

def Holds (filter : BloomFilter) (key : Bytes) : Prop :=
  ∀ i < filter.numHashFunctions.toNat, IsSet filter.bits (probe key i % filter.numBits)

theorem Holds.mayContain {filter : BloomFilter} {key : Bytes} (holds : filter.Holds key)
    (positive : 0 < filter.numBits) : filter.mayContain key = some true :=
  testProbes_of_isSet filter positive key _ fun i member => holds i (List.mem_range.mp member)

theorem Holds.add {filter : BloomFilter} {key : Bytes} (holds : filter.Holds key) (other : Bytes) :
    (filter.add other).Holds key := by
  rw [add_eq]
  exact fun i bound => (foldl_setBit _ _).2.1 _ (holds i bound)

theorem add_holds {filter : BloomFilter} (sized : filter.Sized) (key : Bytes) : (filter.add key).Holds key := by
  rw [add_eq]
  intro i bound
  have touched : probe key i % filter.numBits ∈ filter.positions key :=
    List.mem_map.mpr ⟨i, List.mem_range.mpr bound, rfl⟩
  exact (foldl_setBit _ _).2.2 _ touched (sized.inside key _ touched)

theorem addAll_holds (keys : List Bytes) {filter : BloomFilter} (sized : filter.Sized) :
    (filter.addAll keys).Sized ∧ (∀ key, filter.Holds key → (filter.addAll keys).Holds key) ∧
      ∀ key ∈ keys, (filter.addAll keys).Holds key := by
  induction keys generalizing filter with
  | nil => exact ⟨sized, fun _ holds => holds, by simp⟩
  | cons first rest ih =>
    obtain ⟨restSized, keeps, holds⟩ := ih (add_sized sized first)
    refine ⟨restSized, fun key old => keeps key (old.add first), fun key member => ?_⟩
    rcases List.mem_cons.mp member with rfl | later
    · exact keeps key (add_holds sized key)
    · exact holds key later

theorem addAll_numBits (keys : List Bytes) (filter : BloomFilter) :
    (filter.addAll keys).numBits = filter.numBits ∧
      (filter.addAll keys).numHashFunctions = filter.numHashFunctions := by
  induction keys generalizing filter with
  | nil => exact ⟨rfl, rfl⟩
  | cons first rest ih => exact ih (filter.add first)

end BloomFilter

end VectorDb.Storage
