import VectorDb.Lib.StdAlgorithms

namespace VectorDb.Common
open Lib

/-- What the C++ implementation fixes and the source leaves open: the library algorithms, the
outputs of `std::mt19937` from its seed, and the object sizes. -/
structure Platform extends StdAlgorithms where
  mt19937 : Nat → Nat
  sizeofSkipList : Nat
  sizeofSkipListNode : Nat
  sizeofPointer : Nat

def Platform.reference : Platform :=
  { StdAlgorithms.insertion with
    mt19937 := fun _ => 0
    sizeofSkipList := 96
    sizeofSkipListNode := 88
    sizeofPointer := 8 }

end VectorDb.Common
