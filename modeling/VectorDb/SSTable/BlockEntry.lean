import VectorDb.Lib.Bytes
import VectorDb.Lib.KeyedList

namespace VectorDb.Storage
open Lib

structure BlockEntry where
  key : Bytes
  value : Bytes
  isTombstone : Bool := false
deriving DecidableEq, Repr

def BlockEntry.encodedSize (e : BlockEntry) : Nat := 4 + e.key.length + 4 + e.value.length + 1

/-- What a lookup reports of an entry: its value, or nothing for a tombstone. -/
def BlockEntry.visible (e : BlockEntry) : Option Bytes := if e.isTombstone then none else some e.value

end VectorDb.Storage
