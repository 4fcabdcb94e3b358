import VectorDb.SSTable.BlockEntry

namespace VectorDb.Storage
open Lib

inductive Mutation where
  | put (key value : Bytes)
  | delete (key : Bytes)
deriving DecidableEq, Repr

namespace Mutation

def key : Mutation → Bytes
  | put key _ => key
  | delete key => key

def effect : Mutation → BlockEntry
  | put key value => ⟨key, value, false⟩
  | delete key => ⟨key, [], true⟩

@[simp] theorem effect_key (m : Mutation) : m.effect.key = m.key := by cases m <;> rfl

end Mutation

end VectorDb.Storage
