import VectorDb.Common.Platform
import VectorDb.SSTable.BlockEntry
import Mathlib.Logic.Function.Basic

namespace VectorDb.Storage
open Lib Common

structure SkipListValue where
  isTombstone : Bool := false
  data : Bytes := []
deriving DecidableEq, Repr

abbrev NodePtr := Nat

structure SkipListNode where
  key : Bytes
  value : SkipListValue
  forward : List (Option NodePtr)
deriving DecidableEq, Repr

def kMaxHeight : Nat := 12

/-- The node heap and the counters. `head_` is node 0; nodes below `size` are allocated; `draws`
counts the outputs taken from `rnd_`. -/
structure SkipList where
  heap : NodePtr → SkipListNode
  size : Nat
  maxHeight : Nat
  draws : Nat
  memoryUsage : Nat

namespace SkipList

def empty (pf : Platform) : SkipList where
  heap := fun _ => ⟨[], {}, List.replicate kMaxHeight none⟩
  size := 1
  maxHeight := 1
  draws := 0
  memoryUsage := pf.sizeofSkipList + pf.sizeofSkipListNode + kMaxHeight * pf.sizeofPointer

def height (s : SkipList) (p : NodePtr) : Nat := (s.heap p).forward.length

def next (s : SkipList) (p : NodePtr) (level : Nat) : Option NodePtr :=
  (s.heap p).forward.getD level none

/-- The levels added above the first, with the outputs drawn. No output is drawn once the height
reaches `kMaxHeight`. -/
def extraHeight (pf : Platform) : Nat → Nat → Nat × Nat
  | 0, draws => (0, draws)
  | room + 1, draws =>
    if pf.mt19937 draws % 4 = 0 then
      let rest := extraHeight pf room (draws + 1)
      (rest.1 + 1, rest.2)
    else (0, draws + 1)

def randomHeight (pf : Platform) (draws : Nat) : Nat × Nat :=
  let extra := extraHeight pf (kMaxHeight - 1) draws
  (extra.1 + 1, extra.2)

/-- The inner `while`: walk one level while the next key is smaller. -/
def advance (s : SkipList) (key : Bytes) (level : Nat) : Nat → NodePtr → NodePtr
  | 0, current => current
  | fuel + 1, current =>
    match s.next current level with
    | some n => if (s.heap n).key < key then s.advance key level fuel n else current
    | none => current

/-- The outer `for` from the top level down, filling the update vector. -/
def descend (s : SkipList) (key : Bytes) :
    Nat → NodePtr → (Nat → Option NodePtr) → NodePtr × (Nat → Option NodePtr)
  | 0, current, update => (current, update)
  | level + 1, current, update =>
    let current := s.advance key level s.size current
    s.descend key level current (Function.update update level (some current))

def search (s : SkipList) (key : Bytes) : NodePtr × (Nat → Option NodePtr) :=
  s.descend key s.maxHeight 0 fun _ => none

def setForward (s : SkipList) (p : NodePtr) (level : Nat) (target : Option NodePtr) : SkipList :=
  let node := { s.heap p with forward := (s.heap p).forward.set level target }
  { s with heap := Function.update s.heap p node }

def setValue (s : SkipList) (p : NodePtr) (value : SkipListValue) : SkipList :=
  let node := { s.heap p with value := value }
  { s with heap := Function.update s.heap p node }

def splice (s : SkipList) (fresh : NodePtr) (update : Nat → Option NodePtr) : Nat → SkipList
  | 0 => s
  | level + 1 =>
    let s := s.splice fresh update level
    match update level with
    | some p => (s.setForward fresh level (s.next p level)).setForward p level (some fresh)
    | none => s

/-- The insertion that `Put` and `Delete` both end with. -/
def insertNode (pf : Platform) (s : SkipList) (update : Nat → Option NodePtr) (key : Bytes)
    (value : SkipListValue) : SkipList :=
  let (height, draws) := randomHeight pf s.draws
  let update := fun level => if s.maxHeight ≤ level ∧ level < height then some 0 else update level
  let fresh := s.size
  let grown : SkipList :=
    { heap := Function.update s.heap fresh ⟨key, value, List.replicate height none⟩
      size := s.size + 1
      maxHeight := if height > s.maxHeight then height else s.maxHeight
      draws := draws
      memoryUsage := (s.memoryUsage + (pf.sizeofSkipListNode + key.length + value.data.length +
        height * pf.sizeofPointer)) % 2 ^ 64 }
  grown.splice fresh update height

def put (pf : Platform) (s : SkipList) (key value : Bytes) : SkipList :=
  let (current, update) := s.search key
  match s.next current 0 with
  | some n =>
    if (s.heap n).key = key then
      { s.setValue n ⟨false, value⟩ with
        memoryUsage := (s.memoryUsage + 2 ^ 64 - (s.heap n).value.data.length + value.length) % 2 ^ 64 }
    else s.insertNode pf update key ⟨false, value⟩
  | none => s.insertNode pf update key ⟨false, value⟩

def delete (pf : Platform) (s : SkipList) (key : Bytes) : SkipList :=
  let (current, update) := s.search key
  match s.next current 0 with
  | some n =>
    if (s.heap n).key = key then
      if (s.heap n).value.isTombstone then s
      else
        { s.setValue n ⟨true, []⟩ with
          memoryUsage := (s.memoryUsage + 2 ^ 64 - (s.heap n).value.data.length) % 2 ^ 64 }
    else s.insertNode pf update key ⟨true, []⟩
  | none => s.insertNode pf update key ⟨true, []⟩

/-- `Get` with its out-parameter: the node's value if the key is present. -/
def get (s : SkipList) (key : Bytes) : Option SkipListValue :=
  match s.next (s.search key).1 0 with
  | some n => if (s.heap n).key = key then some (s.heap n).value else none
  | none => none

def isEmpty (s : SkipList) : Bool := (s.next 0 0).isNone

def entriesFrom (s : SkipList) : Nat → Option NodePtr → List BlockEntry
  | 0, _ => []
  | _ + 1, none => []
  | fuel + 1, some n =>
    { key := (s.heap n).key, value := (s.heap n).value.data,
      isTombstone := (s.heap n).value.isTombstone } :: s.entriesFrom fuel (s.next n 0)

def entries (s : SkipList) : List BlockEntry := s.entriesFrom s.size (s.next 0 0)

end SkipList

end VectorDb.Storage
