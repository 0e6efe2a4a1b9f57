import KvEngine.Error
import KvEngine.Foundations.SortedMap

/-!
# Skip list

The heap of the list is an arena: a pointer is an index into `nodes`, `null` is
`none`, and the head is the node at address `0`.  `next[i]` of a node is its
successor in lane `i`; a node of height `h` has `next` of length `h`.

A dangling pointer and a lane above a node's tower panic, as the indexing of the
source does.  A walk along a lane is fuelled by the number of nodes.
-/

namespace KvEngine

open Foundations

/-- A single node in the skip list. -/
structure Node where
  key : Bytes
  value : Bytes
  next : List (Option Nat)
  deriving DecidableEq, Repr

/-- A probabilistic sorted map backed by a skip list. -/
structure SkipList where
  nodes : List Node
  maxLevel : Nat
  /-- Estimated memory usage in bytes. -/
  size : Nat
  deriving DecidableEq, Repr

namespace SkipList

/-- `size_of::<SkipList>()`: one pointer and two `usize`. -/
def selfSize : Nat := 24

/-- `size_of::<Node>()`: three `Vec`s. -/
def nodeSize : Nat := 72

/-- `size_of::<Vec<u8>>()` -/
def vecSize : Nat := 24

/-- `size_of::<*mut Node>()` -/
def pointerSize : Nat := 8

/-- The address of the head. -/
def head : Nat := 0

/-- Create a new, empty skip list (`max_level` is at least 1). -/
def new (maxLevel : Nat) : SkipList where
  nodes := [{ key := [], value := [], next := List.replicate maxLevel none }]
  maxLevel
  size := selfSize

/-- Follow a pointer. -/
def node (s : SkipList) (p : Nat) : Result Node := orPanic s.nodes[p]?

/-- `Node::next_at(p, level)` -/
def nextAt (s : SkipList) (p level : Nat) : Result (Option Nat) := do
  let n ← s.node p
  orPanic n.next[level]?

/-- `Node::set_next(p, level, target)` -/
def setNext (s : SkipList) (p level : Nat) (target : Option Nat) : Result SkipList := do
  let n ← s.node p
  let _ ← orPanic n.next[level]?
  .ok { s with nodes := s.nodes.set p { n with next := n.next.set level target } }

/-- Walk along one lane while the successor's key is below `key`. -/
def walk (s : SkipList) (level : Nat) (key : Bytes) : Nat → Nat → Result Nat
  | 0, _ => .error .outOfFuel
  | fuel + 1, current => do
      match ← s.nextAt current level with
      | none => .ok current
      | some p =>
          let n ← s.node p
          if n.key < key then walk s level key fuel p else .ok current

/-- Walk down the lanes `levels - 1, .., 0`; returns where each lane's walk
ended, from lane `0` upwards, together with the end of the last walk. -/
def descend (s : SkipList) (key : Bytes) : Nat → Nat → Result (Nat × List Nat)
  | 0, current => .ok (current, [])
  | level + 1, current => do
      let current ← s.walk level key s.nodes.length current
      let (last, update) ← descend s key level current
      .ok (last, update ++ [current])

/-- `random_level`, given the trailing zeros drawn from the generator. -/
def randomLevel (s : SkipList) (trailing : Nat) : Nat := min trailing (s.maxLevel - 1)

/-- Splice the node at `new` behind each predecessor, from lane `i` upwards. -/
def splice (new : Nat) : Nat → List Nat → SkipList → Result SkipList
  | _, [], s => .ok s
  | i, pred :: preds, s => do
      let s ← s.setNext new i (← s.nextAt pred i)
      let s ← s.setNext pred i (some new)
      splice new (i + 1) preds s

/-- Overwrite the value of the node at `p`. -/
def setValue (s : SkipList) (p : Nat) (value : Bytes) : Result SkipList := do
  let n ← s.node p
  .ok { s with nodes := s.nodes.set p { n with value } }

/-- The node at `existing`, if it holds `key`. -/
def holdsKey (s : SkipList) (existing : Option Nat) (key : Bytes) : Result (Option Nat) :=
  match existing with
  | none => .ok none
  | some p => do
      let n ← s.node p
      .ok (if n.key = key then some p else none)

/-- Insert or update a key-value pair, with a tower of `level + 1` lanes for a
new node. -/
def insert (s : SkipList) (level : Nat) (key value : Bytes) : Result SkipList := do
  let (current, update) ← s.descend key s.maxLevel head
  match ← s.holdsKey (← s.nextAt current 0) key with
  | some p => s.setValue p value
  | none => do
      let new := s.nodes.length
      let fresh : Node := { key, value, next := List.replicate (level + 1) none }
      let s' ← splice new 0 (update.take (level + 1)) { s with nodes := s.nodes ++ [fresh] }
      .ok { s' with
        size := s'.size + (key.length + value.length + (level + 1) * pointerSize + nodeSize
          + 2 * vecSize) }

/-- Look up a key and return a copy of its value, or `none`. -/
def get (s : SkipList) (key : Bytes) : Result (Option Bytes) := do
  let (current, _) ← s.descend key s.maxLevel head
  match ← s.holdsKey (← s.nextAt current 0) key with
  | some p => do
      let n ← s.node p
      .ok (some n.value)
  | none => .ok none

/-- The entries from a node on, along the bottom lane, as long as `more` allows. -/
def collect (s : SkipList) (more : Bytes → Bool) : Nat → Option Nat → Result (List (Bytes × Bytes))
  | _, none => .ok []
  | 0, some _ => .error .outOfFuel
  | fuel + 1, some p => do
      let n ← s.node p
      if more n.key then do
        let rest ← collect s more fuel (← s.nextAt p 0)
        .ok ((n.key, n.value) :: rest)
      else .ok []

/-- The entries with `start <= key < end`. -/
def scan (s : SkipList) (start stop : Bytes) : Result (List (Bytes × Bytes)) := do
  let (current, _) ← s.descend start s.maxLevel head
  s.collect (fun k => k < stop) s.nodes.length (← s.nextAt current 0)

/-- All key-value pairs in sorted order. -/
def iter (s : SkipList) : Result (List (Bytes × Bytes)) := do
  s.collect (fun _ => true) s.nodes.length (← s.nextAt head 0)

end SkipList

end KvEngine
