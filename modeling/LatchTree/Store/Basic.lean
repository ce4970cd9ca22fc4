import LatchTree.Fault
import LatchTree.Latch.Word

/-!
The store: every node ever made, each behind its latch, and the slots through which ids reach
the nodes in use.
-/

namespace LatchTree

/-- The identity of a node, in order of creation. It is also the rank of the node's latch: several
latches are taken in ascending order of it. A latch is stamped with its rank when it is made, in 64 bits
and from one counter for the whole process; the order of creation is that of the stamps for as long as
the counter does not wrap around. -/
abbrev Ref := Nat

structure Cell (K V : Type) where
  node : Node K V
  word : Latch.Word := .free

/-- The memory that the threads of one tree share. -/
structure Store (K V : Type) where
  /-- Whether waiting threads spin instead of yielding; nothing else depends on it. -/
  spin : Bool
  /-- All nodes ever made, in order of creation. A node whose slot was freed stays: threads that
  reached it before may still look at it. -/
  cells : Array (Cell K V)
  slots : Array (Option Ref)
  /-- The freed slots, the latest first. -/
  vacant : List NodeId
  /-- The latch of the slot table. -/
  table : Latch.Word
  /-- The number of entries in the tree. -/
  entries : UInt64
  /-- How often an entry was moved up the tree to take the place of an erased one. -/
  relocations : UInt64

namespace Store

variable {K V : Type}

/-- The store of an empty tree: the sentinel and the anchor. -/
def empty (spin : Bool) : Store K V where
  spin := spin
  cells := #[{ node := .reserved }, { node := .reserved }]
  slots := #[some 0, some 1]
  vacant := []
  table := .free
  entries := 0
  relocations := 0

/-! ## Cells -/

def word (s : Store K V) (r : Ref) : Latch.Word :=
  match s.cells[r]? with
  | some c => c.word
  | none => .free

def node (s : Store K V) (r : Ref) : Node K V :=
  match s.cells[r]? with
  | some c => c.node
  | none => .reserved

def mapWord (s : Store K V) (r : Ref) (f : Latch.Word → Latch.Word) : Store K V :=
  { s with cells := s.cells.modify r fun c => { c with word := f c.word } }

def mapNode (s : Store K V) (r : Ref) (f : Node K V → Node K V) : Store K V :=
  { s with cells := s.cells.modify r fun c => { c with node := f c.node } }

/-- The content of a node that no writer has closed. -/
def peek (s : Store K V) (r : Ref) : Option (Node K V) :=
  if (s.word r).admitsReader then some (s.node r) else none

/-! ## Slots -/

/-- The node in the slot `id`, if any. -/
def ref? (s : Store K V) (id : NodeId) : Option Ref :=
  (s.slots[id]?).join

def node? (s : Store K V) (id : NodeId) : Option (Node K V) :=
  (s.ref? id).map s.node

/-- Finds the node in the slot `id`, under a read latch on the slot table. -/
def get (s : Store K V) (id : NodeId) : Except Fault Ref × Store K V :=
  let s := { s with table := s.table.enter }
  let found := match s.ref? id with
    | some r => .ok r
    | none => .error (.dangling id)
  (found, { s with table := s.table.leave })

/-- Puts a new node into the slot freed last, or into a new one. -/
def alloc (s : Store K V) (n : Node K V) : NodeId × Store K V :=
  let r := s.cells.size
  let s := { s with cells := s.cells.push { node := n } }
  let s := { s with table := s.table.latch.lock }
  match s.vacant with
  | id :: rest =>
    (id, { s with slots := s.slots.setIfInBounds id (some r), vacant := rest, table := .free })
  | [] =>
    (s.slots.size, { s with slots := s.slots.push (some r), table := .free })

/-- Vacates the slot `id`; its node lives on for those who hold its `Ref`. -/
def free (s : Store K V) (id : NodeId) : Except Fault Ref × Store K V :=
  if id = .nil ∨ id = .anchor then
    (.error (.freeReserved id), s)
  else
    let s := { s with table := s.table.latch.lock }
    match s.ref? id with
    | some r =>
      (.ok r, { s with
        slots := s.slots.setIfInBounds id none
        vacant := id :: s.vacant
        table := .free })
    | none => (.error (.doubleFree id), { s with table := .free })

/-- The number of slots in use, the two reserved ones apart. -/
def size (s : Store K V) : Nat :=
  s.slots.size - s.vacant.length - 2

/-- The number of slots ever in use at once, the two reserved ones apart. -/
def capacity (s : Store K V) : Nat :=
  s.slots.size - 2

/-! ## Entries of the tree -/

/-- The number of entries in the tree. -/
def len (s : Store K V) : UInt64 :=
  s.entries

def isEmpty (s : Store K V) : Bool :=
  s.len == 0

end Store

end LatchTree
