import LatchTree.Node

/-!
Faults: broken expectations of the store, of the algorithms on it and of the index. An operation
that meets one is abandoned, and what it had written stays.
-/

namespace LatchTree

inductive Fault where
  /-- No node lives in the slot. -/
  | dangling (id : NodeId)
  | freeReserved (id : NodeId)
  | doubleFree (id : NodeId)
  /-- A node was touched under a lock set that does not hold it. -/
  | notInSet (id : NodeId)
  /-- A reservation was handed to a lock set that does not ask for its node. -/
  | heldMissing (id : NodeId)
  /-- A parent and child pair was asked for with one node in both places. -/
  | samePair
  | notAChild (id parent : NodeId)
  | rotateWithoutChild (side : Side) (id : NodeId)
  | missingSibling (id parent : NodeId)
  /-- The mutex of the index was held by an operation that met a fault. -/
  | poisoned (index : String)
  /-- The caller gave up. -/
  | raised (message : String)
  deriving DecidableEq, Repr

namespace Fault

def sideName : Side → String
  | .left => "Left"
  | .right => "Right"

def message : Fault → String
  | dangling id => s!"dangling node handle {id}, call the programmer"
  | freeReserved id => s!"freeing reserved node {id}, call the programmer"
  | doubleFree id => s!"double free on node {id}, call the programmer"
  | notInSet id => s!"node {id} not in lock-set, call the programmer"
  | heldMissing id => s!"held node {id} missing in lock-set, call the programmer"
  | samePair => "read_pair on the same node, call the programmer"
  | notAChild id parent => s!"node {id} not a child of {parent}, call the programmer"
  | rotateWithoutChild side id =>
    s!"rotate {sideName side} on node {id} without child, call the programmer"
  | missingSibling id parent => s!"missing sibling for {id} under {parent}, call the programmer"
  | poisoned index =>
    s!"{index} poisoned lock poisoned lock: another task failed inside, call the programmer"
  | raised message => message

end Fault

/-- Why an operation did not answer: it met a fault, it waits for a latch that is never let go,
or it runs forever. -/
inductive Halt where
  | fault (f : Fault)
  | waiting
  | endless
  deriving DecidableEq, Repr

end LatchTree
