import LatchTree.LockSet

/-!
Looking an entry up while no writer is about: one latch at a time, down from the root.
-/

namespace LatchTree

variable {K V : Type}

namespace Store

/-- More turns than any loop of an operation takes before it visits the same state again. -/
def patience (s : Store K V) : Nat :=
  (s.slots.size + 2) * (s.slots.size + 2)

end Store

namespace Program

def child (id : NodeId) (d : Side) : Program K V NodeId := do
  return (← look id).child d

end Program

namespace Tree

variable (cmp : K → K → Ordering)

/-- The root hangs below the anchor, on its left. -/
def root : Program K V NodeId :=
  Program.child .anchor .left

/-- Goes down from the node `id`. -/
def searchFrom (k : K) : Nat → NodeId → Program K V (Option V)
  | 0, _ => .halt .endless
  | fuel + 1, id =>
    if id = .nil then
      return none
    else do
      let n ← Program.look id
      match n.order cmp k with
      | .gt => searchFrom k fuel n.left
      | .lt => searchFrom k fuel n.right
      | .eq => return n.value

def search (fuel : Nat) (k : K) : Program K V (Option V) := do
  searchFrom cmp k fuel (← root)

/-- The keys of the nodes at which a search from the node `id` compares. -/
def trail (k : K) : Nat → NodeId → Program K V (List K)
  | 0, _ => .halt .endless
  | fuel + 1, id =>
    if id = .nil then
      return []
    else do
      let n ← Program.look id
      let o := n.order cmp k
      if o = .eq then
        return n.key.toList
      else
        return n.key.toList ++ (← trail k fuel (n.child (Node.sideOf o)))

end Tree

end LatchTree
