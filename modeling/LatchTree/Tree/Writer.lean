import LatchTree.Tree.Search
import LatchTree.Tree.FixUp

/-!
Setting and removing entries. One writer runs at a time; every change of links happens under a
lock set that holds all nodes it touches.
-/

namespace LatchTree

variable {K V : Type}

namespace Edit

/-- Overwrites the value of the node `id`, and answers with the old one. -/
def overwrite (id : NodeId) (v : V) : Edit K V (Option V) := do
  let old := (← get id).value
  modify id fun n => { n with value := some v }
  return old

/-- Takes the value of the erased node `z` and points its links nowhere. -/
def discard (z : NodeId) : Edit K V (Option V) := do
  let value := (← get z).value
  modify z fun n => { n with value := none }
  modify z Node.unlink
  return value

/-- Takes out `z`, which has at most the child `x`. -/
def splice (z x : NodeId) : Edit K V (Option V) := do
  transplant z x
  discard z

/-- The subtree `zr` on the right of `z` loses its least node `y` and becomes the one on the right
of `y`. If `y` is the top of it, it is that already. -/
def takeOver (z zr y yp x : NodeId) : Edit K V Unit :=
  if yp = z then return ()
  else do
    transplant y x
    modify y (·.setChild .right zr)
    modify zr fun n => { n with parent := y }

/-- Puts `y`, the least node on the right of `z`, in the place of `z`. The links of `z` are `zl`
and `zr`, those of `y` are its parent `yp` and its right child `x`. -/
def replace (z zl zr : NodeId) (color : Color) (y yp x : NodeId) : Edit K V (Option V) := do
  takeOver z zr y yp x
  transplant z y
  modify y (·.setChild .left zl)
  modify zl fun n => { n with parent := y }
  paint y color
  discard z

end Edit

namespace Tree

variable (cmp : K → K → Ordering)

/-- Goes down from the node `y`, on which there is a reservation, to the node that compares equal
with `k` or below which `k` belongs, and moves the reservation there. -/
def seek (k : K) : Nat → NodeId → Ref → Node K V → Program K V (NodeId × Ref × Node K V)
  | 0, _, _, _ => .halt .endless
  | fuel + 1, y, r, n => do
    let o := n.order cmp k
    let next := n.child (Node.sideOf o)
    if o = .eq ∨ next = .nil then
      return (y, r, n)
    else
      let c ← Program.resolve next
      let m ← Program.reserve c
      Program.unreserve r
      seek k fuel next c m

/-- Restores the colour rules after the red node `z` was linked below `y`. The first node of a tree
is black and breaks none. -/
def settle (fuel : Nat) (y z : NodeId) : Program K V Unit :=
  if y = .anchor then return () else insertFixUp fuel z

/-- Links a new entry below the node `y`, which compares `o` with its key, and on which there is a
reservation. -/
def link (fuel : Nat) (k : K) (v : V) (o : Ordering) (y : NodeId) (r : Ref) :
    Program K V Unit := do
  let color : Color := if y = .anchor then .black else .red
  let z ← Program.request (.alloc { Node.entry k v with parent := y, color := color })
  let _ ← LockSet.within [y] (some (y, r))
    (Section.plain (Edit.modify y (·.setChild (Node.sideOf o) z)))
  Program.request .countUp
  settle fuel y z

/-- Sets the value of `k`; answers with the old value if `k` was present. -/
def set (fuel : Nat) (k : K) (v : V) : Program K V (Option V) := do
  let top ← Program.resolve .anchor
  let n ← Program.reserve top
  let (y, r, n) ← seek cmp k fuel .anchor top n
  let o := n.order cmp k
  if o = .eq then
    LockSet.within [y] (some (y, r)) { edit := Edit.overwrite y v }
  else
    link fuel k v o y r
    return none

/-- The least node below `id`. -/
def least : Nat → NodeId → Program K V NodeId
  | 0, _ => .halt .endless
  | fuel + 1, id => do
    let left := (← Program.look id).left
    if left = .nil then return id else least fuel left

/-- Takes out the node `z`, on which there is a reservation. Answers with its value, and with the
place that may lack a black node: a node or the sentinel, and its parent. -/
def detach (fuel : Nat) (z : NodeId) (r : Ref) (n : Node K V) :
    Program K V (Option V × NodeId × NodeId × Color) := do
  if n.left = .nil ∨ n.right = .nil then
    let x := if n.left = .nil then n.right else n.left
    let v ← LockSet.within [n.parent, z, x] (some (z, r)) { edit := Edit.splice z x }
    return (v, x, n.parent, n.color)
  else
    let y ← least fuel n.right
    let m ← Program.look y
    let xp := if m.parent = z then y else m.parent
    let v ← LockSet.within [n.parent, z, n.left, n.right, y, m.parent, m.right] (some (z, r))
      { edit := Edit.replace z n.left n.right n.color y m.parent m.right, relocates := true }
    return (v, m.right, xp, m.color)

/-- Restores the colour rules after a node of the colour `color` was taken out above `x`. A red one
leaves no path short. -/
def refill (fuel : Nat) (color : Color) (x xp : NodeId) : Program K V Unit :=
  if color = .black then deleteFixUp fuel x xp else return ()

/-- Removes the entry of `k`; answers with its value if it was present. -/
def remove (fuel : Nat) (k : K) : Program K V (Option V) := do
  let top ← Program.resolve .anchor
  let n ← Program.reserve top
  let (z, r, n) ← seek cmp k fuel .anchor top n
  if n.order cmp k = .eq then
    let (v, x, xp, color) ← detach fuel z r n
    Program.request (.free z)
    Program.request .countDown
    refill fuel color x xp
    return v
  else
    Program.unreserve r
    return none

end Tree

end LatchTree
