/-!
Tree nodes: an optional key and value, a colour, and links to other nodes by id.
-/

namespace LatchTree

/-- Names a slot of the store; links between nodes are ids. -/
abbrev NodeId := Nat

namespace NodeId

/-- The sentinel: every absent child or parent is this id. -/
abbrev nil : NodeId := 0

/-- The pseudo node above the tree: its left child is the root. -/
abbrev anchor : NodeId := 1

end NodeId

inductive Color where
  | red
  | black
  deriving DecidableEq, Repr

def Color.name : Color → String
  | .red => "red"
  | .black => "black"

inductive Side where
  | left
  | right
  deriving DecidableEq, Repr

def Side.other : Side → Side
  | .left => .right
  | .right => .left

@[simp] theorem Side.other_other (d : Side) : d.other.other = d := by cases d <;> rfl

theorem Side.other_ne (d : Side) : d.other ≠ d := by cases d <;> decide

/-- The sentinel and the anchor carry no key and no value. -/
structure Node (K V : Type) where
  key : Option K
  value : Option V
  color : Color
  parent : NodeId
  left : NodeId
  right : NodeId
  deriving DecidableEq, Repr

namespace Node

variable {K V : Type}

/-- A new entry: red and linked to nothing. -/
def entry (key : K) (value : V) : Node K V :=
  ⟨some key, some value, .red, .nil, .nil, .nil⟩

def reserved : Node K V :=
  ⟨none, none, .black, .nil, .nil, .nil⟩

/-- Orders the node's key against `k`, the node's key on the left. A node without a key sorts
after every key. -/
def order (cmp : K → K → Ordering) (n : Node K V) (k : K) : Ordering :=
  match n.key with
  | some key => cmp key k
  | none => .gt

def child (n : Node K V) : Side → NodeId
  | .left => n.left
  | .right => n.right

def setChild (n : Node K V) (d : Side) (id : NodeId) : Node K V :=
  match d with
  | .left => { n with left := id }
  | .right => { n with right := id }

/-- The side on which the node has the child `id`; on the right, if on neither. -/
def sideOfChild (n : Node K V) (id : NodeId) : Side :=
  if n.left = id then .left else .right

/-- The side on which `k` is looked for below a node that compares `o` with it. -/
def sideOf : Ordering → Side
  | .gt => .left
  | _ => .right

/-- The child link on the side of `k`. -/
def towards (cmp : K → K → Ordering) (n : Node K V) (k : K) : NodeId :=
  n.child (sideOf (n.order cmp k))

def unlink (n : Node K V) : Node K V :=
  { n with parent := .nil, left := .nil, right := .nil }

theorem child_setChild (n : Node K V) (d e : Side) (id : NodeId) :
    (n.setChild d id).child e = if e = d then id else n.child e := by
  cases d <;> cases e <;> rfl

@[simp] theorem key_setChild (n : Node K V) (d : Side) (id : NodeId) :
    (n.setChild d id).key = n.key := by cases d <;> rfl

@[simp] theorem value_setChild (n : Node K V) (d : Side) (id : NodeId) :
    (n.setChild d id).value = n.value := by cases d <;> rfl

@[simp] theorem color_setChild (n : Node K V) (d : Side) (id : NodeId) :
    (n.setChild d id).color = n.color := by cases d <;> rfl

@[simp] theorem parent_setChild (n : Node K V) (d : Side) (id : NodeId) :
    (n.setChild d id).parent = n.parent := by cases d <;> rfl

end Node

end LatchTree
