import LatchTree.LockSet
import LatchTree.Depth

/-!
Checking a tree against the rules it has to keep: order, colours, black heights, parent links,
depth, and the number of entries.
-/

namespace LatchTree

/-- The first rule found broken. `bound` and `child` are what the offending neighbour holds as its
key. -/
inductive Violation (K : Type) where
  | sentinelTainted (color : Color)
  | anchorTainted (right : NodeId)
  | emptyWithCount (count : Nat)
  | rootRed (key : Option K)
  | rootParent (key : Option K) (parent : NodeId)
  | tooDeep (depth : Nat)
  | tooMany (count : Nat)
  | keyless (id : NodeId)
  | orderRight (key : K) (bound : Option K)
  | orderLeft (key : K) (bound : Option K)
  | unbalanced (expected blacks : Nat) (key : K)
  | consecutiveReds (key : K) (child : Option K)
  | brokenParent (key : K) (child : Option K)
  | tooFew (reached count : Nat)
  deriving DecidableEq, Repr

namespace Violation

variable {K : Type}

def optional (text : K → String) : Option K → String
  | some k => s!"Some({text k})"
  | none => "None"

def message (text : K → String) : Violation K → String
  | sentinelTainted color => s!"sentinel tainted color:{color.name}"
  | anchorTainted right => s!"anchor tainted right:{right}"
  | emptyWithCount count => s!"empty tree with n_count:{count}"
  | rootRed key => s!"root {optional text key} is red"
  | rootParent key parent => s!"root {optional text key} parent:{parent}"
  | tooDeep depth => s!"tree exceeds max_depth {depth}"
  | tooMany count => s!"reachable nodes exceed n_count:{count}"
  | keyless id => s!"node {id} without key"
  | orderRight key bound => s!"sort order {text key} right of {optional text bound}"
  | orderLeft key bound => s!"sort order {text key} left of {optional text bound}"
  | unbalanced expected blacks key =>
    s!"unbalanced blacks {expected} != {blacks} at {text key}"
  | consecutiveReds key child => s!"consecutive reds {text key} {optional text child}"
  | brokenParent key child => s!"broken parent link {text key} {optional text child}"
  | tooFew reached count => s!"reachable nodes {reached} != n_count {count}"

end Violation

namespace Tree

/-- No node may be deeper; the root is at depth 1. -/
def maxDepth : Nat := 100

structure Report where
  count : Nat
  /-- The number of black nodes on every path from the root to the sentinel. -/
  blacks : Nat
  depths : Depth

/-- A node to be examined, with what is known from the path to it. -/
structure Frame where
  id : NodeId
  /-- Black nodes above. -/
  blacks : Nat
  depth : Nat
  /-- The nearest ancestor that this node is right of, or the sentinel. -/
  lo : NodeId
  /-- The nearest ancestor that this node is left of, or the sentinel. -/
  hi : NodeId

/-- What was found so far. -/
structure Tally where
  count : Nat
  /-- The number of black nodes on the paths that have ended. -/
  target : Option Nat
  depths : Depth

variable {K V : Type}

/-- An examination stops at the first rule broken. -/
abbrev Exam (K V : Type) := ExceptT (Violation K) (Program K V)

namespace Exam

variable {α : Type}

def reading (id : NodeId) (body : Node K V → Exam K V α) : Exam K V α :=
  ExceptT.mk (Program.reading id fun n => (body n).run)

def require (ok : Bool) (v : Violation K) : Exam K V Unit :=
  if ok then return () else throw v

end Exam

def checkReserved : Exam K V Unit := do
  Exam.reading .nil fun sentinel => do
    Exam.require (sentinel.color = .black ∧ sentinel.key.isNone) (.sentinelTainted sentinel.color)
    Exam.reading .anchor fun anchor =>
      Exam.require (anchor.color = .black ∧ anchor.key.isNone ∧ anchor.right = .nil)
        (.anchorTainted anchor.right)

/-- A path ends at the sentinel: all paths have passed the same number of black nodes. -/
def endPath (key : K) (blacks : Nat) (t : Tally) : Exam K V Tally :=
  match t.target with
  | some n => if n = blacks then return t else throw (.unbalanced n blacks key)
  | none => return { t with target := some blacks }

/-- Examines one link from the node `id` down. Answers with the frame of the child, if there is
one. -/
def checkChild (id : NodeId) (n : Node K V) (key : K) (blacks : Nat) (f : Frame) (t : Tally) :
    Exam K V (Option Frame × Tally) := do
  if f.id = .nil then
    return (none, ← endPath key blacks t)
  else
    Exam.reading f.id fun c => do
      Exam.require (!(n.color = .red ∧ c.color = .red)) (.consecutiveReds key c.key)
      Exam.require (c.parent = id) (.brokenParent key c.key)
      return (some f, t)

/-- A key has to come after that of `lo`, if there is one. -/
def checkLower (cmp : K → K → Ordering) (key : K) (lo : NodeId) : Exam K V Unit :=
  if lo = .nil then return ()
  else Exam.reading lo fun n => Exam.require (n.order cmp key = .lt) (.orderRight key n.key)

/-- A key has to come before that of `hi`, if there is one. -/
def checkUpper (cmp : K → K → Ordering) (key : K) (hi : NodeId) : Exam K V Unit :=
  if hi = .nil then return ()
  else Exam.reading hi fun n => Exam.require (n.order cmp key = .gt) (.orderLeft key n.key)

/-- Examines one node and its links down. Answers with the frames of its children, the right one
first. -/
def examine (cmp : K → K → Ordering) (count : Nat) (f : Frame) (t : Tally) :
    Exam K V (List Frame × Tally) :=
  Exam.reading f.id fun n => do
    let t := { t with count := t.count + 1 }
    Exam.require (t.count ≤ count) (.tooMany count)
    match n.key with
    | none => throw (.keyless f.id)
    | some key =>
      checkLower cmp key f.lo
      checkUpper cmp key f.hi
      let blacks := match n.color with
        | .black => f.blacks + 1
        | .red => f.blacks
      let t := if n.left = .nil ∨ n.right = .nil then
          { t with depths := t.depths.sample (UInt64.ofNat f.depth) }
        else t
      let (left, t) ← checkChild f.id n key blacks ⟨n.left, blacks, f.depth + 1, f.lo, f.id⟩ t
      let (right, t) ← checkChild f.id n key blacks ⟨n.right, blacks, f.depth + 1, f.id, f.hi⟩ t
      return (right.toList ++ left.toList, t)

/-- Examines the nodes from `f` down, of which there may be `levels` levels. -/
def walk (cmp : K → K → Ordering) (count : Nat) : Nat → Frame → Tally → Exam K V Tally
  | 0, f, _ => throw (.tooDeep f.depth)
  | levels + 1, f, t => do
    let (children, t) ← examine cmp count f t
    children.foldlM (fun t c => walk cmp count levels c t) t

/-- The frame of the node at the top. -/
def Frame.top (root : NodeId) : Frame :=
  ⟨root, 0, 1, .nil, .nil⟩

/-- Checks the nodes from the one at the top down, of which there should be `count`. -/
def checkFrom (cmp : K → K → Ordering) (count : Nat) (root : NodeId) : Exam K V Report := do
  if root = .nil then
    Exam.require (count = 0) (.emptyWithCount count)
    return ⟨0, 0, .empty⟩
  else
    Exam.reading root fun n => do
      Exam.require (n.color = .black) (.rootRed n.key)
      Exam.require (n.parent = .anchor) (.rootParent n.key n.parent)
    let t ← walk cmp count maxDepth (.top root) ⟨0, none, .empty⟩
    Exam.require (t.count = count) (.tooFew t.count count)
    return ⟨t.count, t.target.getD 0, t.depths⟩

/-- Checks a tree that should have `count` entries. -/
def check (cmp : K → K → Ordering) (count : Nat) : Exam K V Report := do
  checkReserved
  let root ← Exam.reading (K := K) (V := V) .anchor fun n => return n.left
  checkFrom cmp count root

end Tree

end LatchTree
