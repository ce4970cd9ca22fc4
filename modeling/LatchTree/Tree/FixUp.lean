import LatchTree.Tree.Search

/-!
Rotations, and the fix-ups that restore the colour rules after an entry was linked or taken out.
Each fix-up climbs with one defect, at one place, until a rotation or the root ends it.
-/

namespace LatchTree

variable {K V : Type}

/-! ## Edits -/

namespace Edit

def paint (id : NodeId) (c : Color) : Edit K V Unit :=
  modify id fun n => { n with color := c }

/-- The sentinel, which stands for many places, keeps no parent. -/
def setParent (id parent : NodeId) : Edit K V Unit :=
  if id = .nil then return ()
  else modify id fun n => { n with parent := parent }

/-- Turns the link from `parent` to `u` into one to `v`. -/
def relink (parent u v : NodeId) : Edit K V Unit := do
  let n ← get parent
  if n.left = u then modify parent (·.setChild .left v)
  else if n.right = u then modify parent (·.setChild .right v)
  else throw (.notAChild u parent)

/-- Puts `v`, which may be the sentinel, in the place of `u` below the parent of `u`. -/
def transplant (u v : NodeId) : Edit K V Unit := do
  let up := (← get u).parent
  relink up u v
  setParent v up

/-- Turns the link between `x` and its child away from `d` towards `d`: the child takes the place
of `x`, and `x` becomes its child. -/
def rotate (x : NodeId) (d : Side) : Edit K V Unit := do
  let y := (← get x).child d.other
  if y = .nil then throw (.rotateWithoutChild d x)
  else
    let inner := (← get y).child d
    modify x (·.setChild d.other inner)
    setParent inner x
    transplant x y
    modify y (·.setChild d x)
    modify x fun n => { n with parent := y }

end Edit

/-! ## Looks -/

namespace Program

def isRed (id : NodeId) : Program K V Bool := do
  return (← look id).color = .red

def isBlack (id : NodeId) : Program K V Bool := do
  return (← look id).color = .black

/-- Looks at `b` only if `a` is black. -/
def areBlack (a b : NodeId) : Program K V Bool := do
  if ← isBlack a then isBlack b else return false

end Program

namespace Tree

/-- Makes an edit under a lock set of the nodes `ids`. -/
def alter (ids : List NodeId) (edit : Edit K V Unit) : Program K V Unit := do
  let _ ← LockSet.within ids none (Section.plain edit)

/-- The nodes whose links change when `x` is rotated towards `d`: its parent, itself, the child
that moves up, and the subtree that changes hands. -/
def rotation (x : NodeId) (d : Side) : Program K V (List NodeId) := do
  let n ← Program.look x
  let y := n.child d.other
  let inner ← Program.child y d
  return [n.parent, x, y, inner]

/-! ## After an insertion -/

/-- The last step of every insertion: a red root turns black. -/
def blackenRoot : Program K V Unit := do
  let r ← root
  if ← Program.isRed r then alter [r] (Edit.paint r .black)
  else return ()

/-- Whether a red node below `p` is fine: there is no red parent above it. -/
def allowsRed (p : NodeId) : Program K V Bool :=
  if p = .anchor then return true else Program.isBlack p

/-- `z` is a red child of the red `zp`, and `zp` its parent's child on `side`. If `z` is not on
that side too, a rotation brings it there; answers with the lower one of the two. -/
def straighten (z zp : NodeId) (side : Side) : Program K V NodeId := do
  if (← Program.child zp side.other) = z then
    let ids ← rotation zp side
    alter ids (Edit.rotate zp side)
    return zp
  else return z

/-- `z` and its parent are red and both on `side`, below the black `zpp`, whose other child is
black. The parent takes the place of `zpp`, and its colour. -/
def raiseParent (z zpp : NodeId) (side : Side) : Program K V Unit := do
  let zp := (← Program.look z).parent
  let ids ← rotation zpp side.other
  alter ids do
    Edit.paint zp .black
    Edit.paint zpp .red
    Edit.rotate zpp side.other

/-- The red node `z` may have a red parent. Recolouring moves the conflict two levels up; when the
uncle is black, one or two rotations end it. -/
def insertFixUp : Nat → NodeId → Program K V Unit
  | 0, _ => .halt .endless
  | fuel + 1, z => do
    let zp := (← Program.look z).parent
    if ← allowsRed zp then blackenRoot
    else
      let zpp := (← Program.look zp).parent
      let g ← Program.look zpp
      let side := g.sideOfChild zp
      let uncle := g.child side.other
      if ← Program.isRed uncle then
        alter [zp, uncle, zpp] do
          Edit.paint zp .black
          Edit.paint uncle .black
          Edit.paint zpp .red
        insertFixUp fuel zpp
      else
        let z ← straighten z zp side
        raiseParent z zpp side
        blackenRoot

/-! ## After an erasure -/

/-- Whether the paths through `x`, below `xp`, lack a black node that only a change further up or
beside them can make good: below the anchor there is nothing to compare with, and a red node can
turn black. -/
def isLacking (x xp : NodeId) : Program K V Bool :=
  if xp = .anchor then return false else Program.isBlack x

/-- The last step of every erasure: a red node in the place that lacks a black one turns black. -/
def blacken (x : NodeId) : Program K V Unit := do
  if x = .nil then return ()
  else if ← Program.isRed x then alter [x] (Edit.paint x .black)
  else return ()

/-- `w` is the sibling of the child of `xp` on the side `near`. A red one is rotated above `xp`;
answers with the sibling after that, which is black. -/
def blackSibling (xp w : NodeId) (near : Side) : Program K V NodeId := do
  if ← Program.isRed w then
    let ids ← rotation xp near
    alter ids do
      Edit.paint w .black
      Edit.paint xp .red
      Edit.rotate xp near
    Program.child xp near.other
  else return w

/-- The sibling `w` has a red child. If it is not the far one, the near one is rotated above `w`;
answers with the sibling after that, whose far child is red. -/
def redFarChild (xp w wNear wFar : NodeId) (near : Side) : Program K V NodeId := do
  if ← Program.isBlack wFar then
    let ids ← rotation w near.other
    alter ids do
      Edit.paint wNear .black
      Edit.paint w .red
      Edit.rotate w near.other
    Program.child xp near.other
  else return w

/-- The sibling `w` takes the place of `xp` and its colour, which brings one black node to the near
side; the far child of `w`, black now, makes up for `w` on the other. -/
def raiseSibling (xp w : NodeId) (near : Side) : Program K V Unit := do
  let wFar ← Program.child w near.other
  let ids ← rotation xp near
  alter (ids ++ [wFar]) do
    let color := (← Edit.get xp).color
    Edit.paint w color
    Edit.paint xp .black
    Edit.paint wFar .black
    Edit.rotate xp near

/-- The paths through `x`, below `xp`, lack one black node. Recolouring the sibling moves the lack
one level up; a rotation at `xp` ends it. -/
def deleteFixUp : Nat → NodeId → NodeId → Program K V Unit
  | 0, _, _ => .halt .endless
  | fuel + 1, x, xp => do
    if ← isLacking x xp then
      let near := (← Program.look xp).sideOfChild x
      let w ← Program.child xp near.other
      if w = .nil then Program.fault (.missingSibling x xp)
      else
        let w ← blackSibling xp w near
        let wNear ← Program.child w near
        let wFar ← Program.child w near.other
        if ← Program.areBlack wNear wFar then
          alter [w] (Edit.paint w .red)
          let up := (← Program.look xp).parent
          deleteFixUp fuel xp up
        else
          let w ← redFarChild xp w wNear wFar near
          raiseSibling xp w near
          blacken (← root)
    else blacken x

end Tree

end LatchTree
