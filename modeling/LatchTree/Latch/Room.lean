import LatchTree.Latch.Call

/-!
A value behind a latch, with the permissions handed out on it kept under names. A call that cannot
be granted at once waits at the door, where there is room for one.
-/

namespace LatchTree.Latch

inductive Permission where
  | reading
  | reserving
  | writing
  deriving DecidableEq, Repr

/-- The accesses that let a permission go. -/
def Permission.leave : Permission → Point
  | reading => .leaveRead
  | reserving => .leaveReserve
  | writing => .leaveWriteLoad

structure Guard where
  permission : Permission
  rank : Nat
  deriving DecidableEq, Repr

/-- A call that waits: it has come to `point`, and `guard` is what it will be granted. -/
structure Waiting where
  name : String
  point : Point
  guard : Guard
  deriving DecidableEq, Repr

structure Room (α : Type) where
  door : Door
  value : α
  guards : List (String × Guard) := []
  waiting : Option Waiting := none
  /-- Whether a call ever had to wait. -/
  waited : Bool := false

/-- The answer to a call for a permission. -/
inductive Answer where
  | granted
  | pending
  /-- The call would have to wait, and another one does. -/
  | refused
  deriving DecidableEq, Repr

namespace Room

variable {α : Type}

/-- The rank that a latch made now would get. -/
def nextRank (m : Room α) : Nat :=
  m.door.rank + 1

def guard? (m : Room α) (name : String) : Option Guard :=
  m.guards.lookup name

/-- A name is taken while it has a guard or waits for one. -/
def isTaken (m : Room α) (name : String) : Bool :=
  (m.guard? name).isSome || m.waiting.any (·.name == name)

def without (m : Room α) (name : String) : Room α :=
  { m with guards := m.guards.filter (·.1 != name) }

def holding (m : Room α) (name : String) (g : Guard) : Room α :=
  { m with guards := (name, g) :: m.guards }

/-- Starts a call at `p` that leads to the permission `want` under `name`. -/
def call (m : Room α) (name : String) (want : Permission) (p : Point) :
    Except Fault (Answer × Room α) :=
  let g : Guard := ⟨want, m.door.rank⟩
  match p.proceed m.door with
  | (.finished true, d) => .ok (.granted, { m.without name with door := d }.holding name g)
  | (.finished false, d) => .ok (.refused, { m with door := d })
  | (.next q, d) | (.giveWay q, d) =>
    if m.waiting.isSome then .ok (.refused, m)
    else .ok (.pending,
      { m.without name with door := d, waiting := some ⟨name, q, g⟩, waited := true })
  | (.fault f, _) => .error f

def read (m : Room α) (name : String) : Except Fault (Answer × Room α) :=
  m.call name .reading (.readLoad true)

def tryRead (m : Room α) (name : String) : Except Fault (Answer × Room α) :=
  m.call name .reading (.readLoad false)

def reserve (m : Room α) (name : String) : Except Fault (Answer × Room α) :=
  m.call name .reserving .reserveLoad

def write (m : Room α) (name : String) : Except Fault (Answer × Room α) :=
  m.call name .writing .writeLoad

/-- Turns the reservation under `name` into a permission to write. -/
def upgrade (m : Room α) (name : String) : Except Fault (Answer × Room α) :=
  m.call name .writing .upgradeLatch

/-- The waiting call looks at the word again; answers with its name if it is let in. -/
def letIn (m : Room α) : Except Fault (Option String × Room α) :=
  match m.waiting with
  | none => .ok (none, m)
  | some w =>
    match w.point.proceed m.door with
    | (.finished _, d) =>
      .ok (some w.name, { m with door := d, waiting := none }.holding w.name w.guard)
    | (.next q, d) | (.giveWay q, d) =>
      .ok (none, { m with door := d, waiting := some { w with point := q } })
    | (.fault f, _) => .error f

/-- Lets the guard `g` under `name` go; answers with the name of the call let in thereby. -/
def drop (m : Room α) (name : String) (g : Guard) : Except Fault (Option String × Room α) :=
  match g.permission.leave.proceed m.door with
  | (.fault f, _) => .error f
  | (_, d) => { m.without name with door := d }.letIn

end Room

end LatchTree.Latch
