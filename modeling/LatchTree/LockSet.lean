import LatchTree.Store.Program

/-!
Lock sets: several nodes closed to all other threads at once, taken in ascending rank so that no
two threads wait for each other in a cycle.
-/

namespace LatchTree

variable {K V α : Type}

namespace Program

/-- Finds the node in the slot `id`. -/
def resolve (id : NodeId) : Program K V Ref :=
  request (.resolve id)

def read (r : Ref) : Program K V (Node K V) :=
  request (.read r)

def leave (r : Ref) : Program K V Unit :=
  request (.leave r)

def reserve (r : Ref) : Program K V (Node K V) :=
  request (.reserve r)

def unreserve (r : Ref) : Program K V Unit :=
  request (.unreserve r)

/-- Looks at the node `id` for as long as `body` runs. -/
def reading (id : NodeId) (body : Node K V → Program K V α) : Program K V α := do
  let r ← resolve id
  let n ← read r
  let a ← body n
  leave r
  return a

/-- A look at the node `id`. -/
def look (id : NodeId) : Program K V (Node K V) :=
  reading id pure

end Program

namespace Edit

/-- The node `id` of the lock set. -/
def get (id : NodeId) : Edit K V (Node K V) := do
  match (← getThe (Members K V)).lookup id with
  | some n => return n
  | none => throw (.notInSet id)

/-- Overwrites the node `id` of the lock set. -/
def modify (id : NodeId) (f : Node K V → Node K V) : Edit K V Unit := do
  let n ← get id
  modifyThe (Members K V) fun ms => ms.map fun m => if m.1 = id then (id, f n) else m

end Edit

/-- A section of writes that answers with nothing. -/
def Section.plain (edit : Edit K V Unit) : Section K V where
  edit := do
    edit
    return none

namespace LockSet

/-- Adds an id to an ascending list, unless it is there. -/
def insertId (id : NodeId) : List NodeId → List NodeId
  | [] => [id]
  | x :: xs =>
    if id < x then id :: x :: xs
    else if id = x then x :: xs
    else x :: insertId id xs

/-- The distinct ids of a list, ascending; the sentinel is no member. -/
def distinct (ids : List NodeId) : List NodeId :=
  (ids.filter (· ≠ .nil)).foldr insertId []

/-- Adds a member to a list of them in ascending rank. -/
def insertMember (m : NodeId × Ref) : LockSet → LockSet
  | [] => [m]
  | x :: xs => if m.2 ≤ x.2 then m :: x :: xs else x :: insertMember m xs

/-- Members in the order in which they are taken: by rank. -/
def byRank (members : LockSet) : LockSet :=
  members.foldr insertMember []

/-- Finds the node `id`; the one that is held is known already. -/
def find (held : Option (NodeId × Ref)) (id : NodeId) : Program K V Ref :=
  match held with
  | some (h, r) => if h = id then return r else Program.resolve id
  | none => Program.resolve id

/-- Finds the nodes of `ids`. -/
def locate (held : Option (NodeId × Ref)) : List NodeId → Program K V LockSet
  | [] => return []
  | id :: ids => do
    let r ← find held id
    return (id, r) :: (← locate held ids)

/-- Closes the door of one node: from inside, if it is the one that is held. -/
def close (held : Option (NodeId × Ref)) (id : NodeId) (r : Ref) : Program K V Unit :=
  if held.any (·.1 == id) then Program.request (.upgrade r) else Program.request (.latch r)

/-- Closes the nodes one by one and goes in as their readers have left. -/
def acquire (held : Option (NodeId × Ref)) : LockSet → Program K V Unit
  | [] => return ()
  | (id, r) :: rest => do
    close held id r
    Program.request (.lock r)
    acquire held rest

/-- A node that is held has to be one of the members. -/
def checkHeld (held : Option (NodeId × Ref)) (members : LockSet) : Program K V Unit :=
  match held with
  | some (h, _) => if members.any (·.1 == h) then return () else Program.fault (.heldMissing h)
  | none => return ()

/-- Takes the nodes of `ids` for writing, in ascending rank. `held` is a node on which the caller
has a reservation; it has to be one of them. -/
def exclusive (ids : List NodeId) (held : Option (NodeId × Ref)) : Program K V LockSet := do
  let members ← locate held (distinct ids)
  let members := byRank members
  acquire held members
  checkHeld held members
  return members

def release : LockSet → Program K V Unit
  | [] => return ()
  | (_, r) :: rest => do
    Program.request (.unlock r)
    release rest

/-- Takes the nodes of `ids` for writing, reserving the node `held` before if one is named. -/
def takeAll (ids : List NodeId) (held : Option NodeId) : Program K V LockSet := do
  match held with
  | none => exclusive ids none
  | some id =>
    let r ← Program.resolve id
    let _ ← Program.reserve r
    exclusive ids (some (id, r))

/-- One section of writes: takes the nodes of `ids`, makes the writes and lets the nodes go. -/
def within (ids : List NodeId) (held : Option (NodeId × Ref)) (writes : Section K V) :
    Program K V (Option V) := do
  let ls ← exclusive ids held
  let v ← Program.request (.commit ls writes)
  release ls
  return v

end LockSet

namespace Store

/-- The content of a node of the lock set. -/
def memberNode (s : Store K V) (ls : LockSet) (id : NodeId) : Except Fault (Node K V) :=
  ((Edit.get id).run.run (s.members ls)).1

/-- Overwrites a node of the lock set. -/
def editMember (s : Store K V) (ls : LockSet) (id : NodeId) (f : Node K V → Node K V) :
    Except Fault Unit × Store K V :=
  let (r, s) := s.commit ls (Section.plain (Edit.modify id f))
  (r.map fun _ => (), s)

end Store

namespace Program

/-- Looks at two nodes at once, taking the latch of lower rank first. -/
def readPair (r₁ r₂ : Ref) : Program K V (Node K V × Node K V) := do
  if r₁ = r₂ then
    fault .samePair
  else if r₁ < r₂ then
    let n₁ ← read r₁
    let n₂ ← read r₂
    return (n₁, n₂)
  else
    let n₂ ← read r₂
    let n₁ ← read r₁
    return (n₁, n₂)

/-- A look at two nodes at once. -/
def lookPair (r₁ r₂ : Ref) : Program K V (Node K V × Node K V) := do
  let ns ← readPair r₁ r₂
  leave r₁
  leave r₂
  return ns

end Program

end LatchTree
