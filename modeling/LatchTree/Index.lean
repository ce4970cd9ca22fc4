import LatchTree.Tree.Operations
import LatchTree.Stats

/-!
The index: a tree together with the mutex and the latch by which its strategy keeps readers and
writers apart. All handles on an index share one `Index`.
-/

namespace LatchTree

/-- A mutex is poisoned once an operation met a fault while it held it. -/
structure Mutex where
  locked : Bool := false
  poisoned : Bool := false
  deriving DecidableEq, Repr

structure Index (K V : Type) where
  name : String
  strategy : Strategy
  spin : Bool
  mutex : Mutex := {}
  latch : Latch.Word := .free
  store : Store K V

/-- What an operation on the index holds while it runs. -/
inductive Permit where
  | mutex
  /-- The latch, together with other readers. -/
  | shared
  /-- The latch alone. -/
  | exclusive
  deriving DecidableEq, Repr

namespace Strategy

def writePermit : Strategy → Permit
  | global | coupled => .mutex
  | readWrite => .exclusive

/-- Lookups hand over hand need no permit. -/
def readPermit : Strategy → Option Permit
  | global => some .mutex
  | readWrite => some .shared
  | coupled => none

/-- What holds writers off. -/
def quietPermit : Strategy → Permit
  | global | coupled => .mutex
  | readWrite => .shared

end Strategy

namespace Index

variable {K V α : Type}

def ofConfig (c : Config) : Index K V where
  name := c.name
  strategy := c.strategy
  spin := c.spin
  store := .empty c.spin

def len (ix : Index K V) : UInt64 :=
  ix.store.len

def isEmpty (ix : Index K V) : Bool :=
  ix.len == 0

/-- Takes a permit; waits forever if it is held, and fails on a poisoned mutex. -/
def acquire (ix : Index K V) : Permit → Except Halt (Index K V)
  | .mutex =>
    if ix.mutex.locked then .error .waiting
    else if ix.mutex.poisoned then .error (.fault (.poisoned ix.name))
    else .ok { ix with mutex := { ix.mutex with locked := true } }
  | .shared =>
    if ix.latch.admitsReader then .ok { ix with latch := ix.latch.enter } else .error .waiting
  | .exclusive =>
    if ix.latch.admitsWriter && ix.latch.isDrained then
      .ok { ix with latch := ix.latch.latch.lock }
    else .error .waiting

/-- Gives a permit back; `failed` holds if a fault was met under it. -/
def release (ix : Index K V) (failed : Bool) : Permit → Index K V
  | .mutex => { ix with mutex := ⟨false, ix.mutex.poisoned || failed⟩ }
  | .shared => { ix with latch := ix.latch.leave }
  | .exclusive => { ix with latch := .free }

/-- Runs `body` under a permit. -/
def under (ix : Index K V) (p : Permit) (body : Index K V → Except Halt α × Index K V) :
    Except Halt α × Index K V :=
  match ix.acquire p with
  | .error h => (.error h, ix)
  | .ok ix =>
    match body ix with
    | (.ok a, ix) => (.ok a, ix.release false p)
    | (.error (.fault f), ix) => (.error (.fault f), ix.release true p)
    | (.error h, ix) => (.error h, ix)

/-- Runs an operation on the tree. -/
def onStore (ix : Index K V) (op : Store K V → Except Halt α × Store K V) :
    Except Halt α × Index K V :=
  let (r, s) := op ix.store
  (r, { ix with store := s })

variable (cmp : K → K → Ordering)

def lookup (ix : Index K V) (k : K) : Except Halt (Option V) × Index K V :=
  match ix.strategy.readPermit with
  | some p => ix.under p fun ix => ix.onStore fun s => s.find cmp k
  | none => ix.onStore fun s => s.findCoupled cmp k

/-- Sets the value of `k`, and answers with the old one. -/
def set (ix : Index K V) (k : K) (v : V) : Except Halt (Option V) × Index K V :=
  ix.under ix.strategy.writePermit fun ix => ix.onStore fun s => s.set cmp k v

/-- Sets the value of `k`. -/
def insert (ix : Index K V) (k : K) (v : V) : Except Halt Unit × Index K V :=
  let (r, ix) := ix.set cmp k v
  (r.map fun _ => (), ix)

/-- Removes the entry of `k`, and answers with its value. -/
def remove (ix : Index K V) (k : K) : Except Halt (Option V) × Index K V :=
  ix.under ix.strategy.writePermit fun ix => ix.onStore fun s => s.remove cmp k

/-- Removes the entry of `k`, and answers whether there was one. -/
def erase (ix : Index K V) (k : K) : Except Halt Bool × Index K V :=
  let (r, ix) := ix.remove cmp k
  (r.map (·.isSome), ix)

/-- Sets entries in order; answers with the number of keys that were new. -/
def setAll : List (K × V) → Index K V → Nat → Except Halt Nat × Index K V
  | [], ix, fresh => (.ok fresh, ix)
  | (k, v) :: es, ix, fresh =>
    match ix.set cmp k v with
    | (.ok old, ix) => setAll es ix (if old.isNone then fresh + 1 else fresh)
    | (.error h, ix) => (.error h, ix)

/-- Erases keys in order; answers with the number of those that were there. -/
def eraseAll : List K → Index K V → Nat → Except Halt Nat × Index K V
  | [], ix, found => (.ok found, ix)
  | k :: ks, ix, found =>
    match ix.erase cmp k with
    | (.ok there, ix) => eraseAll ks ix (if there then found + 1 else found)
    | (.error h, ix) => (.error h, ix)

/-- Looks keys up in order. -/
def lookupAll : List K → Index K V → Except Halt (List (Option V)) × Index K V
  | [], ix => (.ok [], ix)
  | k :: ks, ix =>
    match ix.lookup cmp k with
    | (.ok v, ix) =>
      let (vs, ix) := lookupAll ks ix
      (vs.map (v :: ·), ix)
    | (.error h, ix) => (.error h, ix)

/-- Checks the tree, without a permit. -/
def validate (ix : Index K V) : Except Halt Bool × Index K V :=
  ix.onStore fun s =>
    let (r, s) := s.validate cmp
    (r.map (·.isOk), s)

def stats (ix : Index K V) : Stats where
  name := ix.name
  strategy := ix.strategy
  spin := ix.spin
  nodeSize := none
  count := ix.store.len
  slots := UInt64.ofNat ix.store.capacity
  latch := { word := ix.latch }
  table := { word := ix.store.table }

/-- Checks the tree with writers held off, and answers with full statistics. -/
def verify (ix : Index K V) : Except Halt (Except (Violation K) Stats) × Index K V :=
  ix.under ix.strategy.quietPermit fun ix =>
    let stats := ix.stats
    ix.onStore fun s =>
      let (r, s) := s.validate cmp
      (r.map fun checked => checked.map fun report =>
        { stats with
          blacks := some (UInt64.ofNat report.blacks)
          depths := some report.depths }, s)

/-- Holds writers off, gives up, and lets go. -/
def giveUp (ix : Index K V) (message : String) : Except Halt Unit × Index K V :=
  ix.under ix.strategy.quietPermit fun ix => (.error (.fault (.raised message)), ix)

end Index

end LatchTree
