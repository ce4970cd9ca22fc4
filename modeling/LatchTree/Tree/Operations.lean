import LatchTree.Tree.Check
import LatchTree.Tree.Lookup
import LatchTree.Tree.Writer

/-!
The operations on a tree, each run with no other thread about. `cmp` orders a stored key against
the key looked for.
-/

namespace LatchTree.Store

variable {K V : Type} (cmp : K → K → Ordering) (s : Store K V)

/-- Sets the value of `k`, and answers with the old one. A key that was present is kept. -/
def set (k : K) (v : V) : Except Halt (Option V) × Store K V :=
  (Tree.set cmp s.patience k v).run s []

/-- Removes the entry of `k`, and answers with its value. -/
def remove (k : K) : Except Halt (Option V) × Store K V :=
  (Tree.remove cmp s.patience k).run s []

/-- The value of `k`, looked up as with no writer about. -/
def find (k : K) : Except Halt (Option V) × Store K V :=
  (Tree.search cmp s.patience k).run s []

/-- The value of `k`, looked up hand over hand. -/
def findCoupled (k : K) : Except Halt (Option V) × Store K V :=
  Lookup.run cmp k s [] (4 * s.patience) .start

def root : Except Halt NodeId × Store K V :=
  Tree.root.run s []

/-- The keys that a search for `k` meets, from the root down. -/
def trail (k : K) : Except Halt (List K) × Store K V :=
  (Tree.root >>= Tree.trail cmp k s.patience).run s []

/-- The nodes from `id` down, each before those on its left and those before the ones on its right.
A broken tree is left off once there are more of them than slots. -/
def preorderFrom : Nat → List NodeId → List (NodeId × Node K V) →
    Except Fault (List (NodeId × Node K V))
  | 0, _, rows => .ok rows.reverse
  | _, [], rows => .ok rows.reverse
  | fuel + 1, id :: ids, rows =>
    if id = .nil then preorderFrom fuel ids rows
    else if s.capacity < rows.length then .ok rows.reverse
    else
      match s.ref? id with
      | some r =>
        let n := s.node r
        preorderFrom fuel (n.left :: n.right :: ids) ((id, n) :: rows)
      | none => .error (.dangling id)

/-- The nodes of the tree in preorder. -/
def preorder : Except Fault (List (NodeId × Node K V)) :=
  preorderFrom s (3 * s.slots.size + 3) [(s.node 1).left] []

/-- Removes the key at the root, again and again, until the tree is empty or `n` are removed. -/
def popRoot : Nat → Store K V → List K → Except Halt (List K) × Store K V
  | 0, s, ks => (.ok ks.reverse, s)
  | n + 1, s, ks =>
    let root := (s.node 1).left
    if root = .nil then (.ok ks.reverse, s)
    else
      match s.ref? root with
      | none => (.error (.fault (.dangling root)), s)
      | some r =>
        match (s.node r).key with
        | none => (.ok ks.reverse, s)
        | some k =>
          match s.remove cmp k with
          | (.ok _, s) => popRoot n s (k :: ks)
          | (.error h, s) => (.error h, s)

/-- Sets entries in order; answers with the number of keys that were new. -/
def setAll : List (K × V) → Store K V → Nat → Except Halt Nat × Store K V
  | [], s, fresh => (.ok fresh, s)
  | (k, v) :: es, s, fresh =>
    match s.set cmp k v with
    | (.ok old, s) => setAll es s (if old.isNone then fresh + 1 else fresh)
    | (.error h, s) => (.error h, s)

/-- Checks the tree, which should have `count` entries. -/
def check (count : Nat) : Except Halt (Except (Violation K) Tree.Report) × Store K V :=
  (Tree.check cmp count).run.run s []

/-- Checks the tree against its own count of entries. -/
def validate : Except Halt (Except (Violation K) Tree.Report) × Store K V :=
  s.check cmp s.len.toNat

end LatchTree.Store
