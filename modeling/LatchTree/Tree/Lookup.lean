import LatchTree.Tree.Search

/-!
Looking an entry up next to a writer: hand over hand, the latch of a node let go only when that
of its child is held. A lookup is a machine of phases, each of which makes one request.
-/

namespace LatchTree

variable {K V α σ : Type}

/-- What a machine does next: it ends, or it makes a request and goes on with the answer. -/
inductive Turn (K V σ α : Type) where
  | done (a : α)
  | fault (f : Fault)
  | ask (q : Request K V) (next : q.Answer → σ)

/-- A lookup under way. `seen` is the count of relocations at its start; `cur` is the node it has
come to, `n` the content of that node, and `next` the child on the side of the key. -/
inductive Lookup (K V : Type) where
  | start
  | atTop (seen : UInt64)
  | entering (seen : UInt64) (top : Ref)
  /-- Holds `cur` and has found nothing below it. -/
  | missed (seen : UInt64) (cur : Ref)
  /-- Holds `cur`. -/
  | resolving (seen : UInt64) (cur : Ref) (n : Node K V) (next : NodeId)
  /-- Holds `cur`. -/
  | stepping (seen : UInt64) (cur : Ref) (n : Node K V) (next : NodeId) (child : Ref)
  /-- Holds `cur` and `child`, and is about to let go of `cur`. -/
  | moving (seen : UInt64) (cur child : Ref) (m : Node K V)
  /-- Holds `cur`; the child is the older of the two, and a writer has it closed. -/
  | backing (seen : UInt64) (cur : Ref) (next : NodeId) (child : Ref)
  /-- Holds nothing. -/
  | apart (seen : UInt64) (cur : Ref) (next : NodeId) (child : Ref)
  /-- Holds `cur`, the older of the pair. -/
  | againParent (seen : UInt64) (cur : Ref) (n : Node K V) (next : NodeId) (child : Ref)
  /-- Holds `child`, the older of the pair. -/
  | againChild (seen : UInt64) (cur : Ref) (next : NodeId) (child : Ref) (m : Node K V)
  /-- Holds both, and `next` is still the link from `cur`. -/
  | checking (seen : UInt64) (cur : Ref) (next : NodeId) (child : Ref) (m : Node K V)
  /-- Lets go of what it holds and starts again. -/
  | retreating (first : Ref) (rest : List Ref)
  /-- Holds `cur` and has its answer. -/
  | answering (cur : Ref) (v : Option V)
  | finished (v : Option V)

namespace Lookup

variable (cmp : K → K → Ordering) (k : K)

/-- The decision at the node `cur`, which is held. -/
def visit (seen : UInt64) (cur : Ref) (n : Node K V) : Lookup K V :=
  if n.order cmp k = .eq then .answering cur n.value
  else if n.towards cmp k = .nil then .missed seen cur
  else .resolving seen cur n (n.towards cmp k)

/-- Both nodes are held again: the link from one to the other has to be there still. -/
def rejoin (seen : UInt64) (cur : Ref) (n : Node K V) (next : NodeId) (child : Ref)
    (m : Node K V) : Lookup K V :=
  if n.towards cmp k = next then .checking seen cur next child m
  else .retreating child [cur]

def turn : Lookup K V → Turn K V (Lookup K V) (Option V)
  | start => .ask .relocations fun seen => atTop seen
  | atTop seen => .ask (.resolve .anchor) fun top => entering seen top
  | entering seen top => .ask (.read top) fun n => visit cmp k seen top n
  | missed seen cur => .ask .relocations fun (now : UInt64) =>
    if now = seen then answering cur none else retreating cur []
  | resolving seen cur n next => .ask (.resolve next) fun child => stepping seen cur n next child
  | stepping seen cur _ next child =>
    if cur < child then
      .ask (.read child) fun m => moving seen cur child m
    else
      .ask (.tryRead child) fun
        | some m => moving seen cur child m
        | none => backing seen cur next child
  | moving seen cur child m => .ask (.leave cur) fun _ => visit cmp k seen child m
  | backing seen cur next child => .ask (.leave cur) fun _ => apart seen cur next child
  | apart seen cur next child =>
    if cur = child then .fault .samePair
    else if cur < child then
      .ask (.read cur) fun n => againParent seen cur n next child
    else
      .ask (.read child) fun m => againChild seen cur next child m
  | againParent seen cur n next child =>
    .ask (.read child) fun m => rejoin cmp k seen cur n next child m
  | againChild seen cur next child m =>
    .ask (.read cur) fun n => rejoin cmp k seen cur n next child m
  | checking seen cur next child m => .ask (.resolve next) fun (now : Ref) =>
    if now = child then moving seen cur child m else retreating child [cur]
  | retreating first rest => .ask (.leave first) fun _ =>
    match rest with
    | [] => start
    | r :: rest => retreating r rest
  | answering cur v => .ask (.leave cur) fun _ => finished v
  | finished v => .done v

/-- Runs a lookup with no other thread about, for at most `fuel` turns. -/
def run (s : Store K V) (hs : List Hold) : Nat → Lookup K V → Except Halt (Option V) × Store K V
  | 0, _ => (.error .endless, s.unwind hs)
  | fuel + 1, l =>
    match l.turn cmp k with
    | .done v => (.ok v, s)
    | .fault f => (.error (.fault f), s.unwind hs)
    | .ask q next =>
      if q.enabled s then
        match q.serve s with
        | (.ok a, s) => run s (q.held hs a) fuel (next a)
        | (.error f, s) => (.error (.fault f), s.unwind hs)
      else (.error .waiting, s)

end Lookup

end LatchTree
