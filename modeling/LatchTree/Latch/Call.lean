import LatchTree.Latch.Stats

/-!
Calls on a latch, down to single accesses to its word: a load, a compare-and-swap with a word
loaded before, or a fetch-and-modify. Between any two of them other threads may come.
-/

namespace LatchTree.Latch

/-- A latch with its counters. They count only if `counting` is set. -/
structure Door where
  word : Word := .free
  /-- Greater than that of every latch made before. -/
  rank : Nat
  spin : Bool := false
  counting : Bool := false
  reads : UInt32 := 0
  writes : UInt32 := 0
  upgrades : UInt32 := 0
  conflicts : UInt32 := 0
  deriving DecidableEq, Repr

/-- What no interleaving of calls may bring about. -/
inductive Fault where
  | lockedUnlatched
  | lockLost
  | latchedTwice
  | readersUnderLock
  | lockChanged
  deriving DecidableEq, Repr

def Fault.message : Fault → String
  | lockedUnlatched =>
    "if latch is flipped-off, lock can't be flipped-on! call the programmer"
  | lockLost => "latch is acquired, ZERO readers, but unable to lock! call the programmer"
  | latchedTwice => "latch flipped-on for a reserved door! call the programmer"
  | readersUnderLock => "can't have active readers, when lock is held! call the programmer"
  | lockChanged => "cant' have readers/writers to modify when locked! call the programmer"

/-- Where a thread stands within a call: before one access to the word. `seen` is the word that it
loaded last. -/
inductive Point where
  | readLoad (waits : Bool)
  | readSwap (waits : Bool) (seen : Word)
  | reserveLoad
  | reserveSwap (seen : Word)
  | writeLoad
  | writeSwap (seen : Word)
  /-- Holds the reservation and closes the door. -/
  | upgradeLatch
  /-- Has closed the door and waits for the readers. -/
  | lockLoad (upgrading : Bool)
  | lockSwap (upgrading : Bool) (seen : Word)
  | leaveRead
  | leaveReserve
  | leaveWriteLoad
  | leaveWriteSwap (seen : Word)
  deriving DecidableEq, Repr

/-- What an access leads to. -/
inductive Progress where
  | next (p : Point)
  /-- The thread gives way to others and then goes on from `p`. -/
  | giveWay (p : Point)
  | finished (granted : Bool)
  | fault (f : Fault)
  deriving DecidableEq, Repr

namespace Door

def countConflict (d : Door) : Door :=
  if d.counting then { d with conflicts := d.conflicts + 1 } else d

def countRead (d : Door) : Door :=
  if d.counting then { d with reads := d.reads + 1 } else d

def countLock (d : Door) (upgrading : Bool) : Door :=
  if d.counting then
    if upgrading then { d with upgrades := d.upgrades + 1 } else { d with writes := d.writes + 1 }
  else d

def stats (d : Door) : Stats where
  word := d.word
  reads := d.reads.toUInt64
  writes := d.writes.toUInt64
  upgrades := d.upgrades.toUInt64
  conflicts := d.conflicts.toUInt64

end Door

namespace Point

/-- One access. -/
def access (d : Door) : Point → Progress × Door
  | readLoad waits =>
    if d.word.admitsReader then (.next (readSwap waits d.word), d)
    else if waits then (.giveWay (readLoad true), d.countConflict.countConflict)
    else (.finished false, d.countConflict)
  | readSwap waits seen =>
    if d.word = seen then (.finished true, { d with word := seen.enter }.countRead)
    else (.next (readLoad waits), d)
  | reserveLoad =>
    if d.word.admitsReserver then (.next (reserveSwap d.word), d)
    else (.giveWay reserveLoad, d.countConflict)
  | reserveSwap seen =>
    if d.word = seen then (.finished true, { d with word := seen.reserve })
    else (.giveWay reserveLoad, d.countConflict)
  | writeLoad =>
    if d.word.admitsWriter then
      if d.word.isLocked then (.fault .lockedUnlatched, d) else (.next (writeSwap d.word), d)
    else (.giveWay writeLoad, d.countConflict)
  | writeSwap seen =>
    if d.word = seen then (.next (lockLoad false), { d with word := seen.latch })
    else (.giveWay writeLoad, d.countConflict)
  | upgradeLatch =>
    let latched := { d with word := d.word.latch }
    if d.word.admitsReader then (.next (lockLoad true), latched)
    else (.fault .latchedTwice, latched)
  | lockLoad upgrading =>
    if d.word.isDrained then (.next (lockSwap upgrading d.word), d)
    else (.giveWay (lockLoad upgrading), d.countConflict)
  | lockSwap upgrading seen =>
    if d.word = seen then (.finished true, { d with word := seen.lock }.countLock upgrading)
    else (.fault .lockLost, d)
  | leaveRead => (.finished true, { d with word := d.word.leave })
  | leaveReserve => (.finished true, { d with word := d.word.unreserve })
  | leaveWriteLoad =>
    if d.word.isDrained then (.next (leaveWriteSwap d.word), d) else (.fault .readersUnderLock, d)
  | leaveWriteSwap seen =>
    if d.word = seen then (.finished true, { d with word := .free }) else (.fault .lockChanged, d)

/-- Access upon access, until the call ends or gives way. -/
def advance : Nat → Door → Point → Progress × Door
  | 0, d, p => (.giveWay p, d)
  | fuel + 1, d, p =>
    match p.access d with
    | (.next q, d) => advance fuel d q
    | result => result

/-- No call makes more accesses than this in a row when no other thread comes between. -/
def longestRun : Nat := 4

/-- Goes on with a call, with no other thread between its accesses. -/
def proceed (d : Door) (p : Point) : Progress × Door :=
  p.advance longestRun d

end Point

end LatchTree.Latch
