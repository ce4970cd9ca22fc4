/-!
The word of a latch: who is inside and who waits at the door, in 32 bits.
-/

namespace LatchTree.Latch

/-- Bits 0 to 28 count the readers inside, bit 29 is the reservation of an upgradable reader,
bit 30 is set from the moment a writer closes the door, bit 31 while a writer is inside. -/
abbrev Word := UInt32

namespace Word

def readersMask : Word := 0x1FFFFFFF
def reservedBit : Word := 0x20000000
def latchedBit : Word := 0x40000000
def lockedBit : Word := 0x80000000

def readers (w : Word) : Word := w &&& readersMask

def isReserved (w : Word) : Bool := w &&& reservedBit != 0

def isLatched (w : Word) : Bool := w &&& latchedBit != 0

def isLocked (w : Word) : Bool := w &&& lockedBit != 0

/-- A reader enters unless a writer is inside or has closed the door. -/
def admitsReader (w : Word) : Bool := w &&& (latchedBit ||| lockedBit) == 0

/-- There is one reservation at a time, and none while a writer is inside or due. -/
def admitsReserver (w : Word) : Bool := w &&& (latchedBit ||| lockedBit ||| reservedBit) == 0

/-- A writer closes the door unless another has, or the door is reserved. -/
def admitsWriter (w : Word) : Bool := w &&& (latchedBit ||| reservedBit) == 0

/-- The writer that closed the door goes in once no reader is left. -/
def isDrained (w : Word) : Bool := w.readers == 0

def enter (w : Word) : Word := w + 1

def leave (w : Word) : Word := w - 1

def reserve (w : Word) : Word := w ||| reservedBit

def unreserve (w : Word) : Word := w &&& ~~~reservedBit

/-- Closes the door. -/
def latch (w : Word) : Word := w ||| latchedBit

/-- Goes in, turning a reservation into the write permission. -/
def lock (w : Word) : Word := (w ||| lockedBit) &&& ~~~reservedBit

/-- What a writer leaves behind. -/
def free : Word := 0

end Word

end LatchTree.Latch
