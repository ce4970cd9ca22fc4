/-!
A seeded generator of random numbers: four words, stepped by xoshiro256++.
-/

namespace LatchTree

structure Random where
  s0 : UInt64
  s1 : UInt64
  s2 : UInt64
  s3 : UInt64
  deriving DecidableEq, Repr

namespace Random

def rotateLeft (x : UInt64) (n : UInt64) : UInt64 :=
  x <<< n ||| x >>> (64 - n)

def rotateRight32 (x n : UInt32) : UInt32 :=
  x >>> n ||| x <<< ((32 - n) &&& 31)

/-- One step of the seeding: the next state, and 32 bits drawn from it. -/
def stir (state : UInt64) : UInt64 × UInt64 :=
  let state := state * 6364136223846793005 + 11634580027462260723
  let drawn := (((state >>> 18) ^^^ state) >>> 27).toUInt32
  (state, (rotateRight32 drawn (state >>> 59).toUInt32).toUInt64)

/-- One word of the seeding, its lower half drawn first. -/
def stirWord (state : UInt64) : UInt64 × UInt64 :=
  let (state, low) := stir state
  let (state, high) := stir state
  (state, high <<< 32 ||| low)

def ofSeed (seed : UInt64) : Random :=
  let (state, s0) := stirWord seed
  let (state, s1) := stirWord state
  let (state, s2) := stirWord state
  let (_, s3) := stirWord state
  ⟨s0, s1, s2, s3⟩

/-- The next 64 random bits. -/
def next (r : Random) : UInt64 × Random :=
  let drawn := rotateLeft (r.s0 + r.s3) 23 + r.s0
  let t := r.s1 <<< 17
  let s2 := r.s2 ^^^ r.s0
  let s3 := r.s3 ^^^ r.s1
  let s1 := r.s1 ^^^ s2
  let s0 := r.s0 ^^^ s3
  (drawn, ⟨s0, s1, s2 ^^^ t, rotateLeft s3 45⟩)

/-- The next multiple of `2 ^ -53` from 0 up to 1, not including 1. -/
def nextFloat (r : Random) : Float × Random :=
  let (n, r) := r.next
  ((n >>> 11).toFloat * Float.ofBits 0x3CA0000000000000, r)

end Random

end LatchTree
