/-!
The histogram of the depths at which a tree ends.
-/

namespace LatchTree

structure Depth where
  samples : UInt64
  min : UInt64
  max : UInt64
  total : UInt64
  /-- How many samples had each depth; the last bucket takes all from 255 on. -/
  buckets : Vector UInt64 256

namespace Depth

def empty : Depth where
  samples := 0
  min := 0xFFFFFFFFFFFFFFFF
  max := 0
  total := 0
  buckets := Vector.replicate 256 0

/-- The bucket that counts samples of the depth `d`. -/
def bucketOf (d : UInt64) : Fin 256 :=
  ⟨Nat.min d.toNat 255, Nat.lt_succ_of_le (Nat.min_le_right _ _)⟩

def sample (h : Depth) (d : UInt64) : Depth where
  samples := h.samples + 1
  total := h.total + d
  min := Min.min h.min d
  max := Max.max h.max d
  buckets := h.buckets.set (bucketOf d) (h.buckets[bucketOf d] + 1)

/-- The average depth, rounded down. -/
def mean (h : Depth) : UInt64 :=
  if h.samples = 0 then 0 else h.total / h.samples

/-- The buckets that are not empty, ascending. -/
def occupied (h : Depth) : List (Nat × UInt64) :=
  (h.buckets.toList.zipIdx.filter (·.1 ≠ 0)).map fun (n, i) => (i, n)

/-- Adds up buckets in order, and lists a bucket whenever the share reached with it, in percent, is
above the last one listed. -/
def climb (percent : UInt64 → UInt8) (acc : UInt64) (last : UInt8) :
    List (Nat × UInt64) → List (UInt8 × Nat)
  | [] => []
  | (depth, n) :: rest =>
    let acc := acc + n
    let p := percent acc
    if last < p then (p, depth) :: climb percent acc p rest else climb percent acc last rest

/-- The share of `acc` in `samples` in percent, rounded down. It is computed in floating point,
the quotient first. -/
def percent (samples acc : UInt64) : UInt8 :=
  (acc.toFloat / samples.toFloat * 100.0).toUInt8

/-- The depths at which shares above 90 percent are reached. -/
def percentiles (h : Depth) : List (UInt8 × Nat) :=
  climb (percent h.samples) 0 90 h.occupied

def render (h : Depth) : String :=
  let shares := ", ".intercalate (h.percentiles.map fun (p, d) => s!"\"{p}\" = {d}")
  s!"\x7b samples={h.samples}, min={h.min}, mean={h.mean}, max={h.max}, " ++
    s!"percentiles=\x7b {shares} \x7d \x7d"

end Depth

end LatchTree
