import LatchTree.Decimal.Binary64

/-!
The fewest decimal digits that read back as the same double, and of those the nearest to it; of two
that are equally near, the greater in magnitude.
-/

namespace LatchTree.Decimal

/-- The positive fractions that round to `m * 2 ^ q`, in units of `2 ^ (q - 2)`: from `lo` to `hi`,
the ends included if `closed`. -/
structure Interval where
  lo : Nat
  hi : Nat
  closed : Bool

def Interval.of (m : Nat) (q : Int) : Interval where
  lo := if m = leadingBit ∧ -1074 < q then 4 * m - 1 else 4 * m - 2
  hi := 4 * m + 2
  closed := m % 2 = 0

/-- `d * 10 ^ k` as a quotient of two numbers. -/
def decimalQuotient (d : Nat) (k : Int) : Nat × Nat :=
  if k < 0 then (d, Nat.pow 10 (-k).toNat) else (d * Nat.pow 10 k.toNat, 1)

/-- Whether `d * 10 ^ k` lies in the interval, whose unit is `2 ^ u`. -/
def Interval.has (i : Interval) (u : Int) (d : Nat) (k : Int) : Bool :=
  let (a, b) := decimalQuotient d k
  let (a, b) := scaled a b (-u)
  if i.closed then i.lo * b ≤ a && a ≤ i.hi * b else i.lo * b < a && a < i.hi * b

/-- The least `p` from `-fuel` on with `n / d < 10 ^ (p + 1)`. -/
def log10Below (n d : Nat) : Nat → Int
  | 0 => 0
  | fuel + 1 =>
    if n * Nat.pow 10 (fuel + 1) < d * 10 then -(fuel + 1 : Int) else log10Below n d fuel

/-- The greatest `p` with `10 ^ p ≤ n / d`, for positive `n` and `d` above `10 ^ -400`. -/
def log10Quotient (n d : Nat) : Int :=
  if d ≤ n then ((Nat.toDigits 10 (n / d)).length : Int) - 1 else log10Below n d 400

/-- `a / b` rounded to the nearest integer, a half upwards. -/
def roundHalfUp (a b : Nat) : Nat :=
  (2 * a + b) / (2 * b)

/-- A neighbour of `n / d` on the grid of multiples of `10 ^ k` that lies in the interval: the
nearer one if it does, else the other. From the middle, the greater one counts as the nearer. -/
def neighbour? (i : Interval) (u : Int) (n d : Nat) (k : Int) : Option Nat :=
  let (a, b) :=
    if k < 0 then (n * Nat.pow 10 (-k).toNat, d) else (n, d * Nat.pow 10 k.toNat)
  let below := a / b
  let near := roundHalfUp a b
  let other := if near = below then below + 1 else below
  if i.has u near k then some near
  else if i.has u other k then some other
  else none

/-- Tries ever finer grids, of `digits` digits and more. -/
def shortestFrom (i : Interval) (u : Int) (n d : Nat) (p : Int) : Nat → Nat → Nat × Int
  | 0, digits => (n / d, digits)
  | fuel + 1, digits =>
    let k := p - digits + 1
    match neighbour? i u n d k with
    | some x => (x, k)
    | none => shortestFrom i u n d p fuel (digits + 1)

/-- Drops zeros at the end of `d`, raising the exponent. -/
def dropZeros : Nat → Nat → Int → Nat × Int
  | 0, d, k => (d, k)
  | fuel + 1, d, k => if d % 10 = 0 ∧ d ≠ 0 then dropZeros fuel (d / 10) (k + 1) else (d, k)

/-- Digits `d` and exponent `k` such that `d * 10 ^ k` is the shortest decimal that reads back as
`m * 2 ^ q`, for positive `m`. Seventeen digits always suffice. -/
def shortest (m : Nat) (q : Int) : Nat × Int :=
  let (n, d) := scaled m 1 q
  let (x, k) := shortestFrom (Interval.of m q) (q - 2) n d (log10Quotient n d) 17 1
  dropZeros 20 x k

/-- Digits and a point, without an exponent. -/
def positional (d : Nat) (k : Int) : String :=
  if 0 ≤ k then toString (d * Nat.pow 10 k.toNat)
  else
    let places := (-k).toNat
    let digits := Nat.toDigits 10 d
    let padded := List.replicate (places + 1 - digits.length) '0' ++ digits
    let whole := padded.length - places
    String.ofList (padded.take whole ++ '.' :: padded.drop whole)

def Double.render : Double → String
  | finite negative m q =>
    let (d, k) := if m = 0 then (0, 0) else shortest m q
    (if negative then "-" else "") ++ positional d k
  | infinite negative => if negative then "-inf" else "inf"
  | nan => "NaN"

end LatchTree.Decimal
