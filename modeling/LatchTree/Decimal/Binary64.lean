/-!
Double precision numbers as exact fractions: what a bit pattern stands for, and the pattern
nearest to a fraction.
-/

namespace LatchTree.Decimal

/-- What a double stands for; a finite one is `m * 2 ^ q`, up to its sign. -/
inductive Double where
  | finite (negative : Bool) (m : Nat) (q : Int)
  | infinite (negative : Bool)
  | nan
  deriving DecidableEq, Repr

/-- The leading bit of the significand of a double that is not subnormal: `2 ^ 52`. -/
def leadingBit : Nat := 0x10000000000000

namespace Double

def ofBits (b : UInt64) : Double :=
  let negative := b >>> 63 != 0
  let biased := (b >>> 52 &&& 0x7FF).toNat
  let fraction := (b &&& 0xFFFFFFFFFFFFF).toNat
  if biased = 0x7FF then
    if fraction = 0 then infinite negative else nan
  else if biased = 0 then finite negative fraction (-1074)
  else finite negative (fraction + leadingBit) ((biased : Int) - 1075)

end Double

/-- `a / b` rounded to the nearest integer, a half to the even one. -/
def roundDiv (a b : Nat) : Nat :=
  let d := a / b
  let r := a % b
  if 2 * r < b ∨ (2 * r = b ∧ d % 2 = 0) then d else d + 1

/-- `n * 2 ^ e / d` as a quotient of two numbers. -/
def scaled (n d : Nat) (e : Int) : Nat × Nat :=
  if e < 0 then (n, d <<< (-e).toNat) else (n <<< e.toNat, d)

/-- The greatest `e` with `2 ^ e ≤ n / d`, for positive `n` and `d`. -/
def log2Quotient (n d : Nat) : Int :=
  let guess := (n.log2 : Int) - d.log2
  let (a, b) := scaled n d (-guess)
  if b ≤ a then guess else guess - 1

/-- The bits of the positive double nearest to `n / d`, a half to the even one; infinity if `n / d`
is beyond all of them. -/
def nearestBits (n d : Nat) : UInt64 :=
  if n = 0 then 0
  else
    let q := max (log2Quotient n d - 52) (-1074)
    let (a, b) := scaled n d (-q)
    let m := roundDiv a b
    let bits := if m < leadingBit then m else (q + 1075).toNat * leadingBit + (m - leadingBit)
    UInt64.ofNat (min bits (0x7FF * leadingBit))

end LatchTree.Decimal
