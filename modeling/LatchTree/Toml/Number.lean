import LatchTree.Toml.Value

/-!
Numbers of configuration documents.
-/

namespace LatchTree.Toml

def digitValue? (radix : Nat) (c : Char) : Option Nat :=
  let v :=
    if '0' ≤ c ∧ c ≤ '9' then some (c.toNat - 48)
    else if 'a' ≤ c ∧ c ≤ 'f' then some (c.toNat - 87)
    else if 'A' ≤ c ∧ c ≤ 'F' then some (c.toNat - 55)
    else none
  v.filter (· < radix)

/-- Reads digits with single underscores between them. `first` holds before the first digit,
`zero` after a leading zero, `gap` after an underscore. Answers with the digits and the rest. -/
def digitRun (radix : Nat) (zeros : Bool) :
    Bool → Bool → Bool → List Char → Option (List Char × List Char)
  | first, _, gap, [] => if first || gap then none else some ([], [])
  | first, zero, gap, c :: cs =>
    if c = '0' ∧ first then
      (digitRun radix zeros false true gap cs).map fun (ds, rest) => (c :: ds, rest)
    else if (digitValue? radix c).isSome then
      if !first && zero && !zeros then none
      else (digitRun radix zeros false zero false cs).map fun (ds, rest) => (c :: ds, rest)
    else if c = '_' ∧ first then none
    else if c = '_' ∧ !gap then digitRun radix zeros false zero true cs
    else if first || gap then none
    else some ([], c :: cs)

/-- A whole number as written: its sign, its digits, and what follows them. -/
structure Digits where
  negative : Bool
  digits : List Char
  rest : List Char

/-- Reads a whole number from the front of a word. Leading zeros are refused unless `zeros` is
set. -/
def readDigits (sign zeros : Bool) (radix : Nat) (s : List Char) : Option Digits := do
  let (negative, body) := match s with
    | '-' :: cs => if sign then (true, cs) else (false, s)
    | '+' :: cs => if sign then (false, cs) else (false, s)
    | _ => (false, s)
  let (digits, rest) ← digitRun radix zeros true false false body
  return ⟨negative, digits, rest⟩

def natOf (radix : Nat) (digits : List Char) : Nat :=
  digits.foldl (fun n c => n * radix + (digitValue? radix c).getD 0) 0

/-- A whole number of 64 bits, with nothing after it. -/
def integer? (radix : Nat) (s : List Char) : Option Value := do
  let d ← readDigits (radix == 10) (radix != 10) radix s
  if !d.rest.isEmpty then none
  else
    let n : Int := natOf radix d.digits
    let n := if d.negative then -n else n
    if Int64.minValue.toInt ≤ n ∧ n ≤ Int64.maxValue.toInt then some (.integer n) else none

/-- The double nearest to `± digits * 10 ^ exponent`; one that is beyond all doubles is refused. -/
def float? (negative : Bool) (digits : List Char) (exponent : Int) : Option Value :=
  let n := natOf 10 digits
  let size := digits.length + exponent
  let bits :=
    if n = 0 ∨ size < -400 then 0
    else if 400 < (Nat.toDigits 10 n).length + exponent then 0x7FF0000000000000
    else if exponent < 0 then Decimal.nearestBits n (Nat.pow 10 (-exponent).toNat)
    else Decimal.nearestBits (n * Nat.pow 10 exponent.toNat) 1
  if bits = 0x7FF0000000000000 then none
  else some (.float (if negative then bits ||| 0x8000000000000000 else bits))

def infinityBits : UInt64 := 0x7FF0000000000000

def nanBits : UInt64 := 0x7FF8000000000000

/-- The words for numbers that are not finite. -/
def special? : List Char → Option Value
  | ['i', 'n', 'f'] => some (.float infinityBits)
  | ['-', 'i', 'n', 'f'] => some (.float (infinityBits ||| 0x8000000000000000))
  | ['n', 'a', 'n'] => some (.float nanBits)
  | ['-', 'n', 'a', 'n'] => some (.float (nanBits ||| 0x8000000000000000))
  | _ => none

end LatchTree.Toml
