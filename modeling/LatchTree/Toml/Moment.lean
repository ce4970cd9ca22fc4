/-!
Dates and times of configuration documents.
-/

namespace LatchTree.Toml.Moment

/-- A table with this first key stands for a moment, whose text is the value of the key. -/
def marker : String :=
  "$__toml_private_datetime"

/-- A number of exactly `count` decimal digits. -/
def number? (count : Nat) (cs : List Char) : Option (Nat × List Char) :=
  let digits := cs.take count
  if digits.length = count ∧ digits.all Char.isDigit then
    some (digits.foldl (fun n c => n * 10 + (c.toNat - 48)) 0, cs.drop count)
  else none

def expect? (c : Char) : List Char → Option (List Char)
  | d :: rest => if d = c then some rest else none
  | [] => none

def date? (cs : List Char) : Option (List Char) := do
  let (_, cs) ← number? 4 cs
  let cs ← expect? '-' cs
  let (month, cs) ← number? 2 cs
  let cs ← expect? '-' cs
  let (day, cs) ← number? 2 cs
  if 1 ≤ month ∧ month ≤ 12 ∧ 1 ≤ day ∧ day ≤ 31 then return cs else none

def fraction? : List Char → Option (List Char)
  | '.' :: cs =>
    if (cs.takeWhile Char.isDigit).isEmpty then none else some (cs.dropWhile Char.isDigit)
  | cs => some cs

def time? (cs : List Char) : Option (List Char) := do
  let (hour, cs) ← number? 2 cs
  let cs ← expect? ':' cs
  let (minute, cs) ← number? 2 cs
  let cs ← expect? ':' cs
  let (second, cs) ← number? 2 cs
  let cs ← fraction? cs
  if hour ≤ 24 ∧ minute ≤ 59 ∧ second ≤ 59 then return cs else none

/-- The offset from universal time; it may be missing. -/
def offset? : List Char → Option (List Char)
  | [] => some []
  | c :: cs =>
    if c = 'Z' ∨ c = 'z' then some cs
    else if c = '+' ∨ c = '-' then do
      let (_, cs) ← number? 2 cs
      let cs ← expect? ':' cs
      let (_, cs) ← number? 2 cs
      return cs
    else none

/-- A date, a time of day, or a date, a time and possibly an offset. -/
def isValid (s : String) : Bool :=
  let cs := s.toList
  let rest :=
    if 3 ≤ cs.length ∧ cs[2]? = some ':' then time? cs
    else do
      match ← date? cs with
      | c :: cs =>
        if c = 'T' ∨ c = 't' ∨ c = ' ' then offset? (← time? cs) else none
      | [] => return []
  rest == some []

end LatchTree.Toml.Moment
