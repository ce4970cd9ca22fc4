import LatchTree.Text.Quoted

/-!
Key orders. An order is any function; `cyclic` is one that no sorted list can follow.
-/

namespace LatchTree.Key

def byNumber (a b : Int) : Ordering := compare a b

/-- By code point, which is also the order of the encoded bytes. -/
def byText (a b : String) : Ordering := compare a b

def byPair (a b : Int × String) : Ordering :=
  (byNumber a.1 b.1).then (byText a.2 b.2)

def lowerAscii (c : Char) : Char :=
  if 'A' ≤ c ∧ c ≤ 'Z' then Char.ofNat (c.toNat + 32) else c

/-- As text, in which the letters from A to Z count as their lower case. -/
def byFoldedText (a b : String) : Ordering :=
  byText (a.map lowerAscii) (b.map lowerAscii)

/-- Five classes in a ring: each comes before the two that follow it and after the two before. -/
def cyclic (a b : Int) : Ordering :=
  match (5 + b % 5 - a % 5) % 5 with
  | 0 => .eq
  | 1 | 2 => .lt
  | _ => .gt

def pairText (k : Int × String) : String :=
  s!"({k.1}, {Text.quoted k.2})"

end LatchTree.Key
