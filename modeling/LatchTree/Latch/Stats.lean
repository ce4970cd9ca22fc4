import LatchTree.Latch.Word

/-!
What a latch tells about itself.
-/

namespace LatchTree.Latch

structure Stats where
  word : Word := .free
  reads : UInt64 := 0
  writes : UInt64 := 0
  upgrades : UInt64 := 0
  conflicts : UInt64 := 0
  deriving DecidableEq, Repr

namespace Stats

def hexDigits (n : Nat) : String :=
  String.ofList ((Nat.toDigits 16 n).map Char.toUpper)

/-- The word in hexadecimal, eight digits wide. -/
def wordText (w : Word) : String :=
  let digits := hexDigits w.toNat
  String.ofList (List.replicate (8 - digits.length) '0') ++ digits

def render (s : Stats) : String :=
  s!"\x7b latchlock = {hexDigits s.word.toNat}, read_locks = {s.reads}, " ++
    s!"write_locks = {s.writes}, upgrades = {s.upgrades}, conflicts = {s.conflicts} \x7d"

end Stats

end LatchTree.Latch
