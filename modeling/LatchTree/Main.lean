import LatchTree.Perf.Load

/-!
The command line of the load generator.
-/

open LatchTree.Perf

/-- Reads the profile named on the command line, if it can be read. -/
def readProfile (args : List String) : IO (Option ByteArray) := do
  match (Options.parse? {} args).bind Options.path? with
  | none => return none
  | some path =>
    try
      return some (← IO.FS.readBinFile path)
    catch _ =>
      return none

def main (args : List String) : IO UInt32 := do
  let profile ← readProfile args
  let fallback ← IO.rand 1 0x7FFFFFFFFFFFFFFF
  let outcome := command args (UInt64.ofNat fallback) fun _ => profile
  for line in outcome.lines do
    IO.println line.render
  return outcome.code
