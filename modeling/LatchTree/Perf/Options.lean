import LatchTree.Config

/-!
Options on the command line of the load generator.
-/

namespace LatchTree.Perf

structure Options where
  seed : Option UInt64 := none
  /-- The path of a profile. -/
  profile : Option String := none
  strategy : Option Strategy := none

namespace Options

/-- A decimal number of 64 bits; a plus may stand before it. -/
def number? (s : String) : Option UInt64 :=
  let digits := match s.toList with
    | '+' :: cs => cs
    | cs => cs
  if digits.isEmpty || !digits.all Char.isDigit then none
  else
    let n := digits.foldl (fun n c => n * 10 + (c.toNat - 48)) 0
    if n < UInt64.size then some (UInt64.ofNat n) else none

/-- Sets one option, which must not be set yet. -/
def put (o : Options) (name value : String) : Option Options :=
  match name with
  | "seed" => if o.seed.isSome then none else (number? value).map fun n => { o with seed := some n }
  | "profile" => if o.profile.isSome then none else some { o with profile := some value }
  | "strategy" =>
    if o.strategy.isSome then none
    else (Strategy.ofName? value).map fun s => { o with strategy := some s }
  | _ => none

/-- The name of an option, and the value after an equals sign if there is one. -/
def split? (arg : String) : Option (String × Option String) :=
  match arg.toList with
  | '-' :: '-' :: cs =>
    let body := cs.dropWhile (· == '-')
    if cs.isEmpty then none
    else if body.contains '=' then
      some (String.ofList (body.takeWhile (· != '=')),
        some (String.ofList ((body.dropWhile (· != '=')).dropWhile (· == '='))))
    else some (String.ofList body, none)
  | _ => none

/-- Only a lone hyphen is a value in spite of how it starts. -/
def isValue (arg : String) : Bool :=
  !arg.startsWith "-" || arg == "-"

/-- Reads the arguments; none may be left over. -/
def parse? (o : Options) : List String → Option Options
  | [] => some o
  | ["--"] => some o
  | arg :: rest => do
    let (name, value) ← split? arg
    match value with
    | some v => parse? (← o.put name v) rest
    | none =>
      match rest with
      | v :: rest => if isValue v then parse? (← o.put name v) rest else none
      | [] => none

/-- The path of the profile; the empty path stands for none. -/
def path? (o : Options) : Option String :=
  o.profile.filter (· != "")

def strategies (o : Options) : List Strategy :=
  match o.strategy with
  | some s => [s]
  | none => [.global, .readWrite, .coupled]

end Options

end LatchTree.Perf
