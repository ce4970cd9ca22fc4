/-!
Errors that the library reports: a kind, where it arose, and a message.
-/

namespace LatchTree

inductive ErrorKind where
  /-- The tree, or the lock that guards it, can't be trusted anymore. -/
  | fatal
  | failConvert
  | invalidInput
  | ioError
  | threadFail
  deriving DecidableEq, Repr

def ErrorKind.name : ErrorKind → String
  | fatal => "Fatal"
  | failConvert => "FailConvert"
  | invalidInput => "InvalidInput"
  | ioError => "IOError"
  | threadFail => "ThreadFail"

structure Error where
  kind : ErrorKind
  place : String
  message : String
  deriving DecidableEq, Repr

namespace Error

def render (e : Error) : String :=
  s!"{e.place} {e.kind.name}: {e.message}"

/-- An error that stems from another one, whose text is `cause`; `context` says more. -/
def because (kind : ErrorKind) (place cause : String) (context : Option String) : Error where
  kind := kind
  place := place
  message := match context with
    | some c => s!"{cause} {c}"
    | none => cause

/-- Narrows a number to eight bits. -/
def narrow (place : String) (n : Nat) (context : Option String) : Except Error UInt8 :=
  if n < 256 then .ok (UInt8.ofNat n)
  else .error (because .failConvert place "number too large to fit in target type" context)

end Error

end LatchTree
