import LatchTree.Toml.Document
import LatchTree.Text.Quoted
import LatchTree.Error

/-!
Configuration of an index.
-/

namespace LatchTree

/-- How readers and writers of an index are kept apart. -/
inductive Strategy where
  /-- Every operation holds one mutex. -/
  | global
  /-- Readers share a latch, writers hold it alone. -/
  | readWrite
  /-- Readers latch nodes hand over hand; writers hold the mutex and latch what they relink. -/
  | coupled
  deriving DecidableEq, Repr

namespace Strategy

def name : Strategy → String
  | global => "global"
  | readWrite => "rw"
  | coupled => "coupled"

def constructorName : Strategy → String
  | global => "Global"
  | readWrite => "ReadWrite"
  | coupled => "Coupled"

/-- Reads a name in any case. -/
def ofName? (s : String) : Option Strategy :=
  match s.map Char.toLower with
  | "global" => some global
  | "rw" => some readWrite
  | "coupled" => some coupled
  | _ => none

end Strategy

structure Config where
  name : String := "rbt"
  strategy : Strategy := .global
  /-- Whether waiting threads spin. -/
  spin : Bool := false
  deriving DecidableEq, Repr

/-- Why a text is no configuration. -/
inductive ConfigError where
  /-- It is not well formed, or an entry has a value of another type. -/
  | malformed
  | unknownStrategy (name : String)
  deriving DecidableEq, Repr

namespace ConfigError

/-- The text of the error; a malformed document has none. -/
def message? : ConfigError → Option String
  | malformed => none
  | unknownStrategy name => some s!"invalid strategy {Text.quoted name}"

end ConfigError

namespace Config

def strategyOf (name : String) : Except ConfigError Strategy :=
  match Strategy.ofName? name with
  | some s => .ok s
  | none => .error (.unknownStrategy name)

/-- The value of an entry that may be missing, must not be repeated, and has to be of the type that
`read` takes. -/
def field {α : Type} (es : Toml.Entries) (key : String) (read : Toml.Value → Option α) :
    Except ConfigError (Option α) :=
  match es.filter (·.1 == key) with
  | [] => .ok none
  | [(_, v)] => match read v with
    | some a => .ok (some a)
    | none => .error .malformed
  | _ => .error .malformed

def text? : Toml.Value → Option String
  | .text s => some s
  | _ => none

def boolean? : Toml.Value → Option Bool
  | .boolean b => some b
  | _ => none

/-- Reads `name`, `strategy` and `spin`; whatever else is in the document is passed over. -/
def ofText (text : String) : Except ConfigError Config :=
  match Toml.readLoose? text with
  | none => .error .malformed
  | some es => do
    let name ← field es "name" text?
    let strategy ← field es "strategy" text?
    let spin ← field es "spin" boolean?
    let base : Config := {}
    let strategy ← match strategy with
      | some s => strategyOf s
      | none => .ok base.strategy
    return ⟨name.getD base.name, strategy, spin.getD base.spin⟩

end Config

end LatchTree
