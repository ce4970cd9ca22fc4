import LatchTree.Decimal.Binary64

/-!
Values of configuration documents.
-/

namespace LatchTree.Toml

inductive Value where
  | text (s : String)
  | integer (n : Int)
  /-- The bits of a double. -/
  | float (bits : UInt64)
  | boolean (b : Bool)
  /-- A date, a time, or both, as written. -/
  | moment (s : String)
  | array (vs : List Value)
  /-- Entries in the order of the document; a key may occur more than once. An `extensible` table
  was made by dotted keys alone, and further dotted keys may add to it. -/
  | table (extensible : Bool) (entries : List (String × Value))

abbrev Entries := List (String × Value)

namespace Entries

/-- The value of `key`, the first one if there are several. -/
def find? (es : Entries) (key : String) : Option Value :=
  es.lookup key

def keys (es : Entries) : List String :=
  es.map (·.1)

end Entries

end LatchTree.Toml
