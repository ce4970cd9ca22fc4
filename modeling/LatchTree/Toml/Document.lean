import LatchTree.Toml.Section
import LatchTree.Toml.Moment

/-!
Documents: the sections of a text put together into nested tables. Sections are gathered under the
keys of their headers, each section once. A document is read strictly or loosely: the strict reading
refuses keys that are repeated and moments that are none, and takes a table whose first key is the
marker for a moment.
-/

namespace LatchTree.Toml

namespace Entries

/-- Whether the first key is the marker: a strict reader then takes the table for a moment and
passes over its other entries. -/
def isMoment (es : Entries) : Bool :=
  es.keys.head? == some Moment.marker

/-- Whether the first value is the text of a moment. -/
def namesMoment : Entries → Bool
  | (_, .text s) :: _ => Moment.isValid s
  | _ => false

end Entries

namespace Document

/-- Where the gathering stands in the list of sections: below the first `depth` keys of the header
of section `parent`, looking at sections from `start` up to `stop`. The table is `fresh` until its
first key is found. -/
structure Scope where
  depth : Nat
  parent : Nat
  start : Nat
  stop : Nat
  fresh : Bool

variable (strict : Bool) (sections : Array Section)

/-- The entries of each section that is not used yet. -/
abbrev Open := Array (Option Entries)

/-- Gathers sections; fails if a header is repeated, or is used both for a table and for an array
of tables. -/
abbrev Gather (α : Type) := StateT Open Option α

def headerAt (i : Nat) : List String :=
  match sections[i]? with
  | some s => s.header
  | none => []

def isElementAt (i : Nat) : Bool :=
  match sections[i]? with
  | some s => s.isElement
  | none => false

/-- The first section in range that is open and lies under the given keys. -/
def nextUnder (left : Open) (keys : List String) (sc : Scope) : Option Nat :=
  (List.range sc.stop).find? fun i =>
    sc.start ≤ i && keys.isPrefixOf (headerAt sections i) && (left[i]?.join).isSome

/-- The next element of the array of tables to which section `i` belongs, or the end of range. -/
def nextElement (i stop : Nat) : Nat :=
  ((List.range stop).find? fun j =>
    i < j && headerAt sections j == headerAt sections i && isElementAt sections j).getD stop

/-- Uses section `i`. -/
def take (i : Nat) : Gather Entries := do
  match (← get)[i]?.join with
  | some es =>
    modify fun left => left.set! i none
    return es
  | none => failure

mutual

/-- The entries of the table at `sc`. A strict reader that finds a moment leaves the sections below
it where they are. -/
def tableAt : Nat → Scope → Gather Entries
  | 0, _ => failure
  | fuel + 1, sc => do
    if sc.parent = sc.stop ∨ sc.start = sc.stop then return []
    let above := headerAt sections sc.parent
    match nextUnder sections (← get) (above.take sc.depth) sc with
    | none => return []
    | some i =>
      let here := headerAt sections i
      if sc.parent ≠ i ∧ above = here then failure
      let parent := if here.length < above.length then i else sc.parent
      match here[sc.depth]? with
      | some key =>
        let v ← if isElementAt sections i && sc.depth + 1 == here.length then
            pure (.array (← elementsAt fuel ⟨sc.depth, i, 0, sc.stop, true⟩))
          else
            pure (.table false (← tableAt fuel ⟨sc.depth + 1, i, 0, sc.stop, true⟩))
        return (key, v) :: (← tableAt fuel ⟨sc.depth, parent, i + 1, sc.stop, false⟩)
      | none =>
        if isElementAt sections i then failure
        let es ← take i
        if strict && sc.fresh && es.isMoment then return es
        return es ++ (← tableAt fuel ⟨sc.depth, parent, i, sc.stop, sc.fresh && es.isEmpty⟩)

/-- The elements of the array of tables from section `sc.parent` on. -/
def elementsAt : Nat → Scope → Gather (List Value)
  | 0, _ => failure
  | fuel + 1, sc => do
    if sc.parent = sc.stop then return []
    let next := nextElement sections sc.parent sc.stop
    let es ← take sc.parent
    let inner ← if strict && es.isMoment then pure []
      else tableAt fuel ⟨sc.depth + 1, sc.parent, 0, next, es.isEmpty⟩
    return .table false (es ++ inner) :: (← elementsAt fuel { sc with parent := next })

end

/-- The table that a text describes, before any check of its keys and moments. -/
def gather? (strict : Bool) (text : String) : Option Entries := do
  let sections := (← sections? text).toArray
  let longest := sections.foldl (fun n s => max n s.header.length) 0
  let fuel := 2 * (sections.size + 2) * (longest + 2)
  let scope : Scope := ⟨0, 0, 0, sections.size, true⟩
  let (es, _) ← (tableAt strict sections fuel scope).run (sections.map fun s => some s.entries)
  return es

end Document

/-- The table that a text describes. Keys may occur in it more than once, and moments are not
checked. -/
def readLoose? (text : String) : Option Entries :=
  Document.gather? false text

mutual

/-- Whether no table in the value repeats a key and all moments are real, those that are written as
tables included. -/
def Value.isStrict : Value → Bool
  | .moment s => Moment.isValid s
  | .array vs => allStrict vs
  | .table _ es => if Entries.isMoment es then Entries.namesMoment es else entriesStrict es
  | _ => true

def allStrict : List Value → Bool
  | [] => true
  | v :: vs => v.isStrict && allStrict vs

def entriesStrict : Entries → Bool
  | [] => true
  | (k, v) :: es => v.isStrict && !(Entries.keys es).contains k && entriesStrict es

end

/-- The table that a text describes, each key occurring once. A document that stands for a moment
has no entries. -/
def read? (text : String) : Option Entries := do
  let es ← Document.gather? true text
  if !(Value.table false es).isStrict then none
  else if es.isMoment then return []
  else return es

end LatchTree.Toml
