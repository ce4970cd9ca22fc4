import LatchTree.Toml.Token
import LatchTree.Toml.Number

/-!
The sections of a configuration document: headers in brackets, and the entries below each.
-/

namespace LatchTree.Toml

/-- The entries before the first header are a section with an empty header. -/
structure Section where
  header : List String
  /-- The header is in double brackets. -/
  isElement : Bool
  entries : Entries

/-- Reads from the front of a text; fails if that is not well formed. -/
abbrev Reader (α : Type) := StateT (List Char) Option α

namespace Reader

/-- The next token; none at the end. -/
def next : Reader (Option Token) := do
  match lex (← get) with
  | .malformed => failure
  | .finished => return none
  | .token t rest =>
    set rest
    return some t

/-- Takes the token `t` if it is next. -/
def eat (t : Token) : Reader Bool := do
  match lex (← get) with
  | .malformed => failure
  | .finished => return false
  | .token u rest =>
    if u = t then
      set rest
      return true
    else return false

def expect (t : Token) : Reader Unit := do
  if (← next) ≠ some t then failure

def word : Reader (List Char) := do
  match ← next with
  | some (.word s) => return s
  | _ => failure

def skipBlanks : Reader Unit :=
  modify fun cs => cs.dropWhile isBlank

def lineEnd : Reader Unit := do
  match ← next with
  | none | some .newline => return ()
  | some _ => failure

/-- Takes a comment and the line end after it. -/
def eatComment : Reader Bool := do
  match ← get with
  | '#' :: cs =>
    set (cs.dropWhile isCommentChar)
    lineEnd
    return true
  | _ => return false

/-! ## Keys -/

def key : Reader String := do
  match ← next with
  | some (.word s) => return String.ofList s
  | some (.string s false) => return String.ofList s
  | _ => failure

def moreKeys : Nat → Reader (List String)
  | 0 => failure
  | fuel + 1 => do
    skipBlanks
    if ← eat .period then
      skipBlanks
      let k ← key
      return k :: (← moreKeys fuel)
    else return []

/-- Keys with periods between them. -/
def dottedKey : Reader (List String) := do
  let k ← key
  return k :: (← moreKeys ((← get).length + 1))

/-! ## Numbers and moments -/

/-- Whether `c` is followed by `d` somewhere. -/
def hasPair (c d : Char) (s : List Char) : Bool :=
  (s.zip (s.drop 1)).contains (c, d)

def tryInteger (radix : Nat) (s : List Char) : Reader Value :=
  StateT.lift (integer? radix s)

/-- The exponent of a float, `rest` being what follows its digits. An exponent with a plus is cut
into several tokens. -/
def exponent (rest : List Char) : Reader Int := do
  match rest with
  | [] => return 0
  | c :: cs =>
    if c = 'e' ∨ c = 'E' then
      let d ← if cs.isEmpty then do
          let _ ← eat .plus
          StateT.lift (readDigits false true 10 (← word))
        else StateT.lift (readDigits true true 10 cs)
      if !d.rest.isEmpty then failure
      let n : Int := natOf 10 d.digits
      return if d.negative then -n else n
    else failure

def float (s : List Char) (after : Option (List Char)) : Reader Value := do
  let whole ← StateT.lift (readDigits true false 10 s)
  match after with
  | none =>
    let e ← exponent whole.rest
    StateT.lift (float? whole.negative whole.digits e)
  | some after =>
    if !whole.rest.isEmpty then failure
    let part ← StateT.lift (readDigits false true 10 after)
    let e ← exponent part.rest
    StateT.lift (float? whole.negative (whole.digits ++ part.digits) (e - part.digits.length))

/-- The number that starts with the word `s`. -/
def number (s : List Char) : Reader Value := do
  match s with
  | '0' :: 'x' :: cs => tryInteger 16 cs
  | '0' :: 'o' :: cs => tryInteger 8 cs
  | '0' :: 'b' :: cs => tryInteger 2 cs
  | _ =>
    if s.contains 'e' || s.contains 'E' then float s none
    else if ← eat .period then float s (some (← word))
    else match special? s with
      | some v => return v
      | none => tryInteger 10 s

/-- Takes a blank and the time after a date, if they are there. -/
def eatTime : Reader Unit := do
  match lex (← get) with
  | .token (.blank [' ']) cs =>
    match lex cs with
    | .token (.word _) rest => set rest
    | _ => return ()
  | _ => return ()

/-- The tokens of a moment after its first word; `colon` holds if a colon was taken already. -/
def momentRest (colon : Bool) : Reader Unit := do
  eatTime
  let timed ← if colon then pure true else eat .colon
  if timed then
    let _ ← word
    expect .colon
    let _ ← word
    if ← eat .period then
      let _ ← word
    if ← eat .plus then
      let _ ← word
    if ← eat .colon then
      let _ ← word

/-- A word that has a date in it, not just an exponent. -/
def isDated (s : List Char) : Bool :=
  s.contains 'T' || s.contains 't' ||
    ((s.drop 1).contains '-' && !hasPair 'e' '-' s && !hasPair 'E' '-' s)

/-- The number or moment that starts with the word `s`; `source` is the text from that word on. -/
def numberOrMoment (source s : List Char) : Reader Value := do
  let moment : Reader Value := do
    let rest ← get
    return .moment (String.ofList (source.take (source.length - rest.length)))
  if isDated s then
    momentRest false
    moment
  else if ← eat .colon then
    momentRest true
    moment
  else number s

/-! ## Values -/

/-- Adds an entry under a dotted key. The tables on the way are made as needed; one that is there
already has to be extensible. -/
def insertDotted : List String → Value → Entries → Option Entries
  | [], _, _ => none
  | [k], v, es => some (es ++ [(k, v)])
  | k :: ks, v, es =>
    if es.keys.contains k then extend k ks v es
    else (insertDotted ks v []).map fun inner => es ++ [(k, .table true inner)]
where
  /-- Extends the first table under `k`. -/
  extend (k : String) (ks : List String) (v : Value) : Entries → Option Entries
    | [] => none
    | (k', u) :: es =>
      if k' = k then
        match u with
        | .table true inner =>
          (insertDotted ks v inner).map fun inner => (k', .table true inner) :: es
        | _ => none
      else (extend k ks v es).map fun es => (k', u) :: es

def skipLines : Nat → Reader Unit
  | 0 => return ()
  | fuel + 1 => do
    skipBlanks
    if ← eat .newline then skipLines fuel
    else if ← eatComment then skipLines fuel

mutual

def value : Nat → Reader Value
  | 0 => failure
  | fuel + 1 => do
    let source ← get
    match ← next with
    | some (.string s _) => return .text (String.ofList s)
    | some (.word ['t', 'r', 'u', 'e']) => return .boolean true
    | some (.word ['f', 'a', 'l', 's', 'e']) => return .boolean false
    | some (.word s) =>
      if (special? s).isSome || s.head?.any fun c => c == '-' || c.isDigit then
        numberOrMoment source s
      else failure
    | some .plus => number (← word)
    | some .leftBrace =>
      skipBlanks
      if ← eat .rightBrace then return .table false []
      return .table false (← inlineEntries fuel [])
    | some .leftBracket => return .array (← elements fuel)
    | _ => failure

/-- The entries of a table in braces, from a key on. -/
def inlineEntries : Nat → Entries → Reader Entries
  | 0, _ => failure
  | fuel + 1, es => do
    let k ← dottedKey
    skipBlanks
    expect .equals
    skipBlanks
    let v ← value fuel
    let es ← StateT.lift (insertDotted k v es)
    skipBlanks
    if ← eat .rightBrace then return es
    expect .comma
    skipBlanks
    inlineEntries fuel es

/-- The values of an array, up to its closing bracket. -/
def elements : Nat → Reader (List Value)
  | 0 => failure
  | fuel + 1 => do
    skipLines ((← get).length + 1)
    if ← eat .rightBracket then return []
    let v ← value fuel
    skipLines ((← get).length + 1)
    if ← eat .comma then return v :: (← elements fuel)
    skipLines ((← get).length + 1)
    expect .rightBracket
    return [v]

end

/-! ## Lines -/

/-- A header, from its first bracket on. -/
def header : Reader Section := do
  expect .leftBracket
  let isElement ← eat .leftBracket
  skipBlanks
  let ks ← dottedKey
  expect .rightBracket
  if isElement then
    expect .rightBracket
  skipBlanks
  if !(← eatComment) then
    lineEnd
  return ⟨ks, isElement, []⟩

/-- An entry and the end of its line. -/
def entry (es : Entries) : Reader Entries := do
  let k ← dottedKey
  skipBlanks
  expect .equals
  skipBlanks
  let v ← value ((← get).length + 1)
  skipBlanks
  if !(← eatComment) then
    lineEnd
  StateT.lift (insertDotted k v es)

/-- The sections from here on; `current` is the one under way, if there is one. -/
def sections : Nat → Option Section → Reader (List Section)
  | 0, _ => failure
  | fuel + 1, current => do
    skipLines ((← get).length + 1)
    match lex (← get) with
    | .malformed => failure
    | .finished => return current.toList
    | .token .leftBracket _ =>
      let s ← header
      return current.toList ++ (← sections fuel (some s))
    | .token _ _ =>
      let s := current.getD ⟨[], false, []⟩
      let es ← entry s.entries
      sections fuel (some { s with entries := es })

end Reader

/-- A byte order mark at the front of a document is no part of it. -/
def dropMark : List Char → List Char
  | '\ufeff' :: cs => cs
  | cs => cs

/-- The sections of a document, in order. -/
def sections? (text : String) : Option (List Section) :=
  let cs := dropMark (foldLines text.toList)
  ((Reader.sections (cs.length + 1) none).run cs).map (·.1)

end LatchTree.Toml
