/-!
The tokens of a configuration document.
-/

namespace LatchTree.Toml

inductive Token where
  | blank (s : List Char)
  | newline
  | comment
  | equals
  | period
  | comma
  | colon
  | plus
  | leftBrace
  | rightBrace
  | leftBracket
  | rightBracket
  /-- A bare key, a number or a part of one, or a name such as `true`. -/
  | word (s : List Char)
  | string (s : List Char) (multiline : Bool)
  deriving DecidableEq, Repr

/-- What the rest of a document starts with. -/
inductive Lexeme where
  | malformed
  | finished
  | token (t : Token) (rest : List Char)

/-- A line may end with a carriage return before the line feed. -/
def foldLines : List Char → List Char
  | '\r' :: '\n' :: rest => '\n' :: foldLines rest
  | c :: rest => c :: foldLines rest
  | [] => []

def isWordChar (c : Char) : Bool :=
  c.isAlphanum || c == '-' || c == '_'

def isBlank (c : Char) : Bool :=
  c == ' ' || c == '\t'

/-- Tabs and what is not a control stand for themselves in strings. -/
def isStringChar (c : Char) : Bool :=
  c == '\t' || (' ' ≤ c && c != '\x7f')

def isCommentChar (c : Char) : Bool :=
  c == '\t' || ' ' ≤ c

def hexValue? (c : Char) : Option Nat :=
  if '0' ≤ c ∧ c ≤ '9' then some (c.toNat - 48)
  else if 'a' ≤ c ∧ c ≤ 'f' then some (c.toNat - 87)
  else if 'A' ≤ c ∧ c ≤ 'F' then some (c.toNat - 55)
  else none

/-- A character by its code, of exactly `count` hexadecimal digits. -/
def codeEscape (count : Nat) (cs : List Char) : Option (Char × List Char) := do
  let digits ← (cs.take count).mapM hexValue?
  if digits.length = count then
    let code := digits.foldl (fun n d => n * 16 + d) 0
    if h : code.isValidChar then return (Char.ofNatAux code h, cs.drop count) else none
  else none

/-- A backslash at the end of a line of a multi-line string swallows the line end and all blanks
and line ends after it. -/
def skipLineEnd (cs : List Char) : Option (List Char) :=
  match cs.dropWhile isBlank with
  | '\n' :: rest => some (rest.dropWhile fun c => isBlank c || c == '\n')
  | _ => none

/-- What follows a backslash: the characters it stands for. -/
def escape (multiline : Bool) : List Char → Option (List Char × List Char)
  | '"' :: rest => some (['"'], rest)
  | '\\' :: rest => some (['\\'], rest)
  | 'b' :: rest => some (['\x08'], rest)
  | 'f' :: rest => some (['\x0c'], rest)
  | 'n' :: rest => some (['\n'], rest)
  | 'r' :: rest => some (['\r'], rest)
  | 't' :: rest => some (['\t'], rest)
  | 'u' :: rest => (codeEscape 4 rest).map fun (c, rest) => ([c], rest)
  | 'U' :: rest => (codeEscape 8 rest).map fun (c, rest) => ([c], rest)
  | cs => if multiline then (skipLineEnd cs).map fun rest => ([], rest) else none

/-- The text up to the closing quotes, read backwards into `acc`. In a multi-line string one or two
quotes in a row are text, also right before the closing ones. -/
def stringBody (quote : Char) (multiline : Bool) :
    Nat → List Char → List Char → Option (List Char × List Char)
  | 0, _, _ => none
  | _, _, [] => none
  | fuel + 1, acc, c :: cs =>
    if c = '\n' then
      if multiline then stringBody quote multiline fuel (c :: acc) cs else none
    else if c = quote then
      if multiline then
        let more := min (cs.takeWhile (· == quote)).length 4
        let rest := cs.drop more
        if more < 2 then
          stringBody quote multiline fuel (List.replicate (more + 1) quote ++ acc) rest
        else
          some ((List.replicate (more - 2) quote ++ acc).reverse, rest)
      else some (acc.reverse, cs)
    else if c = '\\' ∧ quote = '"' then
      match escape multiline cs with
      | some (text, rest) => stringBody quote multiline fuel (text.reverse ++ acc) rest
      | none => none
    else if isStringChar c then stringBody quote multiline fuel (c :: acc) cs
    else none

/-- A string, after its first quote. A line end right after the opening of a multi-line string is
not part of it. -/
def string (quote : Char) (cs : List Char) : Lexeme :=
  match cs with
  | c :: d :: rest =>
    if c = quote ∧ d = quote then
      let rest := match rest with
        | '\n' :: rest => rest
        | rest => rest
      closed true rest
    else if c = quote then .token (.string [] false) (d :: rest)
    else closed false cs
  | [c] => if c = quote then .token (.string [] false) [] else .malformed
  | [] => .malformed
where
  closed (multiline : Bool) (cs : List Char) : Lexeme :=
    match stringBody quote multiline (cs.length + 1) [] cs with
    | some (text, rest) => .token (.string text multiline) rest
    | none => .malformed

def lex : List Char → Lexeme
  | [] => .finished
  | '\n' :: cs => .token .newline cs
  | '#' :: cs => .token .comment (cs.dropWhile isCommentChar)
  | '=' :: cs => .token .equals cs
  | '.' :: cs => .token .period cs
  | ',' :: cs => .token .comma cs
  | ':' :: cs => .token .colon cs
  | '+' :: cs => .token .plus cs
  | '\x7b' :: cs => .token .leftBrace cs
  | '\x7d' :: cs => .token .rightBrace cs
  | '[' :: cs => .token .leftBracket cs
  | ']' :: cs => .token .rightBracket cs
  | '\'' :: cs => string '\'' cs
  | '"' :: cs => string '"' cs
  | c :: cs =>
    if isBlank c then
      .token (.blank (c :: cs.takeWhile isBlank)) (cs.dropWhile isBlank)
    else if isWordChar c then
      .token (.word (c :: cs.takeWhile isWordChar)) (cs.dropWhile isWordChar)
    else .malformed

end LatchTree.Toml
