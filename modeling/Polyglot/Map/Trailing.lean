import Polyglot.Text.Blank
import Polyglot.Text.Alphanumeric

/-!
# The first statement behind an offset

Generated code ends with statements that no source stands behind. A statement begins at the first character
of a line, outside brackets, strings and comments, if a declaration keyword stands there or the last
character before it ended a statement.
-/

namespace Polyglot

namespace Script

/-- The keywords that open a statement at the start of a line. -/
def statementKeywords : List String :=
  ["export", "import", "function", "async", "const", "let", "var", "class", "type", "interface",
    "declare", "enum", "namespace"]

/-- The character can be part of a name. -/
def isNamePart (c : Char) : Bool := Text.isAlphanumeric c || c == '_' || c == '$'

/-- The code begins with a keyword that is not merely the beginning of a longer name. -/
def beginsWithKeyword (cs : List Char) : Bool :=
  statementKeywords.any fun k =>
    k.toList.isPrefixOf cs && !(cs.drop k.length).head?.any isNamePart

/-- Where the scan stands: in code, in a comment, or in a string with this quote. -/
inductive Layer where
  | code
  | lineComment
  | blockComment
  | string (quote : Char)
deriving DecidableEq, Repr, Inhabited

/-- What the scan remembers of the code behind it. -/
structure Scan where
  layer : Layer := .code
  /-- Open brackets. -/
  depth : Nat := 0
  /-- The last character that is neither blank nor part of a comment; for a string its quote. -/
  last : Option Char := none
  /-- Only blanks since the start of the line. -/
  lineStart : Bool := true
deriving DecidableEq, Repr, Inhabited

namespace Scan

/-- The last character ended a statement, or there was none. -/
def afterStatement (s : Scan) : Bool := s.last.all fun c => c == ';' || c == '\x7d'

/-- Takes a character of code that begins no comment. -/
def stepCode (s : Scan) (c : Char) : Scan :=
  if c = '\n' then { s with lineStart := true }
  else if Text.isAsciiBlank c then s
  else if c = '\'' ∨ c = '"' ∨ c = '\x60' then { s with layer := .string c, lineStart := false }
  else
    let depth :=
      if c = '(' ∨ c = '[' ∨ c = '\x7b' then s.depth + 1
      else if c = ')' ∨ c = ']' ∨ c = '\x7d' then s.depth - 1
      else s.depth
    { s with depth, last := some c, lineStart := false }

end Scan

/-- The offset of the first statement at or after `start` in the code `cs`, whose first character has
offset `i`. A string ends at its quote or, unless it is a template, at the end of its line; a backslash in
it shields the next character. -/
def statementFrom? (start : Nat) (s : Scan) (i : Nat) : List Char → Option Nat
  | [] => none
  | c :: cs =>
    let next := i + c.utf8Size
    match s.layer with
    | .lineComment =>
      if c = '\n' then statementFrom? start { s with layer := .code, lineStart := true } next cs
      else statementFrom? start s next cs
    | .blockComment =>
      match c, cs with
      | '*', '/' :: rest => statementFrom? start { s with layer := .code } (i + 2) rest
      | _, cs => statementFrom? start s next cs
    | .string quote =>
      if c = quote then statementFrom? start { s with layer := .code, last := some quote } next cs
      else if c = '\n' ∧ quote ≠ '\x60' then
        statementFrom? start { s with layer := .code, last := some quote, lineStart := true } next cs
      else if c = '\\' then
        match cs with
        | [] => none
        | d :: rest => statementFrom? start s (next + d.utf8Size) rest
      else statementFrom? start s next cs
    | .code =>
      if s.lineStart && !Text.isAsciiBlank c && s.depth == 0 && start ≤ i &&
          (s.afterStatement || beginsWithKeyword (c :: cs)) then some i
      else
        match c, cs with
        | '/', '/' :: rest =>
          statementFrom? start { s with layer := .lineComment, lineStart := false } (i + 2) rest
        | '/', '*' :: rest =>
          statementFrom? start { s with layer := .blockComment, lineStart := false } (i + 2) rest
        | c, cs => statementFrom? start (s.stepCode c) next cs

/-- The offset of the first statement at or after `start`. -/
def trailingStatement? (code : String) (start : Nat) : Option Nat :=
  statementFrom? start {} 0 code.toList

end Script

end Polyglot
