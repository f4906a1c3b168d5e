import Polyglot.Data.Tree

/-!
# Lines of a block

A block is read line by line. A line is cut into its indentation, its content without blanks at the
end, and its line break; the content is held as octets. Blanks are spaces and tabs; a tab in the
indentation of a line with content is an error.
-/

namespace Polyglot.Data

/-- A space or a tab. -/
def isBlank (c : Char) : Bool := c == ' ' || c == '\t'

/-- The list without the blanks at its end. -/
def trimEnd (cs : List Char) : List Char := (cs.reverse.dropWhile isBlank).reverse

structure Line where
  /-- The offset of the line. -/
  start : Nat
  /-- The column of the content. -/
  indent : Nat
  content : List Char
  /-- The offset of the line break, a carriage return before the line feed counted as part of it. -/
  breakStart : Nat
deriving DecidableEq, Repr, Inhabited

namespace Line

def contentStart (l : Line) : Nat := l.start + l.indent

def contentEnd (l : Line) : Nat := l.contentStart + l.content.length

def contentSpan (l : Line) : Span := ⟨l.contentStart, l.contentEnd⟩

/-- Nothing but blanks. -/
def isEmpty (l : Line) : Bool := l.content.isEmpty

/-- Nothing but blanks and a comment. -/
def isBlank (l : Line) : Bool := l.content.head?.all (· == '#')

theorem length_content_pos (l : Line) (h : ¬ l.isBlank = true) : 0 < l.content.length := by
  cases hc : l.content with
  | nil => simp [isBlank, hc] at h
  | cons => simp

/-- The content is an item of a sequence: a dash that is followed by a blank or ends the line. -/
def isItem (l : Line) : Bool :=
  match l.content with
  | '-' :: rest => rest.head?.all Data.isBlank
  | _ => false

/-- The line that holds these octets before its line feed. -/
def ofOctets (start : Nat) (cs : List Char) : Line :=
  let cs := if cs.getLast? = some '\r' then cs.dropLast else cs
  let indent := (cs.takeWhile Data.isBlank).length
  ⟨start, indent, trimEnd (cs.drop indent), start + cs.length⟩

/-- The line with its content from column `indent + k` on, as if that were its indentation. -/
def advance (l : Line) (k : Nat) : Line :=
  { l with indent := l.indent + k, content := l.content.drop k }

end Line

/-- The pieces between line feeds, each with its offset, if the first has offset `start`; `piece` holds the
octets of the current one, last first. -/
def pieces (start : Nat) (piece : List Char) : List Char → List (Nat × List Char)
  | [] => [(start, piece.reverse)]
  | c :: cs =>
    if c = '\n' then (start, piece.reverse) :: pieces (start + piece.length + 1) [] cs
    else pieces start (c :: piece) cs

/-- The lines of a text. There is one more of them than line feeds. -/
def linesOf (s : String) : List Line := (pieces 0 [] (Text.octets s)).map fun p => .ofOctets p.1 p.2

/-- The error for a tab in the indentation of a line that is neither empty nor a comment. -/
def tabError? (p : Nat × List Char) : Option Error :=
  if (Line.ofOctets p.1 p.2).isBlank then none
  else
    let tab := p.1 + ((p.2.takeWhile isBlank).takeWhile (· != '\t')).length
    if (p.2.takeWhile isBlank).contains '\t' then some ⟨.tabIndentation, .withLength tab 1⟩ else none

/-- The errors for tabs used as indentation, in the order of the lines. -/
def tabErrors (s : String) : List Error := (pieces 0 [] (Text.octets s)).filterMap tabError?

end Polyglot.Data
