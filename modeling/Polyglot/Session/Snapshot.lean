import Polyglot.Text.Slice
import Polyglot.Diagnostic.Protocol

/-!
# Snapshots

A snapshot is one version of a document's text; edits make a new one. An editor says what to replace by lines
and UTF-16 columns. Here more characters end a line than in a line table: all that a screen shows as a line
break do. A text that breaks its lines at line feeds only has the same lines in both.
-/

namespace Polyglot

/-! ## Lines as they are shown -/

namespace Text

/-- The character ends a line. -/
def isBreak (c : Char) : Bool :=
  c == '\n' || c == '\x0b' || c == '\x0c' || c == '\r' || c == '\u0085' || c == '\u2028' || c == '\u2029'

/-- The lines of a text, each with what ends it; nothing ends the last one. A carriage return with a line feed
behind it is one end. -/
def shownLines : List Char → List (List Char)
  | [] => [[]]
  | '\r' :: '\n' :: cs => ['\r', '\n'] :: shownLines cs
  | c :: cs =>
    if isBreak c then [c] :: shownLines cs
    else
      match shownLines cs with
      | [] => [[c]]
      | line :: rest => (c :: line) :: rest

/-- A line without the carriage return and the line feed at its end. -/
def withoutFeed (line : List Char) : List Char :=
  (line.reverse.dropWhile fun c => c == '\n' || c == '\r').reverse

/-- How many whole characters stand before a UTF-16 column; all of them before a column past the end. -/
def charactersBefore16 : List Char → Nat → Nat
  | [], _ => 0
  | c :: cs, column =>
    if column < units16 c then 0 else 1 + charactersBefore16 cs (column - units16 c)

/-- The number of characters before a place. A place past the end of its line is the end of the line, a line
past the last one the end of the text. -/
def charactersBefore (cs : List Char) (p : Place) : Nat :=
  let lines := shownLines cs
  match lines[p.line]? with
  | none => cs.length
  | some line =>
    (lines.take p.line).flatten.length + charactersBefore16 (withoutFeed line) p.column

/-- A line holds nothing but its characters. -/
theorem flatten_shownLines (cs : List Char) : (shownLines cs).flatten = cs := by
  fun_induction shownLines cs <;> simp_all

end Text

/-! ## Changes -/

/-- What an editor did to a text: it replaced a range of it, or all of it. -/
structure Change where
  range : Option Range16
  text : String
deriving DecidableEq, Repr, Inhabited

namespace Change

/-- The text after the change. A range that ends before it starts is empty. -/
def apply (c : Change) (cs : List Char) : List Char :=
  match c.range with
  | none => c.text.toList
  | some r =>
    let start := Text.charactersBefore cs r.start
    let stop := max start (Text.charactersBefore cs r.stop)
    cs.take start ++ c.text.toList ++ cs.drop stop

end Change

/-! ## Snapshots -/

structure Snapshot where
  text : String
  version : Int
  /-- A number that tells snapshots of one store apart, even those of equal text and version. -/
  stamp : Nat
deriving DecidableEq, Repr, Inhabited

namespace Snapshot

/-- The text after changes, each of which sees the text that the one before it left. -/
def edit (s : Snapshot) (changes : List Change) : String :=
  .ofList (changes.foldl (fun cs c => c.apply cs) s.text.toList)

/-- The text between two offsets, clamped to the text. -/
def textBetween (s : Snapshot) (start stop : Nat) : String := Span.clampedSlice start stop s.text

end Snapshot

end Polyglot
