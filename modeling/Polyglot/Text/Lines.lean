import Polyglot.Text.Slice

/-!
# Line tables

Lines end at a line feed and at nothing else. Lines and columns count from 0; a column is measured in
bytes or in UTF-16 units. Positions outside the text are clamped into it.
-/

namespace Polyglot

/-- The unit that a column is counted in. -/
inductive ColumnUnit where
  | utf8
  | utf16
deriving DecidableEq, Repr, Inhabited

/-- A line and a column, both from 0. -/
structure Place where
  line : Nat
  column : Nat
deriving DecidableEq, Repr, Inhabited

namespace Text

/-- The number of UTF-16 units of a character. -/
def units16 (c : Char) : Nat := if c.toNat < 0x10000 then 1 else 2

/-- The number of UTF-16 units of a list of characters. -/
def width16 : List Char → Nat
  | [] => 0
  | c :: cs => units16 c + width16 cs

/-- The number of bytes before the character that UTF-16 column `column` falls into, all bytes if the
column is past the end. -/
def bytesBefore16 : List Char → Nat → Nat
  | [], _ => 0
  | c :: cs, column =>
    if column < units16 c then 0 else c.utf8Size + bytesBefore16 cs (column - units16 c)

theorem units16_pos (c : Char) : 0 < units16 c := by
  unfold units16; split <;> omega

/-- The offsets right after the line feeds among these octets, the first of which has offset `i`. -/
def startsAfterFeeds : List Char → Nat → List Nat
  | [], _ => []
  | c :: cs, i =>
    if c = '\n' then (i + 1) :: startsAfterFeeds cs (i + 1) else startsAfterFeeds cs (i + 1)

end Text

/-- The starts of the lines of one text, and its length. -/
structure LineTable where
  starts : List Nat
  size : Nat
deriving DecidableEq, Repr

namespace LineTable

/-- The table of a text: the first line starts at 0, each later one right after a line feed. -/
def ofText (s : String) : LineTable :=
  ⟨0 :: Text.startsAfterFeeds (Text.octets s) 0, Text.size s⟩

def lineCount (t : LineTable) : Nat := t.starts.length

def lineStart? (t : LineTable) (line : Nat) : Option Nat := t.starts[line]?

/-- Where the content of a line ends: at its line feed, or at the end of the text. -/
def lineEnd? (t : LineTable) (line : Nat) : Option Nat :=
  if line < t.lineCount then
    match t.starts[line + 1]? with
    | some next => some (next - 1)
    | none => some t.size
  else none

/-- The content of a line, its line feed left out. -/
def lineSpan? (t : LineTable) (line : Nat) : Option Span := do
  let start ← t.lineStart? line
  let stop ← t.lineEnd? line
  return ⟨start, stop⟩

/-- The offset of a byte column. A column past the end of its line is the end of the line, a line past
the end of the text the end of the text. -/
def offset (t : LineTable) (line column : Nat) : Nat :=
  match t.lineSpan? line with
  | some r => min (r.start + column) r.stop
  | none => t.size

/-- The offset of a UTF-16 column, clamped as in `offset`. A column between the two halves of a
surrogate pair is the start of that character. -/
def offset16 (t : LineTable) (s : String) (line column : Nat) : Nat :=
  match t.lineSpan? line with
  | none => t.size
  | some r =>
    match r.slice? s with
    | none => t.size
    | some content => r.start + Text.bytesBefore16 content.toList column

/-- The offset of a column in the given unit. -/
def offsetIn (t : LineTable) (s : String) (line column : Nat) : ColumnUnit → Nat
  | .utf8 => t.offset line column
  | .utf16 => t.offset16 s line column

/-- The line of an offset: the last one that starts at or before it. -/
def lineOf (t : LineTable) (offset : Nat) : Nat := t.starts.countP (· ≤ offset) - 1

/-- Line and byte column of an offset, clamped to the text. -/
def position (t : LineTable) (offset : Nat) : Nat × Nat :=
  let offset := min offset t.size
  let line := t.lineOf offset
  (line, offset - t.starts.getD line 0)

/-- Line and UTF-16 column of an offset. An offset inside a character has column 0. -/
def position16 (t : LineTable) (s : String) (offset : Nat) : Nat × Nat :=
  let (line, column) := t.position offset
  let before := Span.slice? (.withLength (t.starts.getD line 0) column) s
  (line, (before.map fun text => Text.width16 text.toList).getD 0)

end LineTable

end Polyglot
