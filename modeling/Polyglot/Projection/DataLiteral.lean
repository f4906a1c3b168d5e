import Polyglot.FrontMatter
import Polyglot.Text.Blank
import Polyglot.Data.Block
import Polyglot.Projection.Code

/-!
# Data as a literal

The data of a front matter block is written as an object literal inside an expression that a type checker
tests against the schema of a collection. Each key and each value that is not null is mapped; braces,
brackets, commas and nulls are scaffolding that no mapping covers. Zero-width anchors mark a blank first and
last line. While a block does not parse, the last one that did stands in for it.
-/

namespace Polyglot

namespace DataLiteral

/-- The capabilities of keys and values. -/
def dataCapabilities : Capabilities :=
  .diagnostics ||| .semantic ||| .navigation ||| .completion ||| .hover

/-- The capabilities of the anchors on blank lines. -/
def anchorCapabilities : Capabilities := .navigation

/-! ## Pieces

The literal is a list of pieces; writing them out gives the text and the mappings. -/

/-- A piece of the literal. -/
inductive Piece where
  /-- Text that nothing in the source stands behind. -/
  | scaffold (text : String)
  /-- The text of a key or a value. -/
  | token (source : Span) (text : String)
  /-- A place on a blank line. -/
  | anchor (source : Nat)
deriving DecidableEq, Repr, Inhabited

namespace Piece

def text : Piece → String
  | scaffold text => text
  | token _ text => text
  | anchor _ => ""

/-- The mapping of a piece that is written at offset `i`. -/
def mapping? (i : Nat) : Piece → Option Mapping
  | scaffold _ => none
  | token source text => some ⟨source, .withLength i (Text.size text), dataCapabilities⟩
  | anchor source => some ⟨.emptyAt source, .emptyAt i, anchorCapabilities⟩

/-- The text of pieces in order. -/
def textOf : List Piece → String
  | [] => ""
  | p :: ps => p.text ++ textOf ps

/-- The mappings of pieces in order, the first of which is written at offset `i`. -/
def mappingsOf (i : Nat) : List Piece → List Mapping
  | [] => []
  | p :: ps => (p.mapping? i).toList ++ mappingsOf (i + Text.size p.text) ps

end Piece

/-- A value without children. A null is written but not mapped, so that no complaint about it lands on the
source. -/
def scalarPiece (x : Data.Scalar) : Piece :=
  if x.isNull then .scaffold "null" else .token x.span x.literal

mutual

/-- The value of a pair or an item, with what ends it. -/
def memberPieces (scalarEnd : String) : Data.Tree → List Piece
  | .scalar x => [scalarPiece x, .scaffold scalarEnd]
  | .mapping _ _ pairs => .scaffold "\x7b\n" :: pairPieces pairs ++ [.scaffold "\x7d,\n"]
  | .sequence _ _ items => .scaffold "[" :: itemPieces items ++ [.scaffold "],\n"]

def pairPieces : List (Data.Scalar × Data.Tree) → List Piece
  | [] => []
  | (key, value) :: rest =>
    .token key.span key.key :: .scaffold ": " :: memberPieces ",\n" value ++ pairPieces rest

def itemPieces : List Data.Tree → List Piece
  | [] => []
  | item :: rest => memberPieces "," item ++ itemPieces rest

end

/-- The root of the data; an empty object if there is none or it is null. -/
def rootPieces : Option Data.Tree → List Piece
  | some (.mapping _ _ pairs) => .scaffold "\x7b\n" :: pairPieces pairs ++ [.scaffold "\x7d\n"]
  | some (.sequence _ _ items) => .scaffold "[" :: itemPieces items ++ [.scaffold "]\n"]
  | some (.scalar x) =>
    if x.isNull then [.scaffold "\x7b\x7d\n"] else [scalarPiece x, .scaffold "\n"]
  | none => [.scaffold "\x7b\x7d\n"]

/-! ## Blank lines -/

/-- The pieces of a list of characters between line feeds. -/
def splitLines : List Char → List (List Char)
  | [] => [[]]
  | c :: cs =>
    if c = '\n' then [] :: splitLines cs
    else
      match splitLines cs with
      | [] => [[c]]
      | line :: rest => (c :: line) :: rest

/-- The byte length of characters. -/
def byteLength : List Char → Nat
  | [] => 0
  | c :: cs => c.utf8Size + byteLength cs

/-- The offset of each line and whether it is blank, if the first has offset `i`. -/
def lineStarts (i : Nat) : List (List Char) → List (Nat × Bool)
  | [] => []
  | line :: rest => (i, line.all Text.isWhite) :: lineStarts (i + byteLength line + 1) rest

/-- The lines strictly between the lines of the fences, in the block `s` whose content is at `content`. -/
def contentLines (s : String) (content : Span) (closed : Bool) : List (Nat × Bool) :=
  match content.slice? s with
  | none => []
  | some inner =>
    let lines := (lineStarts content.start (splitLines inner.toList)).tail
    if closed then lines.dropLast else lines

/-- The anchor of a line, if it is blank. -/
def anchorPieces : Option (Nat × Bool) → List Piece
  | some (start, true) => [.anchor start, .scaffold "\n"]
  | _ => []

/-! ## The literal -/

def preamble : String :=
  "import type \x7b InferEntrySchema \x7d from \"astro:content\";\n\n(\n"

/-- What follows the literal: the check against the schema of a collection. -/
def satisfies (collection : String) : String :=
  ") satisfies InferEntrySchema<" ++ Text.quote collection ++ ">;\n\n"

/-- All pieces up to the end of the literal. -/
def bodyPieces (lines : List (Nat × Bool)) (root : Option Data.Tree) : List Piece :=
  .scaffold preamble :: anchorPieces lines.head? ++ rootPieces root ++
    (if 1 < lines.length then anchorPieces lines.getLast? else [])

/-- The literal of one block, without the check behind it. -/
structure Body where
  text : String
  mappings : List Mapping
deriving DecidableEq, Repr, Inhabited

def Body.ofPieces (ps : List Piece) : Body := ⟨Piece.textOf ps, Piece.mappingsOf 0 ps⟩

/-- The literal of a block of data. -/
def Body.ofBlock (block : String) (f : FrontMatter) (content : Span) (root : Option Data.Tree) : Body :=
  .ofPieces (bodyPieces (contentLines block content f.isClosed) root)

end DataLiteral

/-- The data of a front matter block as a checked literal. -/
structure DataLiteral where
  text : String
  mappings : List Mapping
  errors : List Data.Error
  /-- The literal is that of an earlier block, because this one has errors. -/
  stale : Bool
deriving DecidableEq, Repr, Inhabited

namespace DataLiteral

/-- What is remembered between edits of one document: the last literal of a block without errors. -/
abbrev Memory := Option Body

/-- Writes the front matter of a document, if it has any, and what is remembered from then on. A block with
errors is replaced by the last one without; if there is none, what could be read of it is written. -/
def write (memory : Memory) (s : String) (f : FrontMatter) (collection : String) :
    Except Data.TornCharacter (Option DataLiteral × Memory) :=
  match f.blankFences s with
  | none => .ok (none, memory)
  | some block =>
    match f.contentSpan? (Text.size block) with
    | none => .ok (none, memory)
    | some content => do
      let document ← Data.Document.ofText block
      let fresh := Body.ofBlock block f content document.root
      let (body, stale, memory) : Body × Bool × Memory :=
        if document.isValid then (fresh, false, some fresh)
        else
          match memory with
          | some last => (last, true, memory)
          | none => (fresh, false, memory)
      return (some ⟨body.text ++ satisfies collection, body.mappings, document.errors, stale⟩, memory)

end DataLiteral

end Polyglot
