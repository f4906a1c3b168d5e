import Mathlib
import Polyglot.Markup.Document

/-!
# Markup as it is written

A forest without positions, the text that it is written as, and the forest with positions that the text
stands for. Well-formed sources have nothing in a text, a comment, an expression or a tag that would end it
early, and close each element that is neither void nor closes itself.
-/

namespace Polyglot.Markup

open Text

/-! ## Sources -/

/-- An attribute: its name, and its value between double quotes if it has one. -/
structure SourceAttribute where
  name : String
  value : Option String
deriving DecidableEq, Repr

/-- The name of an element and its attributes. -/
structure SourceTag where
  name : String
  attributes : List SourceAttribute
deriving DecidableEq, Repr

/-- A piece of markup that holds no other one. -/
inductive SourceLeaf where
  | text (t : String)
  | comment (body : String)
  | expression (code : String)
deriving DecidableEq, Repr

/-- Siblings in document order. -/
inductive Source where
  | nil
  | leaf (x : SourceLeaf) (rest : Source)
  /-- An element without content: a void one, or one whose tag closes itself. -/
  | lone (selfCloses : Bool) (tag : SourceTag) (rest : Source)
  | element (tag : SourceTag) (children rest : Source)
deriving DecidableEq, Repr

/-! ## Texts -/

def SourceAttribute.written (a : SourceAttribute) : String :=
  " " ++ a.name ++ match a.value with
    | none => ""
    | some v => "=\"" ++ v ++ "\""

def writtenAttributes : List SourceAttribute → String
  | [] => ""
  | a :: as => a.written ++ writtenAttributes as

/-- A start tag up to its end. -/
def SourceTag.written (t : SourceTag) : String := "<" ++ t.name ++ writtenAttributes t.attributes

def SourceLeaf.written : SourceLeaf → String
  | text t => t
  | comment body => "<!--" ++ body ++ "-->"
  | expression code => "\x7b" ++ code ++ "\x7d"

/-- The end of the tag of an element without content. -/
def loneEnd (selfCloses : Bool) : String := if selfCloses then " />" else ">"

def SourceTag.writtenEnd (t : SourceTag) : String := "</" ++ t.name ++ ">"

def Source.written : Source → String
  | nil => ""
  | leaf x rest => x.written ++ rest.written
  | lone selfCloses tag rest => tag.written ++ loneEnd selfCloses ++ rest.written
  | element tag children rest =>
    tag.written ++ ">" ++ children.written ++ tag.writtenEnd ++ rest.written

/-! ## What there is to read -/

/-- What a node says: its kind, the text that it is written as, its name and its attributes. -/
structure Piece where
  kind : NodeKind
  written : Option String
  tag : String
  attributes : List SourceAttribute
deriving DecidableEq, Repr

/-- What a node says in the text `s`, by its spans. -/
def Node.piece (s : String) (n : Node) : Piece where
  kind := n.kind
  written := n.span.slice? s
  tag := n.tag
  attributes := n.attributes.map fun a => ⟨a.name, a.staticValue? s⟩

def SourceLeaf.kind : SourceLeaf → NodeKind
  | text _ => .text
  | comment _ => .comment
  | expression _ => .expression

/-- What the nodes of a source say, in pre-order. -/
def Source.pieces : Source → List Piece
  | nil => []
  | leaf x rest => ⟨x.kind, x.written, "", []⟩ :: rest.pieces
  | lone selfCloses tag rest =>
    ⟨.element, tag.written ++ loneEnd selfCloses, tag.name, tag.attributes⟩ :: rest.pieces
  | element tag children rest =>
    ⟨.element, tag.written ++ ">" ++ children.written ++ tag.writtenEnd, tag.name, tag.attributes⟩ ::
      (children.pieces ++ rest.pieces)

/-! ## Well-formed sources -/

/-- An ASCII letter, with ASCII letters and digits behind it. -/
def IsTagName (name : String) : Prop :=
  ∃ c cs, name.toList = c :: cs ∧ c.isAlpha = true ∧ cs.all Char.isAlphanum = true

/-- An ASCII letter, or any character that is not ASCII. -/
def isLetter (c : Char) : Bool := c.isAlpha || 0x80 ≤ c.toNat

structure SourceAttribute.WellFormed (a : SourceAttribute) : Prop where
  ne_nil : a.name ≠ ""
  letters : a.name.toList.all isLetter = true
  value : ∀ v ∈ a.value, '"' ∉ v.toList

structure SourceTag.WellFormed (t : SourceTag) : Prop where
  name : IsTagName t.name
  attributes : ∀ a ∈ t.attributes, a.WellFormed

def SourceLeaf.WellFormed : SourceLeaf → Prop
  | text t => t ≠ "" ∧ '<' ∉ t.toList ∧ '\x7b' ∉ t.toList
  | comment body => ¬ "-->".toList <:+: body.toList
  | expression code => ∀ c ∈ code.toList, c ∉ ['\x7b', '\x7d', '"', '\'', '\x60']

def SourceLeaf.isText : SourceLeaf → Bool
  | text _ => true
  | _ => false

def Source.beginsText : Source → Bool
  | leaf x _ => x.isText
  | _ => false

/-- No two texts are next to each other, and each element is written as its name says. -/
def Source.WellFormed : Source → Prop
  | nil => True
  | leaf x rest => x.WellFormed ∧ (x.isText = true → rest.beginsText = false) ∧ rest.WellFormed
  | lone selfCloses tag rest =>
    tag.WellFormed ∧ (selfCloses = false → tag.name ∈ voidElements) ∧ rest.WellFormed
  | element tag children rest =>
    tag.WellFormed ∧ tag.name ∉ voidElements ∧ tag.name ∉ rawTextElements ∧
      children.WellFormed ∧ rest.WellFormed

/-! ## Forests -/

/-- The attribute that stands at offset `i`. -/
def SourceAttribute.place (a : SourceAttribute) (i : ℕ) : Attribute where
  name := a.name
  nameSpan := .withLength (i + 1) (size a.name)
  value := a.value.map fun v => ⟨.double, .withLength (i + 1 + size a.name + 2) (size v)⟩

def placeAttributes : List SourceAttribute → ℕ → List Attribute
  | [], _ => []
  | a :: as, i => a.place i :: placeAttributes as (i + size a.written)

/-- The element whose tag stands at offset `i`, and ends at `startTagEnd`; the element ends at `stop`. -/
def SourceTag.place (t : SourceTag) (i startTagEnd : ℕ) (endTagStart : Option ℕ) (stop : ℕ) : Node where
  kind := .element
  span := ⟨i, stop⟩
  tag := t.name
  startTagEnd := some startTagEnd
  endTagStart := endTagStart
  attributes := placeAttributes t.attributes (i + 1 + size t.name)

/-- The forest that a source stands for, if its text begins at offset `i`. -/
def Source.forest : Source → ℕ → Forest
  | nil, _ => .nil
  | leaf x rest, i =>
    .cons ⟨x.kind, .withLength i (size x.written), "", none, none, []⟩ .nil
      (rest.forest (i + size x.written))
  | lone selfCloses tag rest, i =>
    let stop := i + size tag.written + size (loneEnd selfCloses)
    .cons (tag.place i stop none stop) .nil (rest.forest stop)
  | element tag children rest, i =>
    let inner := i + size tag.written + 1
    let endTag := inner + size children.written
    let stop := endTag + size tag.writtenEnd
    .cons (tag.place i inner (some endTag) stop) (children.forest inner) (rest.forest stop)

end Polyglot.Markup
