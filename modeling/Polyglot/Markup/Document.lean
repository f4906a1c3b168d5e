import Polyglot.FrontMatter
import Polyglot.Markup.Node

/-!
# Markup documents

The tokens after the front matter are assembled into a forest. Reading never fails: an end tag closes the
innermost open element of its name, preferring the same case, and everything opened since; an end tag
without such an element is an error and otherwise ignored; what is still open at the end runs to the end
of the text.
-/

namespace Polyglot.Markup

/-- Elements that have neither content nor an end tag. -/
def voidElements : List String :=
  ["area", "base", "br", "col", "embed", "hr", "img", "input", "link", "meta", "param", "source",
    "track", "wbr"]

structure Document where
  forest : Forest
  frontMatter : FrontMatter
  errors : List Error
deriving Repr, Inhabited, DecidableEq

/-- The text of a span that lies between characters. -/
def spelling (s : String) (r : Span) : String := (r.slice? s).getD ""

/-- An open element with the children that are complete, last first. -/
structure OpenElement where
  node : Node
  children : List (Node × Forest)
deriving Repr, Inhabited

/-- A document in the making. -/
structure Assembly where
  /-- Complete roots, last first. -/
  roots : List (Node × Forest) := []
  /-- Open elements, innermost first. -/
  stack : List OpenElement := []
  /-- The element whose start tag is being read. -/
  starting : Option Node := none
  /-- Errors, last first. -/
  errors : List Error := []
deriving Repr, Inhabited

namespace Assembly

/-- Adds a complete node under the innermost open element. -/
def attach (a : Assembly) (node : Node) (children : Forest) : Assembly :=
  match a.stack with
  | [] => { a with roots := (node, children) :: a.roots }
  | top :: stack => { a with stack := { top with children := (node, children) :: top.children } :: stack }

/-- Adds a node without children, unless its span is empty. -/
def attachLeaf (a : Assembly) (kind : NodeKind) (span : Span) : Assembly :=
  if span.start < span.stop then a.attach { kind, span } .nil else a

def fail (a : Assembly) (fault : Fault) (offset : Nat) : Assembly :=
  { a with errors := ⟨fault, offset⟩ :: a.errors }

/-- Completes the innermost open element, after a last change to its node. -/
def close (a : Assembly) (change : Node → Node) : Assembly :=
  match a.stack with
  | [] => a
  | top :: stack => { a with stack }.attach (change top.node) (.prependReversed top.children .nil)

/-- Completes the innermost `n` open elements, which end at `offset` without an end tag. -/
def abandon (a : Assembly) (offset : Nat) : Nat → Assembly
  | 0 => a
  | n + 1 =>
    match a.stack with
    | [] => a
    | top :: _ =>
      ((a.close fun node => { node with span.stop := offset }).fail .missingEndTag
        top.node.span.start).abandon offset n

/-- How many open elements lie inside the one that an end tag of this name closes. -/
def matching? (a : Assembly) (tag : String) : Option Nat :=
  (a.stack.findIdx? fun e => e.node.tag == tag).or
    (a.stack.findIdx? fun e => sameIgnoringCase e.node.tag tag)

/-- Completes the element whose start tag is being read as one without children. -/
def settle (a : Assembly) (change : Node → Node) : Assembly :=
  match a.starting with
  | none => a
  | some node => { a with starting := none }.attach (change node) .nil

/-- Adds an attribute to the start tag. -/
def addAttribute (a : Assembly) (attr : Attribute) : Assembly :=
  { a with starting := a.starting.map fun n => { n with attributes := n.attributes ++ [attr] } }

/-- Gives the last attribute of the start tag its value. -/
def setValue (a : Assembly) (value : Value) : Assembly :=
  { a with starting := a.starting.map fun n =>
      { n with attributes := n.attributes.modify (n.attributes.length - 1) fun x =>
          { x with value := some value } } }

/-- The start tag ends at the `>` at offset `i`. -/
def endStartTag (i : Nat) (node : Node) : Node :=
  { node with startTagEnd := some (i + 1), span.stop := i + 1 }

/-- Takes one token of the text `s`. -/
def step (s : String) (a : Assembly) : Token → Assembly
  | .text span => a.attachLeaf .text span
  | .expression span => a.attachLeaf .expression span
  | .comment span => a.attachLeaf .comment span
  | .doctype span => a.attachLeaf .doctype span
  | .error e => { a with errors := e :: a.errors }
  | .openName name =>
    let node : Node :=
      { kind := .element, span := ⟨name.start - 1, name.stop⟩, tag := spelling s name }
    { a.settle id with starting := some node }
  | .openEnd i =>
    match a.starting with
    | none => a
    | some node =>
      if voidElements.contains node.tag then a.settle (endStartTag i)
      else { a with starting := none, stack := ⟨endStartTag i node, []⟩ :: a.stack }
  | .selfClose i => a.settle (endStartTag i)
  | .closeTag start name stop =>
    let tag := spelling s name
    match a.matching? tag with
    | none => if voidElements.contains tag then a else a.fail .strayEndTag start
    | some inner =>
      (a.abandon start inner).close fun node =>
        { node with endTagStart := some start, span.stop := min (stop + 1) (Text.size s) }
  | .attributeName name => a.addAttribute ⟨spelling s name, name, none⟩
  | .attributeValue kind value => a.setValue ⟨kind, value⟩
  | .shorthand span =>
    let inner : Span := ⟨span.start + 1, span.stop - 1⟩
    a.addAttribute ⟨Text.trim (spelling s inner), span, some ⟨.expression, inner⟩⟩
  | .finish =>
    let a := a.settle fun node => { node with span.stop := Text.size s }
    a.abandon (Text.size s) a.stack.length

end Assembly

namespace Document

/-- Where the markup begins: after the front matter, or after its opening fence if it is not closed. -/
def markupStart (f : FrontMatter) (s : String) : Nat :=
  match f with
  | .absent => 0
  | .opened start => min (start + FrontMatter.fenceLength) (Text.size s)
  | .closed _ stop => stop

/-- Reads a component document. -/
def ofText (s : String) : Document :=
  let frontMatter := FrontMatter.scan s
  let errors : List Error :=
    match frontMatter with
    | .opened start => [⟨.unclosedFrontMatter, start⟩]
    | _ => []
  let a := (tokensFrom s (markupStart frontMatter s)).foldl (Assembly.step s) { errors }
  ⟨.prependReversed a.roots .nil, frontMatter, a.errors.reverse⟩

/-- All nodes in pre-order with their links. -/
def nodes (d : Document) : List Numbered := d.forest.numbered none 0

/-- The numbers of the roots. -/
def roots (d : Document) : List Nat := d.forest.rootNumbers 0

/-- The elements in pre-order with their numbers. -/
def elements (d : Document) : List (Nat × Node) := d.forest.elements 0

/-- The innermost element that holds the byte at `offset`. -/
def elementAt? (d : Document) (offset : Nat) : Option (Nat × Node) := d.forest.elementAt? offset 0

/-- The parents of a node, nearest first. -/
def ancestors (d : Document) (node : Nat) : List Nat := (d.forest.ancestors? node 0).getD []

/-- The innermost element around `offset` is a script. -/
def inScript (d : Document) (offset : Nat) : Bool :=
  (d.elementAt? offset).any fun e => e.2.isTag "script"

end Document

end Polyglot.Markup
