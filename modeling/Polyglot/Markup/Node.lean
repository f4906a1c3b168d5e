import Polyglot.Text.Slice
import Polyglot.Text.Blank
import Polyglot.Markup.Token

/-!
# Markup nodes

A document is a forest of nodes. `Forest` pairs each node with its children and its later siblings;
nodes are numbered in pre-order. Lookups by offset descend from the roots and answer with numbers.
-/

namespace Polyglot.Markup

inductive NodeKind where
  | element
  | text
  | comment
  /-- An expression in text position. -/
  | expression
  | doctype
deriving DecidableEq, Repr, Inhabited

/-- The value of an attribute; the span leaves out quotes and braces. -/
structure Value where
  kind : ValueKind
  span : Span
deriving DecidableEq, Repr, Inhabited

/-- The value with its quotes or braces. -/
def Value.rawSpan (v : Value) : Span :=
  match v.kind with
  | .unquoted => v.span
  | _ => ⟨v.span.start - 1, v.span.stop + 1⟩

structure Attribute where
  name : String
  nameSpan : Span
  value : Option Value
deriving DecidableEq, Repr, Inhabited

namespace Attribute

/-- The whole attribute, from its name to the end of its value. -/
def span (a : Attribute) : Span :=
  match a.value with
  | some v => ⟨a.nameSpan.start, v.rawSpan.stop⟩
  | none => a.nameSpan

/-- The literal value, for one that is not an expression. -/
def staticValue? (a : Attribute) (s : String) : Option String :=
  match a.value with
  | some v => if v.kind = .expression then none else v.span.slice? s
  | none => none

end Attribute

/-- A node without its children. -/
structure Node where
  kind : NodeKind
  span : Span
  /-- The name of an element, empty for other nodes. -/
  tag : String := ""
  /-- Right after the `>` of the start tag. -/
  startTagEnd : Option Nat := none
  /-- The `<` of the end tag. -/
  endTagStart : Option Nat := none
  attributes : List Attribute := []
deriving DecidableEq, Repr, Inhabited

/-- Equality of texts up to the case of ASCII letters. -/
def sameIgnoringCase (a b : String) : Bool := a.toList.map Char.toLower == b.toList.map Char.toLower

namespace Node

def isElement (n : Node) : Bool := n.kind == .element

/-- An element of this name, whatever its case. -/
def isTag (n : Node) (tag : String) : Bool := n.isElement && sameIgnoringCase n.tag tag

/-- The first attribute of this name. -/
def attribute? (n : Node) (name : String) : Option Attribute :=
  n.attributes.find? fun a => a.name == name

def hasAttribute (n : Node) (name : String) : Bool := (n.attribute? name).isSome

/-- From the start tag to the end tag, or to the end of the element if its end tag is missing. -/
def contentSpan? (n : Node) : Option Span :=
  n.startTagEnd.bind fun start =>
    let stop := n.endTagStart.getD n.span.stop
    if start ≤ stop then some ⟨start, stop⟩ else none

end Node

/-- Siblings in document order, each with its children. -/
inductive Forest where
  | nil
  | cons (node : Node) (children : Forest) (rest : Forest)
deriving Repr, Inhabited, DecidableEq

/-- A node by its number, with the numbers of its parent and its children. -/
structure Numbered where
  node : Node
  parent : Option Nat
  children : List Nat
deriving Repr, DecidableEq

namespace Forest

/-- The number of nodes. -/
def size : Forest → Nat
  | nil => 0
  | cons _ children rest => 1 + children.size + rest.size

/-- The nodes in pre-order. -/
def nodes : Forest → List Node
  | nil => []
  | cons node children rest => node :: (children.nodes ++ rest.nodes)

@[simp] theorem length_nodes (f : Forest) : f.nodes.length = f.size := by
  induction f with
  | nil => rfl
  | cons _ _ _ hc hr => simp [nodes, size, hc, hr]; omega

/-- The numbers of the roots, if the first node has number `i`. -/
def rootNumbers : Forest → Nat → List Nat
  | nil, _ => []
  | cons _ children rest, i => i :: rest.rootNumbers (i + 1 + children.size)

/-- All nodes in pre-order with their links, if the first node has number `i` and the roots hang under
`parent`. -/
def numbered (parent : Option Nat) : Forest → Nat → List Numbered
  | nil, _ => []
  | cons node children rest, i =>
    ⟨node, parent, children.rootNumbers (i + 1)⟩ ::
      (children.numbered (some i) (i + 1) ++ rest.numbered parent (i + 1 + children.size))

/-- The elements in pre-order with their numbers. -/
def elements : Forest → Nat → List (Nat × Node)
  | nil, _ => []
  | cons node children rest, i =>
    let inner := children.elements (i + 1) ++ rest.elements (i + 1 + children.size)
    if node.isElement then (i, node) :: inner else inner

/-- The innermost element around an offset: the first root element that holds the byte, or one inside
it. -/
def elementAt? (offset : Nat) : Forest → Nat → Option (Nat × Node)
  | nil, _ => none
  | cons node children rest, i =>
    if node.isElement && node.span.containsByte offset then
      some ((children.elementAt? offset (i + 1)).getD (i, node))
    else rest.elementAt? offset (i + 1 + children.size)

/-- The numbers of the parents of node `target`, nearest first; none if there is no such node. -/
def ancestors? (target : Nat) : Forest → Nat → Option (List Nat)
  | nil, _ => none
  | cons _ children rest, i =>
    if target = i then some []
    else if target < i + 1 + children.size then
      (children.ancestors? target (i + 1)).map fun up => up ++ [i]
    else rest.ancestors? target (i + 1 + children.size)

/-- Puts siblings, given last first with their children, in front of a forest. -/
def prependReversed : List (Node × Forest) → Forest → Forest
  | [], f => f
  | (node, children) :: earlier, f => prependReversed earlier (cons node children f)

end Forest

end Polyglot.Markup
