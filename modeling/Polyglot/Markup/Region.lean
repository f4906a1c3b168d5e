import Polyglot.Markup.Document

/-!
# Regions of a document

The parts of a component that hold another language: the front matter, the contents of style and script
elements, and quoted style attributes. An element whose end tag is missing has no region yet.
-/

namespace Polyglot.Markup

inductive RegionKind where
  /-- The whole document. -/
  | template
  /-- The front matter, fences included. -/
  | frontMatter
  | styleBlock
  /-- The quoted value of a style attribute. -/
  | styleAttribute
  | scriptBlock
deriving DecidableEq, Repr, Inhabited

/-- A part of a document, and the number and node of the element it belongs to. -/
structure Region where
  kind : RegionKind
  span : Span
  element : Option (Nat × Node) := none
deriving DecidableEq, Repr, Inhabited

/-- The kind of the region that an element's content makes up. -/
def Node.blockKind? (n : Node) : Option RegionKind :=
  if n.isTag "style" then some .styleBlock
  else if n.isTag "script" then some .scriptBlock
  else none

/-- The content region of an element. -/
def blockRegion? (e : Nat × Node) : Option Region := do
  let kind ← e.2.blockKind?
  let start ← e.2.startTagEnd
  let stop ← e.2.endTagStart
  return ⟨kind, ⟨start, stop⟩, some e⟩

/-- The region of an element's style attribute. -/
def styleRegion? (e : Nat × Node) : Option Region := do
  let attr ← e.2.attribute? "style"
  let value ← attr.value
  match value.kind with
  | .double | .single => return ⟨.styleAttribute, value.span, some e⟩
  | .unquoted | .expression => none

/-- The regions of a document of `size` bytes: the whole, the front matter, then those of each element in
document order. -/
def Document.regions (d : Document) (size : Nat) : List Region :=
  ⟨.template, ⟨0, size⟩, none⟩ ::
    ((d.frontMatter.span? size).map fun span => Region.mk .frontMatter span none).toList ++
    d.elements.flatMap fun e => (blockRegion? e).toList ++ (styleRegion? e).toList

end Polyglot.Markup
