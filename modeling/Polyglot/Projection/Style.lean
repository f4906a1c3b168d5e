import Polyglot.Markup.Region
import Polyglot.Projection.Code

/-!
# Style codes

Each style element becomes a stylesheet of its own. All quoted style attributes together become one more,
each value wrapped in a rule so that it parses on its own.
-/

namespace Polyglot

namespace Style

/-- Everything but formatting, which would fight the indentation of the markup around the block. -/
def blockCapabilities : Capabilities := Capabilities.all.without .format

/-- Attribute values only get color swatches and hover. -/
def attributeCapabilities : Capabilities := .color ||| .hover

/-- The style language that a `lang` attribute names; blanks around it and ASCII case do not matter. -/
def languageOf? (lang : String) : Option Language :=
  let name := (Text.trim lang).toList.map Char.toLower
  if name = [] ∨ name = "css".toList then some .css
  else if name = "scss".toList ∨ name = "sass".toList then some .scss
  else if name = "less".toList then some .less
  else none

/-- The literal value of the `lang` attribute of a region's element, or nothing. -/
def lang (s : String) (r : Markup.Region) : String :=
  (((r.element.bind fun e => e.2.attribute? "lang").bind (·.staticValue? s))).getD ""

/-- The code of style block number `index`; none for an unknown language. -/
def blockCode? (id s : String) (index : Nat) (r : Markup.Region) : Option Code := do
  let language ← languageOf? (lang s r)
  let content ← r.span.slice? s
  return .make (id ++ "." ++ toString index ++ "." ++ language.extension) language content
    [⟨r.span, .withLength 0 r.span.length, blockCapabilities⟩]

/-- The codes of all style blocks. A block without a code keeps its number, so that the ids of later blocks
do not move. -/
def blockCodes (id s : String) (regions : List Markup.Region) : List Code :=
  (((regions.filter (·.kind == .styleBlock)).zipIdx).filterMap fun (r, i) => blockCode? id s i r)

/-- What stands in front of an attribute value, and behind it. -/
def ruleOpen : String := "x \x7b "

def ruleClose : String := " \x7d\n"

/-- The rules of attribute values, with their mappings; the text of the first begins at offset `at_`. -/
def rules (s : String) (at_ : Nat) : List Markup.Region → String × List Mapping
  | [] => ("", [])
  | r :: rest =>
    match r.span.slice? s with
    | none => rules s at_ rest
    | some value =>
      let start := at_ + Text.size ruleOpen
      let rule := ruleOpen ++ value ++ ruleClose
      let more := rules s (at_ + Text.size rule) rest
      (rule ++ more.1,
        ⟨r.span, .withLength start r.span.length, attributeCapabilities⟩ :: more.2)

/-- The code of all quoted style attributes, if there are any. -/
def attributeCode? (id s : String) (regions : List Markup.Region) : Option Code :=
  let (text, mappings) := rules s 0 (regions.filter (·.kind == .styleAttribute))
  if mappings.isEmpty then none else some (.make (id ++ ".inline.css") .css text mappings)

end Style

end Polyglot
