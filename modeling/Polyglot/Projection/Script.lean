import Polyglot.Markup.Region
import Polyglot.Projection.Code

/-!
# Script codes

Each script element whose type is that of a script becomes a code of its own.
-/

namespace Polyglot

namespace Script

/-- Everything but formatting: an inline script is shipped as it stands. -/
def inlineCapabilities : Capabilities := Capabilities.all.without .format

/-- The `type` values of scripts; ASCII case does not matter. -/
def scriptTypes : List String :=
  ["module", "text/javascript", "application/javascript", "text/partytown"]

/-- The element holds a script and not data. -/
def holdsScript (s : String) (n : Markup.Node) : Bool :=
  match n.attribute? "type" with
  | none => true
  | some attr =>
    (attr.staticValue? s).any fun value =>
      scriptTypes.any fun known => Markup.sameIgnoringCase known (Text.trim value)

/-- The code of script number `index`; none for data. -/
def code? (id s : String) (index : Nat) (r : Markup.Region) : Option Code := do
  let (_, node) ← r.element
  if holdsScript s node then
    let (language, capabilities) : Language × Capabilities :=
      if node.hasAttribute "is:inline" then (.javascript, inlineCapabilities)
      else (.typescript, .all)
    let content ← r.span.slice? s
    return .make (id ++ "." ++ toString index ++ "." ++ language.extension) language content
      [⟨r.span, .withLength 0 r.span.length, capabilities⟩]
  else none

/-- The codes of all scripts. An element without a code keeps its number. -/
def codes (id s : String) (regions : List Markup.Region) : List Code :=
  (((regions.filter (·.kind == .scriptBlock)).zipIdx).filterMap fun (r, i) => code? id s i r)

end Script

end Polyglot
