import Polyglot.Map.SourceMap
import Polyglot.Projection.Language

/-!
# Generated codes

A code is a text in one language with the map back to its source; codes form a tree. Two codes have the same
content when they are equal, their children left out.
-/

namespace Polyglot

structure Code where
  id : String
  language : Language
  text : String
  map : SourceMap
deriving DecidableEq, Repr, Inhabited

namespace Code

/-- A code with these mappings, in any order. -/
def make (id : String) (language : Language) (text : String) (mappings : List Mapping) : Code :=
  ⟨id, language, text, .ofList mappings⟩

/-- The text between two offsets, clamped to the text. -/
def textBetween (c : Code) (start stop : Nat) : String := Span.clampedSlice start stop c.text

end Code

/-- A code with the codes derived from it. -/
inductive CodeTree where
  | node (code : Code) (children : List CodeTree)
deriving Repr, Inhabited

namespace CodeTree

def code : CodeTree → Code
  | node code _ => code

def children : CodeTree → List CodeTree
  | node _ children => children

mutual

/-- The code and all below it, each before its children. -/
def codes : CodeTree → List Code
  | node code children => code :: codesOfAll children

def codesOfAll : List CodeTree → List Code
  | [] => []
  | t :: ts => t.codes ++ codesOfAll ts

end

/-- The first code with this id. -/
def find? (t : CodeTree) (id : String) : Option Code := t.codes.find? (·.id == id)

/-- The first code below the root with this id. -/
def findBelow? (t : CodeTree) (id : String) : Option Code :=
  (codesOfAll t.children).find? (·.id == id)

end CodeTree

end Polyglot
