import Polyglot.Text.Quoted
import Polyglot.Map.Segment
import Polyglot.Map.Vlq.Number

/-!
# Writing source maps

The other direction: segments whose generated lines ascend become the mappings of a map with one source.
-/

namespace Polyglot

namespace Vlq

/-- The fields of a segment, as differences to the generated column `column` and the source place `source`. A
segment without a source has one field, any other has four. -/
def fieldsOf (column : Nat) (source : Place) (s : Segment) : List Int :=
  (s.generated.column - column : Int) ::
    match s.source with
    | none => []
    | some p => [0, (p.line - source.line : Int), (p.column - source.column : Int)]

/-- The text of segments behind a place in the generated code and a place in the source. A semicolon ends a
line, and a comma stands between two segments of a line; `first` says that the line holds none yet. -/
def mappingsText (here source : Place) (first : Bool) : List Segment → List Char
  | [] => []
  | s :: rest =>
    let lines := s.generated.line - here.line
    let column := if lines = 0 then here.column else 0
    let separators := if lines = 0 then (if first then [] else [',']) else List.replicate lines ';'
    separators ++ ofNumbers (fieldsOf column source s) ++
      mappingsText s.generated (s.source.getD source) false rest

/-- The text of all segments. -/
def mappingsOf (segments : List Segment) : String :=
  .ofList (mappingsText ⟨0, 0⟩ ⟨0, 0⟩ true segments)

/-- The JSON text of a map with one source, named `source`. -/
def encode (source : String) (segments : List Segment) : String :=
  "\x7b\"version\":3,\"sources\":[" ++ Text.quote source ++ "],\"names\":[],\"mappings\":" ++
    Text.quote (mappingsOf segments) ++ "\x7d"

end Vlq

end Polyglot
