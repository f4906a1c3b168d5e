import Polyglot.Text.Lines
import Polyglot.Diagnostic.Basic

/-!
# Diagnostics for an editor

An editor wants lines and UTF-16 columns, severities as numbers, and signed codes.
-/

namespace Polyglot

/-- A range between two places, whose columns count UTF-16 units. -/
structure Range16 where
  start : Place
  stop : Place
deriving DecidableEq, Repr, Inhabited

/-- The range of a span of the text `s`, whose line table is `t`. -/
def Range16.ofSpan (s : String) (t : LineTable) (r : Span) : Range16 :=
  let place (offset : Nat) : Place :=
    let p := t.position16 s offset
    ⟨p.1, p.2⟩
  ⟨place r.start, place r.stop⟩

/-- The number of a severity: 1 is the worst. -/
def Severity.rank : Severity → Nat
  | .error => 1
  | .warning => 2
  | .information => 3
  | .hint => 4

/-- A diagnostic as an editor takes it. -/
structure ProtocolDiagnostic where
  range : Range16
  severity : Nat
  /-- The bits of the code, read as a signed number. -/
  code : Option Int
  source : String
  message : String
deriving DecidableEq, Repr, Inhabited

def Diagnostic.toProtocol (d : Diagnostic) (s : String) (t : LineTable) : ProtocolDiagnostic :=
  ⟨.ofSpan s t d.span, d.severity.rank, d.code.map fun c => (c.toNat : Int).bmod 0x100000000,
    d.origin.label, d.message⟩

end Polyglot
