import Polyglot.Text.Lines
import Polyglot.Map.Vlq.Envelope
import Polyglot.Diagnostic.Basic

/-!
# The template compiler

The compiler that turns a template into typed code is not part of this library; it is a function from a text
and a file name. Whatever goes wrong with it becomes an empty output with one diagnostic.
-/

namespace Polyglot

/-- What a compiler returns. -/
structure CompilerOutput where
  code : String
  segments : List Segment
  /-- The unit of the columns in the segments. -/
  columnUnit : ColumnUnit
  diagnostics : List Diagnostic
deriving DecidableEq, Repr, Inhabited

inductive CompilerError where
  | failed (message : String)
  /-- No answer within so many milliseconds. -/
  | timeout (milliseconds : Nat)
  | panicked
  | workerGone
  | sourceMap (message : String)
deriving DecidableEq, Repr, Inhabited

/-- A duration in the largest unit that it reaches, seconds with as many decimals as they need. -/
def durationText (milliseconds : Nat) : String :=
  if milliseconds = 0 then "0ns"
  else if milliseconds < 1000 then toString milliseconds ++ "ms"
  else
    let thousandths := Nat.toDigits 10 (1000 + milliseconds % 1000)
    let decimals := (thousandths.tail.reverse.dropWhile (· == '0')).reverse
    let point := if decimals.isEmpty then "" else "."
    toString (milliseconds / 1000) ++ point ++ String.ofList decimals ++ "s"

def CompilerError.message : CompilerError → String
  | .failed message => "compiler failed: " ++ message
  | .timeout milliseconds => "compiler did not answer within " ++ durationText milliseconds
  | .panicked => "compiler panicked"
  | .workerGone => "compiler worker is gone"
  | .sourceMap message => "malformed source map: " ++ message

/-- A compiler, called with a text and a file name. -/
abbrev Compiler := String → String → Except CompilerError CompilerOutput

/-- The code of the diagnostic for a failed compilation. -/
def compilerFailureCode : UInt32 := 1000

def compilerFailureMessage : String :=
  "The template compiler encountered an unknown error while parsing this file. " ++
    "An empty file is used instead."

namespace CompilerOutput

/-- Code with a version 3 source map, whose columns count UTF-16 units. -/
def ofSourceMap (code json : String) : Except CompilerError CompilerOutput :=
  match Vlq.decode json with
  | .ok segments => .ok ⟨code, segments, .utf16, []⟩
  | .error fault => .error (.sourceMap fault.message)

/-- What stands in for the output of a failed compilation. -/
def placeholder : CompilerOutput :=
  ⟨"", [], .utf8, [⟨.emptyAt 0, .error, some compilerFailureCode, compilerFailureMessage, .compiler⟩]⟩

/-- Empty code with the diagnostic of a failure. -/
def isPlaceholder (o : CompilerOutput) : Bool :=
  o.code.isEmpty && o.diagnostics.any fun d => d.code == some compilerFailureCode

end CompilerOutput

/-- Runs a compiler. An error, and an output without code, become the placeholder. -/
def Compiler.run (compiler : Compiler) (text filename : String) : CompilerOutput :=
  match compiler text filename with
  | .ok output => if output.code.isEmpty then .placeholder else output
  | .error _ => .placeholder

/-! ## Workers -/

/-- How a call of a compiler in a worker ends. -/
inductive Attempt where
  | returns (result : Except CompilerError CompilerOutput)
  /-- The call breaks off; the worker lives on. -/
  | panics
  /-- The call does not end in time; its worker is given up for a fresh one. -/
  | hangs
deriving Repr

/-- The result of a call in a worker that waits so many milliseconds. -/
def Attempt.result (timeout : Nat) : Attempt → Except CompilerError CompilerOutput
  | returns result => result
  | panics => .error .panicked
  | hangs => .error (.timeout timeout)

end Polyglot
