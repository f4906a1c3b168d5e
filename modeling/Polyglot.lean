import Polyglot.Text.Lines
import Polyglot.FrontMatter
import Polyglot.Digest.Fingerprint
import Polyglot.Markup.Region
import Polyglot.Data.Block
import Polyglot.Map.Repair
import Polyglot.Map.Vlq.Envelope
import Polyglot.Map.Vlq.Writer
import Polyglot.Diagnostic.Protocol
import Polyglot.Diagnostic.Schema
import Polyglot.Compiler.Basic
import Polyglot.Projection.Code
import Polyglot.Projection.Style
import Polyglot.Projection.Script
import Polyglot.Projection.DataLiteral
import Polyglot.Projection.Tree
import Polyglot.Json.Reader
import Polyglot.Session.Config
import Polyglot.Session.Workspace
import Polyglot.Proofs.Text.Boundary
import Polyglot.Proofs.Text.Columns
import Polyglot.Proofs.Map.Coalesce
import Polyglot.Proofs.Map.Repair
import Polyglot.Proofs.Text.Octet
import Polyglot.Proofs.Text.Stretch
import Polyglot.Proofs.Data.Scan
import Polyglot.Proofs.Data.Reading
import Polyglot.Proofs.Data.Flow
import Polyglot.Proofs.Data.Lines
import Polyglot.Proofs.Data.Block
import Polyglot.Proofs.Text.Shade
import Polyglot.Proofs.Data.Shade
import Polyglot.Proofs.Data.Torn
import Polyglot.Proofs.Projection.Lines
import Polyglot.Proofs.Projection.Pieces
import Polyglot.Proofs.FrontMatter
import Polyglot.Proofs.Projection.BlankLines
import Polyglot.Proofs.Projection.DataLiteral
import Polyglot.Proofs.Projection.LastValid
import Polyglot.Proofs.Map.Lookup
import Polyglot.Proofs.Map.Order
import Polyglot.Proofs.Map.Resolve
import Polyglot.Proofs.Projection.Layout
import Polyglot.Proofs.Projection.Names
import Polyglot.Proofs.Projection.Changes
import Polyglot.Proofs.Projection.Incremental
import Polyglot.Proofs.Markup.Stream
import Polyglot.Proofs.Session.Lifecycle
import Polyglot.Proofs.Session.Isolation
import Polyglot.Proofs.Markup.Forest
import Polyglot.Proofs.Markup.Nesting
import Polyglot.Proofs.Markup.Region
import Polyglot.Proofs.Map.Narrowing
import Polyglot.Proofs.Text.Spans
import Polyglot.Proofs.Markup.Edges
import Polyglot.Proofs.Markup.Tiling
import Polyglot.Proofs.Markup.Numbering
import Polyglot.Proofs.Markup.Origin
import Polyglot.Proofs.Markup.Arena
import Polyglot.Proofs.Data.Coverage
import Polyglot.Proofs.Typed.Lexeme
import Polyglot.Proofs.Typed.Expr
import Polyglot.Proofs.Typed.Quoted
import Polyglot.Proofs.Number.Shortest
import Polyglot.Proofs.Number.Text
import Polyglot.Proofs.Projection.Expression
import Polyglot.Proofs.Session.Edit
import Polyglot.Proofs.Data.Datum
import Polyglot.Proofs.Data.Spelling
import Polyglot.Proofs.Data.Bracketed
import Polyglot.Proofs.Data.Json
import Polyglot.Proofs.Data.Indented
import Polyglot.Proofs.Markup.Source
import Polyglot.Proofs.Markup.Scanning
import Polyglot.Proofs.Markup.RoundTrip
import Polyglot.Proofs.Json.Reading
import Polyglot.Proofs.Map.Encoding
import Polyglot.Proofs.Projection.Failure
import Polyglot.Proofs.Data.Order
import Polyglot.Proofs.Map.Monotone
import Polyglot.Proofs.Diagnostic.Schema
import Polyglot.Proofs.Session.Schema
import Polyglot.Proofs.Data.Assembly
import Polyglot.Proofs.Data.Nodes
import Polyglot.Proofs.Data.Repeats
import Polyglot.Proofs.Data.Entry
import Polyglot.Proofs.Data.Chomping
import Polyglot.Proofs.Data.Quoting
import Polyglot.Proofs.Markup.RawText
import Polyglot.Proofs.Markup.Lookup
import Polyglot.Proofs.Markup.Prologue
import Polyglot.Proofs.Data.Numeral
import Polyglot.Proofs.Data.Resolution
import Polyglot.Proofs.Text.Places
import Polyglot.Proofs.Map.Unordered
import Polyglot.Proofs.FrontMatter.Lines
import Polyglot.Proofs.Markup.Slices
import Polyglot.Proofs.Projection.Embedded
import Polyglot.Proofs.Map.Insertion
import Polyglot.Proofs.Turns
import Polyglot.Proofs.Data.FlowTurns
import Polyglot.Proofs.Data.BlockTurns
import Polyglot.Proofs.Data.Progress
