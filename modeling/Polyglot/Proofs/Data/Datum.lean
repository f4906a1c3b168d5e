import Polyglot.Data.Tree
import Polyglot.Proofs.Data.Plain
import Polyglot.Proofs.Text.Escape

/-!
# Data and their texts

Data without positions: null, truth values, integers of 64 bits and texts, in sequences and in mappings
with texts as keys. They are written as compact JSON (`Datum.json`) or as indented rows (`Datum.rows`).
The shape of a tree is what is left of it without positions and spellings.
-/

namespace Polyglot.Data

open Text Typed

/-! ## Data -/

/-- A scalar without a position. -/
inductive Atom where
  | null
  | bool (b : Bool)
  | int (n : Int64)
  | text (s : String)
deriving DecidableEq

/-- Data without positions. -/
inductive Datum where
  | atom (a : Atom)
  | sequence (items : List Datum)
  | mapping (pairs : List (String × Datum))

/-- The value that a scalar resolves to. -/
def Atom.value : Atom → Value
  | .null => .null
  | .bool b => .bool b
  | .int n => .int n.toInt
  | .text s => .text s

/-! ## Shapes -/

/-- A tree without positions and spellings. -/
inductive Shape where
  | scalar (v : Value)
  | mapping (flow : Bool) (pairs : List (Value × Shape))
  | sequence (flow : Bool) (items : List Shape)

mutual

def Tree.shape : Tree → Shape
  | .scalar x => .scalar x.value
  | .mapping flow _ pairs => .mapping flow (shapesOfPairs pairs)
  | .sequence flow _ items => .sequence flow (shapesOfItems items)

def shapesOfPairs : List (Scalar × Tree) → List (Value × Shape)
  | [] => []
  | (key, value) :: rest => (key.value, value.shape) :: shapesOfPairs rest

def shapesOfItems : List Tree → List Shape
  | [] => []
  | item :: rest => item.shape :: shapesOfItems rest

end

namespace Datum

mutual

/-- The shape of the data in brackets throughout, or only where a collection is empty. -/
def shape (bracketed : Bool) : Datum → Shape
  | atom a => .scalar a.value
  | sequence items => .sequence (bracketed || items.isEmpty) (itemShapes bracketed items)
  | mapping pairs => .mapping (bracketed || pairs.isEmpty) (pairShapes bracketed pairs)

def itemShapes (bracketed : Bool) : List Datum → List Shape
  | [] => []
  | d :: ds => d.shape bracketed :: itemShapes bracketed ds

def pairShapes (bracketed : Bool) : List (String × Datum) → List (Value × Shape)
  | [] => []
  | (key, d) :: ps => (.text key, d.shape bracketed) :: pairShapes bracketed ps

end

mutual

/-- No mapping in it has two equal keys. -/
def HasDistinctKeys : Datum → Prop
  | atom _ => True
  | sequence items => itemsHaveDistinctKeys items
  | mapping pairs => (pairs.map Prod.fst).Nodup ∧ pairsHaveDistinctKeys pairs

def itemsHaveDistinctKeys : List Datum → Prop
  | [] => True
  | d :: ds => d.HasDistinctKeys ∧ itemsHaveDistinctKeys ds

def pairsHaveDistinctKeys : List (String × Datum) → Prop
  | [] => True
  | (_, d) :: ps => d.HasDistinctKeys ∧ pairsHaveDistinctKeys ps

end

def isCollection : Datum → Bool
  | atom _ => false
  | _ => true

end Datum

/-! ## JSON -/

def Atom.json : Atom → String
  | .null => "null"
  | .bool b => if b then "true" else "false"
  | .int n => toString n.toInt
  | .text s => quote s

namespace Datum

/-- A comma, unless nothing follows. -/
def comma {α : Type} (rest : List α) : String := if rest.isEmpty then "" else ","

mutual

/-- The data as JSON without white space. -/
def json : Datum → String
  | atom a => a.json
  | sequence items => "[" ++ jsonItems items ++ "]"
  | mapping pairs => "\x7b" ++ jsonPairs pairs ++ "\x7d"

def jsonItems : List Datum → String
  | [] => ""
  | d :: ds => d.json ++ comma ds ++ jsonItems ds

def jsonPairs : List (String × Datum) → String
  | [] => ""
  | (key, d) :: ps => quote key ++ ":" ++ d.json ++ comma ps ++ jsonPairs ps

end

end Datum

/-! ## Indented rows -/

/-- A line of a text: its indentation and its content. -/
structure Row where
  indent : ℕ
  content : String
deriving DecidableEq

def Row.text (r : Row) : String := String.ofList (List.replicate r.indent ' ') ++ r.content

namespace Datum

/-- What is written behind a key or a dash, on its line; none for a collection with members. -/
def inline? : Datum → Option String
  | atom a => some a.value.literal
  | sequence [] => some "[]"
  | mapping [] => some "\x7b\x7d"
  | _ => none

/-- A key or a dash with what belongs to it: the value on its line, or the rows of a collection below. -/
def member (indent : ℕ) (lead : String) (inline : Option String) (rows : List Row) : List Row :=
  match inline with
  | some text => [⟨indent, lead ++ " " ++ text⟩]
  | none => ⟨indent, lead⟩ :: rows

mutual

/-- The rows of a collection with members, each level two columns deeper than the one around it. -/
def rows (indent : ℕ) : Datum → List Row
  | atom _ => []
  | sequence items => itemRows indent items
  | mapping pairs => pairRows indent pairs

def itemRows (indent : ℕ) : List Datum → List Row
  | [] => []
  | d :: ds => member indent "-" d.inline? (d.rows (indent + 2)) ++ itemRows indent ds

def pairRows (indent : ℕ) : List (String × Datum) → List Row
  | [] => []
  | (key, d) :: ps =>
    member indent ((Value.text key).key ++ ":") d.inline? (d.rows (indent + 2)) ++ pairRows indent ps

end

end Datum

/-- Rows with a line feed between each two. -/
def joinRows : List Row → String
  | [] => ""
  | r :: rs => r.text ++ (if rs.isEmpty then "" else "\n" ++ joinRows rs)

/-- The data as an indented text. -/
def Datum.block (d : Datum) : String := joinRows (d.rows 0)

end Polyglot.Data
