import Polyglot.Diagnostic.Schema
import Polyglot.Projection.Tree
import Polyglot.Session.Config
import Polyglot.Session.Store

/-!
# Workspaces

A workspace keeps, for every open document, its snapshot, the tree of codes derived from it, and the generator
that derives the next one. A call that is refused changes nothing; closing a document forgets all about it but
that it was closed.
-/

namespace Polyglot

structure Workspace where
  config : Config
  store : Store
  trees : Table ProjectionTree
  generators : Table Generator
deriving Repr, Inhabited, DecidableEq

/-- A call that changes a document. -/
inductive Request where
  | openDocument (id text : String) (version : Int)
  | update (id text : String) (version : Int)
  | edit (id : String) (changes : List Change) (version : Int)
  | close (id : String)
deriving Repr, Inhabited, DecidableEq

namespace Request

/-- The document that a call is about. -/
def id : Request → String
  | openDocument id _ _ => id
  | update id _ _ => id
  | edit id _ _ => id
  | close id => id

end Request

namespace Workspace

/-- A workspace without documents. -/
def empty (config : Config) : Workspace := ⟨config, .empty, .empty, .empty⟩

/-- The latest tree of an open document. -/
def tree? (w : Workspace) (id : String) : Option ProjectionTree := w.trees.get? id

def snapshot? (w : Workspace) (id : String) : Option Snapshot := w.store.get? id

def isCurrent (w : Workspace) (id : String) (version : Int) : Bool := w.store.isCurrent id version

def diagnostics (w : Workspace) (id : String) : List Diagnostic :=
  ((w.tree? id).map (·.diagnostics)).getD []

def hasErrors (w : Workspace) (id : String) : Bool := (w.tree? id).any (·.hasErrors)

/-- The code with this id and the tree it belongs to. -/
def findCode? (w : Workspace) (id : String) : Option (ProjectionTree × Code) :=
  w.trees.entries.findSome? fun (_, t) => (t.find? id).map fun code => (t, code)

/-- Complaints of a type checker about the literal of a document, carried back to the document. -/
def schemaDiagnostics (w : Workspace) (id : String) (reported : List Diagnostic) : List Diagnostic :=
  match w.tree? id with
  | none => []
  | some t =>
    Diagnostic.reshape reported (t.find? (Draft.literalId id)) t.frontMatter (Text.size t.root.text)

/-! ## Calls -/

/-- How a call ends: refused, or with the tree of the document, if it still is open. -/
abbrev Reply := Except StoreError (Option ProjectionTree)

/-- Derives the tree of a new snapshot, and keeps it. -/
def publish (w : Workspace) (compiler : Compiler) (id : String) (store : Store) (snapshot : Snapshot) :
    Except Data.TornCharacter (Workspace × ProjectionTree) := do
  let generator := (w.generators.get? id).getD {}
  let (tree, generator) ← generator.generate id snapshot.version snapshot.text (w.config.kindOf id)
    (w.config.collectionOf? id) compiler (w.tree? id)
  return ({ w with
    store
    trees := w.trees.put id tree
    generators := w.generators.put id generator }, tree)

/-- Forgets a document that was closed. -/
def forget (w : Workspace) (id : String) (store : Store) : Workspace :=
  { w with store, trees := w.trees.erase id, generators := w.generators.erase id }

/-- The store and the snapshot that a call leads to; no snapshot if it closes the document. -/
def advance (s : Store) : Request → Except StoreError (Store × Option Snapshot)
  | .openDocument id text version => (s.openDocument id text version).map fun (s, x) => (s, some x)
  | .update id text version => (s.update id text version).map fun (s, x) => (s, some x)
  | .edit id changes version => (s.edit id changes version).map fun (s, x) => (s, some x)
  | .close id => (s.close id).map fun s => (s, none)

/-- Answering a call takes a run of the compiler. -/
def compiles (w : Workspace) (r : Request) : Bool :=
  match advance w.store r with
  | .ok (_, some snapshot) =>
    ((w.generators.get? r.id).getD {}).compiles (w.config.kindOf r.id) snapshot.text
  | _ => false

/-- Answers a call. -/
def perform (w : Workspace) (compiler : Compiler) (r : Request) :
    Except Data.TornCharacter (Workspace × Reply) :=
  match advance w.store r with
  | .error e => .ok (w, .error e)
  | .ok (store, none) => .ok (w.forget r.id store, .ok none)
  | .ok (store, some snapshot) => do
    let (w, tree) ← w.publish compiler r.id store snapshot
    return (w, .ok (some tree))

/-- Answers calls one after the other. -/
def run (w : Workspace) (compiler : Compiler) :
    List Request → Except Data.TornCharacter (Workspace × List Reply)
  | [] => .ok (w, [])
  | r :: rs => do
    let (w, reply) ← w.perform compiler r
    let (w, replies) ← w.run compiler rs
    return (w, reply :: replies)

end Workspace

end Polyglot
