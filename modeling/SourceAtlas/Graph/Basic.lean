import SourceAtlas.Graph.Components
import SourceAtlas.Record.Basic
import SourceAtlas.Schema.Reader

/-!
The graph of a project: one node per file, one edge per pair of files of which one imports the
other.
-/
namespace SourceAtlas

open Schema

/-- A file of the project. -/
structure Node where
  /-- The path from the project root. -/
  id : Text
  path : Text
  label : Text
  role : Role := .unknown
  deriving DecidableEq, Repr

/-- A file that imports another. -/
structure Edge where
  source : Text
  target : Text
  deriving DecidableEq, Repr

structure DependencyGraph where
  nodes : List Node := []
  edges : List Edge := []
  deriving DecidableEq, Repr

namespace DependencyGraph

/-- Add the target of an edge to the successors of its source,
which must be a node. -/
def addEdge (m : Graph.Adjacency Text) (e : Edge) : Except Text (Graph.Adjacency Text) :=
  match Assoc.get? e.source m with
  | none => .error e.source
  | some targets => .ok (Assoc.put e.source (targets ++ [e.target]) m)

/-- Each node with the targets of its edges in order, or the first source
that is no node. -/
def adjacency (g : DependencyGraph) : Except Text (Graph.Adjacency Text) :=
  g.edges.foldlM addEdge (Assoc.ofPairs (g.nodes.map fun n => (n.id, [])))

/-- The role of each node; of two nodes with one name the last counts. -/
def roles (g : DependencyGraph) : Assoc Text Role :=
  Assoc.ofPairs (g.nodes.map fun n => (n.id, n.role))

/-- The edges that the imports of one record give. `ids` maps
paths to node names. -/
def recordEdges (ids : Assoc Text Text) (r : Record) : List Edge :=
  (r.imports.filter fun i => i.kind = .inside).filterMap fun i =>
    (Assoc.get? (i.resolved.getD "") ids).map fun target => ⟨r.relativePath, target⟩

/-- The members of a list without repetition, each at its first place;
`seen` are left out. -/
def firsts (seen : List Edge) : List Edge → List Edge
  | [] => []
  | e :: rest => if e ∈ seen then firsts seen rest else e :: firsts (e :: seen) rest

def nodeOf (r : Record) : Node := ⟨r.relativePath, r.path, baseName r.relativePath, r.role⟩

def ofRecords (records : List Record) : DependencyGraph :=
  let ids := Assoc.ofPairs (records.map fun r => (r.path, r.relativePath))
  ⟨records.map nodeOf, firsts [] (records.flatMap (recordEdges ids))⟩

end DependencyGraph

namespace Node

def toDatum (n : Node) : Datum := .table [
  ("id", .text n.id),
  ("path", .text n.path),
  ("label", .text n.label),
  ("role", .text n.role.word)]

def read : Reader Node := Reader.shape fun fs =>
  Node.mk <$> required "id" Reader.text fs
    <*> required "path" Reader.text fs
    <*> required "label" Reader.text fs
    <*> field "role" .unknown (Reader.member Role.all Role.word) fs

end Node

namespace Edge

def toDatum (e : Edge) : Datum := .table [
  ("source", .text e.source),
  ("target", .text e.target)]

def read : Reader Edge := Reader.shape fun fs =>
  Edge.mk <$> required "source" Reader.text fs <*> required "target" Reader.text fs

end Edge

namespace DependencyGraph

def toDatum (g : DependencyGraph) : Datum := .table [
  ("nodes", .list (g.nodes.map Node.toDatum)),
  ("edges", .list (g.edges.map Edge.toDatum))]

def read : Reader DependencyGraph := Reader.shape fun fs =>
  DependencyGraph.mk <$> field "nodes" [] (Reader.list Node.read) fs
    <*> field "edges" [] (Reader.list Edge.read) fs

end DependencyGraph

end SourceAtlas
