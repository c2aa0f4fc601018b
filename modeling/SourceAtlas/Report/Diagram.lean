import SourceAtlas.Graph.Basic
import SourceAtlas.Number.Decimal
import SourceAtlas.Text.Parts

/-!
The dependency graph as a drawing: Mermaid and DOT. Nodes are numbered in graph order and labelled
with their names.
-/
namespace SourceAtlas.Diagram

open Number Text

/-- The number of each node, from one on. Of two nodes with one name the
last number counts. -/
def numbers (g : DependencyGraph) : Assoc Text Nat :=
  Assoc.ofPairs (g.nodes.mapIdx fun i n => (n.id, i + 1))

/-- The mark of a node in the drawing, or its name if it is no node. -/
def markOf (ids : Assoc Text Nat) (id : Text) : Except Text Text :=
  match Assoc.get? id ids with
  | some n => .ok ("N" ++ Style.natText n)
  | none => .error id

/-- One line for each node and one for each edge, or the first
name that is no node. -/
def nodeLines (g : DependencyGraph) (line : Text → Text → Text) :
    Except Text (List Text) :=
  g.nodes.mapM fun n => return line (← markOf (numbers g) n.id) n.id

def edgeLines (g : DependencyGraph) (line : Text → Text → Text) :
    Except Text (List Text) :=
  g.edges.mapM fun e => do
    let source ← markOf (numbers g) e.source
    let target ← markOf (numbers g) e.target
    return line source target

def lineText (lines : List Text) : Text := Text.intercalate "\n" lines ++ "\n"

/-- A label between double quotes in Mermaid. -/
def mermaidLabel (text : Text) : Text := replaceChar '"' "#quot;" text

/-- A label between double quotes in DOT. -/
def dotLabel (text : Text) : Text := replaceChar '"' "\\\"" (replaceChar '\\' "\\\\" text)

/-- The graph as a Mermaid flowchart, top down. -/
def mermaid (g : DependencyGraph) : Except Text Text := do
  let nodes ← nodeLines g fun mark id => "  " ++ mark ++ "[\"" ++ mermaidLabel id ++ "\"]"
  let edges ← edgeLines g fun source target => "  " ++ source ++ " --> " ++ target
  let head : List Text := ["graph TD"]
  return lineText (head ++ nodes ++ edges)

def dot (g : DependencyGraph) : Except Text Text := do
  let nodes ← nodeLines g fun mark id => "  " ++ mark ++ " [label=\"" ++ dotLabel id ++ "\"];"
  let edges ← edgeLines g fun source target => "  " ++ source ++ " -> " ++ target ++ ";"
  let head : List Text :=
    ["digraph Dependencies \x7b", "  rankdir=LR;", "  node [shape=box, style=rounded];", ""]
  let gap : List Text := if g.edges.isEmpty then [] else [""]
  let foot : List Text := ["\x7d"]
  return lineText (head ++ nodes ++ gap ++ edges ++ foot)

end SourceAtlas.Diagram
