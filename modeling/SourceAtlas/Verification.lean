import SourceAtlas.Analysis
import SourceAtlas.Json.Writer

/-!
Whether two analyses of one project agree. Both pass the cache by.
-/
namespace SourceAtlas.Verification

/-- The parts of a report that are compared. -/
inductive Part where
  | graph | cycles
  deriving DecidableEq, Repr

def Part.word : Part → Text
  | .graph => "graph"
  | .cycles => "cycles"

def cycleTexts (r : Report) : Except Json.WriteFault (List (List Char)) :=
  r.cycles.mapM fun c => Json.document c.toDatum

/-- The parts in which two reports differ as documents, if
they have documents. -/
def differing (a b : Report) : Except Json.WriteFault (List Part) := do
  let graphs : List Part :=
    if (← Json.document a.graph.toDatum) = (← Json.document b.graph.toDatum) then [] else [.graph]
  let cycles : List Part := if (← cycleTexts a) = (← cycleTexts b) then [] else [.cycles]
  return graphs ++ cycles

/-- Analyse a project twice and name the parts that differ. -/
def run (root : Path) (given : Option Config) : Action (List Part) := do
  let first ← Analysis.run root false given
  let second ← Analysis.run root false given
  match differing first second with
  | .ok parts => return parts
  | .error _ => throw .unwritable

end SourceAtlas.Verification
