import SourceAtlas.Json.Writer
import SourceAtlas.Report.Basic

/-!
Reports as JSON documents.
-/
namespace SourceAtlas.Report

def json (r : Report) : Except Json.WriteFault (List Char) := Json.document r.toDatum

/-- The cycles and warnings of a report with its headline counts. -/
def cyclesDatum (r : Report) : Datum := .table [
  ("project_path", .text r.projectPath),
  ("healthy", .bool r.summary.healthy),
  ("summary", r.summary.toDatum),
  ("cycles", .list (r.cycles.map Cycle.toDatum)),
  ("warnings", .list (r.warnings.map Warning.toDatum))]

def cyclesJson (r : Report) : Except Json.WriteFault (List Char) := Json.document r.cyclesDatum

end SourceAtlas.Report
