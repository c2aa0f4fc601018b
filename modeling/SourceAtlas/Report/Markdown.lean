import SourceAtlas.Report.Basic
import SourceAtlas.Text.Parts

/-!
Reports as Markdown. Cycles and warnings have sections of their own; a project with neither is
said to be healthy.
-/
namespace SourceAtlas.Markdown

open Number Text

/-- Why a report has no Markdown text. -/
inductive Gap where
  /-- A file is listed as imported but its count is not known. -/
  | noCount (id : Text)
  /-- A cycle without members has no first one to lead back to. -/
  | emptyCycle
  deriving DecidableEq, Repr

def healthyMessage : Text := "No dependency cycles and no warnings: the project is healthy."

def countText (n : Nat) : String := Style.natText n

def row (cells : List Text) : Text := "| " ++ Text.intercalate " | " cells ++ " |"

def tableLines (headers : List Text) (rows : List (List Text)) : List Text :=
  let rule := "|" ++ Text.intercalate "|" (headers.map fun _ => "---") ++ "|"
  [row headers, rule] ++ rows.map row ++ ([""] : List Text)

def severityMark : Severity → Text
  | .error => "ERROR"
  | .warning => "WARNING"

def cycleSection (number : Nat) (c : Cycle) : Except Gap (List Text) :=
  match c.members with
  | [] => .error .emptyCycle
  | first :: _ =>
    let heading : List Text :=
      ["### Cycle " ++ countText number ++ " [" ++ severityMark c.severity ++ "] " ++ c.kind.word ++
        " (" ++ counted (countText c.members.length) "file" ++ ")", ""]
    let members : List Text := c.members.mapIdx fun i m => countText (i + 1) ++ ". `" ++ m ++ "`"
    .ok (heading ++ members ++ ["   ↺ back to `" ++ first ++ "`", ""])

def cycleLines (cycles : List Cycle) : Except Gap (List Text) :=
  if cycles.isEmpty then .ok ["No dependency cycles found.", ""]
  else return (← (cycles.mapIdx fun i c => (i + 1, c)).mapM fun p => cycleSection p.1 p.2).flatten

def warningLine (w : Warning) : Text :=
  let place := match w.path with
    | some p => if p = "" then "" else " `" ++ p ++ "`"
    | none => ""
  "- [" ++ w.kind.heading ++ "]" ++ place ++ ": " ++ w.message

def warningLines (warnings : List Warning) : List Text :=
  if warnings.isEmpty then []
  else
    let heading : List Text := ["## Warnings (" ++ countText warnings.length ++ ")", ""]
    heading ++ warnings.map warningLine ++ ([""] : List Text)

def summaryLines (r : Report) : List Text :=
  let s := r.summary
  ["## Summary", "",
    "- **Project Path**: " ++ r.projectPath,
    "- **Total Files**: " ++ Datum.intText s.totalFiles,
    "- **Total Lines**: " ++ Datum.intText s.totalLines,
    "- **Total Functions**: " ++ Datum.intText s.totalFunctions,
    "- **Total Classes**: " ++ Datum.intText s.totalClasses,
    (if s.cacheEnabled then
      "- **Cache**: " ++ Datum.intText s.cacheHits ++ " hits, " ++ Datum.intText s.cacheMisses ++
        " misses"
    else "- **Cache**: disabled"), ""]

def healthLines (s : Summary) : List Text :=
  (["## Health", ""] : List Text) ++
    if s.healthy then [healthyMessage, ""]
    else
      ["- **Error cycles**: " ++ Datum.intText s.errorCycles,
        "- **Warning cycles**: " ++ Datum.intText s.warningCycles,
        "- **Warnings**: " ++ Datum.intText s.warningCount, ""]

def metricLines (m : Metrics) : List Text :=
  (["## Metrics", "",
    "- **Average Functions/File**: " ++ m.averageFunctions.twoPlaces,
    "- **Average Lines/File**: " ++ m.averageLines.twoPlaces, ""] : List Text) ++
  if m.roleCounts.isEmpty then []
  else
    (["## File Roles", ""] : List Text) ++
      tableLines ["Role", "Count"] (m.roleCounts.map fun p => [p.1, Datum.intText p.2])

def componentLine (c : ComponentEntry) : Text :=
  let selector := match c.selector with
    | some s => if s = "" then "" else " `<" ++ s ++ ">`"
    | none => ""
  "- **" ++ c.name ++ "**" ++ selector ++ " (" ++ c.path ++ ")"

/-- A heading with the number of its entries, and one line for each. -/
def entryLines (heading : Text) (lines : List Text) : List Text :=
  (["## " ++ heading ++ " (" ++ countText lines.length ++ ")", ""] : List Text) ++ lines ++
    ([""] : List Text)

def inventoryLines (i : Inventory) : List Text :=
  entryLines "Modules" (i.modules.map fun m => "- **" ++ m.name ++ "** (" ++ m.path ++ ")") ++
  entryLines "Components" (i.components.map componentLine) ++
  entryLines "Services" (i.services.map fun s => "- **" ++ s.name ++ "** (" ++ s.path ++ ")")

def largestLines (m : Metrics) : List Text :=
  if m.largestFiles.isEmpty then []
  else
    (["## Largest Files", ""] : List Text) ++
      tableLines ["File", "Lines"] (m.largestFiles.map fun f => [f.path, Datum.intText f.lines])

/-- The files imported most, each with its count. -/
def importedLines (m : Metrics) : Except Gap (List Text) :=
  if m.mostImported.isEmpty then .ok []
  else do
    let rows ← m.mostImported.mapM fun id =>
      match Assoc.get? id m.fanIn with
      | some n => .ok [id, Datum.intText n]
      | none => .error (.noCount id)
    return (["## Most Imported Files", ""] : List Text) ++ tableLines ["File", "Imported By"] rows

def ofReport (r : Report) : Except Gap Text := do
  let imported ← importedLines r.metrics
  let cycles ← cycleLines r.cycles
  let title : List Text :=
    ["# Project Analysis Report", "", "**Analyzed At**: " ++ r.analyzedAt, ""]
  let heading : List Text := ["## Dependency Cycles (" ++ countText r.cycles.length ++ ")", ""]
  return Text.intercalate "\n" (title ++ summaryLines r ++ healthLines r.summary ++
    metricLines r.metrics ++ inventoryLines r.inventory ++ largestLines r.metrics ++ imported ++
    heading ++ cycles ++ warningLines r.warnings)

def cyclesOfReport (r : Report) : Except Gap Text := do
  let cycles ← if r.summary.healthy then .ok [healthyMessage, ""] else cycleLines r.cycles
  let title : List Text :=
    ["# Dependency Cycles", "",
      "- **Files**: " ++ Datum.intText r.summary.totalFiles,
      "- **Dependencies**: " ++ countText r.graph.edges.length,
      "- **Cycles**: " ++ countText r.cycles.length, ""]
  return Text.intercalate "\n" (title ++ cycles ++ warningLines r.warnings)

end SourceAtlas.Markdown
