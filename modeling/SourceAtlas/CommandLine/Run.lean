import SourceAtlas.CommandLine.Command
import SourceAtlas.Report.Diagram
import SourceAtlas.Report.Document
import SourceAtlas.Report.Markdown
import SourceAtlas.Verification

/-!
What the commands do, and the code they exit with.
-/
namespace SourceAtlas.CommandLine

/-- Exit codes: all is well, grave cycles were found, the command failed,
two analyses differ. -/
inductive Exit where
  | ok | errorCycles | failure | nondeterministic
  deriving DecidableEq, Repr

def Exit.code : Exit → Nat
  | .ok => 0
  | .errorCycles => 1
  | .failure => 2
  | .nondeterministic => 3

def exitOf (r : Report) : Exit := if r.hasErrorCycles then .errorCycles else .ok

/-- The path that a result is saved at: one without a suffix gets that of
the format. -/
def savePath (path : Path) (suffix : Text) : Option Path :=
  if path.suffix = "" then path.withSuffix? suffix else some path

/-- Write a result to the output, or to a file if one is named. -/
def emit (text : Text) (save : Option Text) (suffix : Text) : Action Unit := do
  match save with
  | none => Action.print (if Text.endsWith "\n" text then text else text ++ "\n")
  | some save =>
    match savePath (← Action.expand (Path.parse save)) suffix with
    | none => throw .namelessPath
    | some path =>
      Action.makeDirectories path.parent
      Action.writeText path text
      Action.remark ("report written to " ++ path.text ++ "\n")

/-- The text of a document, which it has unless a number or a text does not
fit into one. -/
def written (text : Except Json.WriteFault (List Char)) : Action Text :=
  match text with
  | .ok cs => pure (Text.ofChars cs)
  | .error _ => throw .unwritable

def markdownText (text : Except Markdown.Gap Text) : Action Text :=
  match text with
  | .ok s => pure s
  | .error (.noCount id) => throw (.missingNode id)
  | .error .emptyCycle => throw .emptyCycle

def drawn (text : Except Text Text) : Action Text :=
  match text with
  | .ok s => pure s
  | .error id => throw (.missingNode id)

def analyze (root : Path) (t : Target) (format : ReportFormat) : Action Exit := do
  let report ← Analysis.run root t.useCache none
  let text ← match format with
    | .json => written report.json
    | .markdown => markdownText (Markdown.ofReport report)
  emit text t.save format.suffix
  return exitOf report

def cycles (root : Path) (t : Target) (format : ReportFormat) : Action Exit := do
  let report ← Analysis.run root t.useCache none
  let text ← match format with
    | .json => written report.cyclesJson
    | .markdown => markdownText (Markdown.cyclesOfReport report)
  emit text t.save format.suffix
  return exitOf report

def warningText (w : Warning) : Text :=
  let place := match w.path with
    | some p => if p = "" then "" else p ++ ": "
    | none => ""
  "warning: " ++ place ++ w.message ++ "\n"

def graph (root : Path) (t : Target) (format : GraphFormat) : Action Exit := do
  let report ← Analysis.run root t.useCache none
  let text ← match format with
    | .mermaid => drawn (Diagram.mermaid report.graph)
    | .dot => drawn (Diagram.dot report.graph)
  emit text t.save format.suffix
  report.warnings.forM fun w => Action.remark (warningText w)
  return exitOf report

def clear (root : Path) : Action Exit := do
  let removed ← Analysis.clearCache root none
  Action.remark (if removed then "cache cleared\n" else "no cache to clear\n")
  return .ok

def files (root : Path) : Action Exit := do
  let config ← Config.load root
  let (root, scan) ← Scan.project (Analysis.scanOptions config) root
  scan.files.forM fun f => Action.print (f.relativeText root ++ "\n")
  scan.faults.forM fun f => Action.remark ("warning: " ++ f.message ++ "\n")
  return .ok

def inspect (file : Text) (root : Option Text) : Action Exit := do
  let path ← Action.resolve (Path.parse file)
  if !(← Action.isFile path) then
    Action.remark ("error: not a file: " ++ path.text ++ "\n")
    return .failure
  let root ← match root with
    | some r => if r = "" then pure path.parent else Action.resolve (Path.parse r)
    | none => pure path.parent
  let config ← Config.load root
  let record ← Extraction.extract path root config.extensions none
  emit (← written (Json.document (Classification.classify record).toDatum)) none ""
  return .ok

def verify (root : Path) : Action Exit := do
  let parts ← Verification.run root none
  parts.forM fun p => Action.remark ("mismatch: " ++ p.word ++ "\n")
  return if parts.isEmpty then .ok else .nondeterministic

/-- What a command does. -/
def perform : Command → Action Exit
  | .analyze t format => do analyze (← Action.resolve (Path.parse t.root)) t format
  | .clear root => do clear (← Action.resolve (Path.parse root))
  | .cycles t format => do cycles (← Action.resolve (Path.parse t.root)) t format
  | .graph t format => do graph (← Action.resolve (Path.parse t.root)) t format
  | .files root => do files (← Action.resolve (Path.parse root))
  | .inspect file root => inspect file root
  | .verify root => do verify (← Action.resolve (Path.parse root))

def reported? : Failure → Option Text
  | .rootUnreadable message _ => some message
  | .config fault => some fault.message
  | .system e => some e.message
  | _ => none

/-- Perform a command; a failure that it reports ends it with a code. -/
def run (c : Command) : Action Exit := do
  try
    let exit ← perform c
    return exit
  catch f =>
    match reported? f with
    | some message =>
      Action.remark ("error: " ++ message ++ "\n")
      return .failure
    | none => throw f

def isShown (verbosity : Nat) : Level → Bool
  | .debug => 2 ≤ verbosity
  | .info => 1 ≤ verbosity
  | .warning => true

/-- The text of a remark, empty if it is not shown. -/
def remarkText (verbosity : Nat) : Remark → Text
  | .plain text => text
  | .log level channel message =>
    if isShown verbosity level then
      level.word ++ " " ++ channel.word ++ ": " ++ message ++ "\n"
    else ""

/-- The text of all remarks, in which bytes are shown by their code points. -/
def remarksText (verbosity : Nat) (remarks : List Remark) : String :=
  String.join (remarks.map fun r => Text.Quoted.shown (remarkText verbosity r))

end SourceAtlas.CommandLine
