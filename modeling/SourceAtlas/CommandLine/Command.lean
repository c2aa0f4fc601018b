import SourceAtlas.CommandLine.Options

/-!
The commands of the program and how they are written.
-/
namespace SourceAtlas.CommandLine

inductive ReportFormat where
  | json | markdown
  deriving DecidableEq, Repr

/-- The suffix of a file in this format that is given none. -/
def ReportFormat.suffix : ReportFormat → Text
  | .json => ".json"
  | .markdown => ".md"

inductive GraphFormat where
  | mermaid | dot
  deriving DecidableEq, Repr

def GraphFormat.suffix : GraphFormat → Text
  | .mermaid => ".mmd"
  | .dot => ".dot"

/-- What an analysis is of and where its result goes: to a file, or else to
the output. -/
structure Target where
  root : Text
  save : Option Text
  useCache : Bool
  deriving DecidableEq, Repr

inductive Command where
  | analyze (t : Target) (format : ReportFormat)
  /-- Remove the cache of a project. -/
  | clear (root : Text)
  | cycles (t : Target) (format : ReportFormat)
  | graph (t : Target) (format : GraphFormat)
  | files (root : Text)
  /-- Show the record of one file, seen from a root or from its own directory. -/
  | inspect (file : Text) (root : Option Text)
  | verify (root : Text)
  deriving DecidableEq, Repr

structure Invocation where
  verbosity : Nat
  command : Command
  deriving DecidableEq, Repr

def formatOption (choices : List Text) : Opt :=
  { key := "format", names := ["--format"], takesValue := true, choices := choices }

def saveOption : Opt := { key := "save", names := ["--save"], takesValue := true }

def noCacheOption : Opt := { key := "no-cache", names := ["--no-cache"] }

def clearOption : Opt := { key := "clear-cache", names := ["--clear-cache"] }

def rootOption : Opt := { key := "root", names := ["--root"], takesValue := true }

def verboseOption : Opt := { key := "verbose", names := ["-v", "--verbose"] }

/-- The root that a command names, or the working directory. -/
def rootOf (p : Parsed) : Text := p.plain.getD "."

def targetOf (p : Parsed) : Target := ⟨rootOf p, p.value? "save", !p.has "no-cache"⟩

def reportFormatOf (p : Parsed) : ReportFormat :=
  if p.value? "format" = some "md" then .markdown else .json

def graphFormatOf (p : Parsed) : GraphFormat :=
  if p.value? "format" = some "dot" then .dot else .mermaid

/-- The options of each command, and the command that parsed arguments make. -/
def commandOf (name : Text) : Option (List Opt × (Parsed → Except Stop Command)) :=
  if name = "analyze" then some (
    [helpOption, formatOption ["json", "md"], saveOption, noCacheOption, clearOption],
    fun p => .ok (if p.has "clear-cache" then .clear (rootOf p)
      else .analyze (targetOf p) (reportFormatOf p)))
  else if name = "cycles" then some (
    [helpOption, formatOption ["json", "md"], saveOption, noCacheOption],
    fun p => .ok (.cycles (targetOf p) (reportFormatOf p)))
  else if name = "graph" then some (
    [helpOption, formatOption ["dot", "mermaid"], saveOption, noCacheOption],
    fun p => .ok (.graph (targetOf p) (graphFormatOf p)))
  else if name = "files" then some ([helpOption], fun p => .ok (.files (rootOf p)))
  else if name = "inspect" then some ([helpOption, rootOption], fun p =>
    match p.plain with
    | some file => .ok (.inspect file (p.value? "root"))
    | none => .error .usage)
  else if name = "verify" then some ([helpOption], fun p => .ok (.verify (rootOf p)))
  else none

/-- The command that a name and the arguments after it make. -/
def readCommand (name : Text) (args : List Text) : Except Stop (Command × Bool) := do
  match commandOf name with
  | none => .error .usage
  | some (opts, make) =>
    let parsed ← parse opts args
    return (← make parsed, parsed.surplus)

/-- The arguments before the name of a command, and the command after it. -/
def readInvocation (p : Parsed) : List Argument → List Text → Except Stop Invocation
  | .plain name :: _, _ :: args => do
    let (command, surplus) ← readCommand name args
    if surplus || p.surplus then .error .usage
    else return ⟨p.count "verbose", command⟩
  | .unknown :: rest, _ :: args => readInvocation { p with surplus := true } rest args
  | .option o (some attached) :: rest, _ :: args =>
    match p.setAttached [helpOption, verboseOption] o attached with
    | .error e => .error e
    | .ok p => readInvocation p rest args
  | .option o none :: rest, _ :: args =>
    match p.set o "" with
    | .error e => .error e
    | .ok p => readInvocation p rest args
  | _, _ => .error .usage

/-- The invocation that the arguments of the program make. -/
def invocation (args : List Text) : Except Stop Invocation := do
  readInvocation {} (← classifyAll [helpOption, verboseOption] args) args

end SourceAtlas.CommandLine
