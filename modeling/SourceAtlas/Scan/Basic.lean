import SourceAtlas.Pattern.Glob
import SourceAtlas.Scan.Ignoring
import SourceAtlas.Text.Parts

/-!
The source files of a project. Directories are walked in order of names and entered at their
place; hidden directories, excluded ones and links are not entered.
-/
namespace SourceAtlas

open Text

structure ScanOptions where
  extensions : List Text := [".ts"]
  excludeDirs : List Text := ["node_modules", "dist", "coverage"]
  testSuffixes : List Text := [".spec", ".test"]
  exclude : List Text := []
  respectIgnore : Bool := false
  nestedIgnore : Bool := false
  deriving DecidableEq, Repr

structure ScanFault where
  message : Text
  path : Text
  deriving DecidableEq, Repr

/-- Files in the order in which they were met, and the directories that
could not be listed. -/
structure Scan where
  files : List Path := []
  faults : List ScanFault := []
  deriving DecidableEq, Repr

namespace Scan

def append (a b : Scan) : Scan := ⟨a.files ++ b.files, a.faults ++ b.faults⟩

def concat (parts : List Scan) : Scan := parts.foldr append {}

def isTestName (name : Text) (extensions testSuffixes : List Text) : Bool :=
  extensions.any fun ext => testSuffixes.any fun suffix => endsWith (suffix ++ ext) name

/-- Whether a file name is that of a source file and of no test. -/
def isSourceName (o : ScanOptions) (name : Text) : Bool :=
  o.extensions.any (fun ext => endsWith ext name) && !isTestName name o.extensions o.testSuffixes

/-- Whether a directory of this name is entered. -/
def entersName (o : ScanOptions) (name : Text) : Bool :=
  !startsWith "." name && !o.excludeDirs.contains name

/-- Whether a pattern excludes a path as seen from the root. -/
def isExcluded (o : ScanOptions) (relative : Text) : Bool :=
  o.exclude.any fun pattern => Pattern.Glob.matches_ pattern relative

def child (directory : Path) (name : Text) : Path := ⟨directory.anchor, directory.parts ++ [name]⟩

/-- The entries of a directory in order of names, or why they
cannot be listed. -/
def listing (directory : Path) : Action (Except ScanFault (List Path)) := do
  match ← Action.attempt (Action.listNames directory) with
  | .ok names => return .ok (names.map (child directory))
  | .error e =>
    let message := "Cannot read directory " ++ directory.text ++ ": " ++ e.errno.words
    return .error ⟨message, directory.text⟩

/-- Whether a path lies below the root when no link is left in either. -/
def isWithin (root file : Path) : Action Bool := do
  let base ← Action.canonical root
  let path ← Action.canonical file
  return (path.relativeTo? base).isSome

def isSource (o : ScanOptions) (ignoring : List IgnoreFile) (root file : Path) : Action Bool := do
  if !isSourceName o file.name then return false
  if ← Action.isLink file then return false
  if !(← Action.isFile file) then return false
  if !(← isWithin root file) then return false
  match IgnoreFile.anyIgnores file ignoring with
  | .error _ => throw .badIgnoreRange
  | .ok true => return false
  | .ok false => return !isExcluded o (file.relativeText root)

/-- Scan one entry. No path is longer than the number of entries on the
disk, so that number is depth enough. -/
def entry (o : ScanOptions) (ignoring : List IgnoreFile) (root : Path) : Nat → Path → Action Scan
  | 0, _ => return {}
  | depth + 1, path => do
    if ← Action.isDirectory path then
      if !entersName o path.name then return {}
      if ← Action.isLink path then return {}
      match ← listing path with
      | .error fault =>
        Action.log .warning .scanning fault.message
        return ⟨[], [fault]⟩
      | .ok entries => return concat (← entries.mapM (entry o ignoring root depth))
    else if ← isSource o ignoring root path then return ⟨[path], []⟩
    else return {}

/-- Scan a project. Its root must be a directory that can be listed. -/
def project (o : ScanOptions) (root : Path) : Action (Path × Scan) := do
  let root ← Action.resolve root
  if !(← Action.isDirectory root) then
    throw (.rootUnreadable ("Project root is not a readable directory: " ++ root.text) root.text)
  match ← listing root with
  | .error fault => throw (.rootUnreadable fault.message root.text)
  | .ok entries =>
    let ignoring ← if o.respectIgnore || o.nestedIgnore then IgnoreFile.collect root o.nestedIgnore
      else pure []
    let depth := (← get).disk.entries.length
    let found := concat (← entries.mapM (entry o ignoring root depth))
    Action.log .debug .scanning ("Scanned " ++ root.text ++ ": " ++
      Number.Style.natText found.files.length ++ " source files")
    return (root, found)

end Scan

end SourceAtlas
