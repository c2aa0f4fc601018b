import SourceAtlas.Pattern.Ignore
import SourceAtlas.World.Files

/-!
The ignore files of a project: that of the root alone, or all of them at any depth.
-/
namespace SourceAtlas

/-- The rules of one ignore file and the directory they are for. -/
structure IgnoreFile where
  directory : Path
  rules : List Pattern.Ignore.Rule
  deriving DecidableEq, Repr

namespace IgnoreFile

def fileName : Text := ".gitignore"

/-- Read an ignore file. Locks are for source files and do not matter here. -/
def load (path : Path) : Action IgnoreFile := do
  match (← Action.entry path).2 with
  | .file bytes _ =>
    match Text.Utf8.decode bytes with
    | .error _ => throw .notUtf8
    | .ok cs =>
      match Pattern.Ignore.parse cs with
      | .error _ => throw .emptyIgnoreRule
      | .ok rules => return ⟨path.parent, rules⟩
  | _ => Action.refuse .isDirectory path

/-- The directories below a place, links not followed, each with the names
that lead to it. -/
def directoriesBelow (d : Disk) (root : Place) : List Place :=
  (d.entries.filter fun e => e.2 = .directory && root.isPrefixOf e.1 && e.1 ≠ root).map Prod.fst

/-- The ignore files in a directory and all below it, in order of their
paths from it. -/
def allBelow (root : Path) : Action (List Path) := do
  let d := (← get).disk
  let places := root.parts :: directoriesBelow d root.parts
  let files := places.map fun p => Path.mk root.anchor (p ++ [fileName])
  let present ← files.filterM Action.isFile
  return Sorting.sort (fun a b => !(decide (b.relativeText root < a.relativeText root))) present

def collect (root : Path) (nested : Bool) : Action (List IgnoreFile) := do
  let files ← if nested then allBelow root
    else
      let file := root.join (Path.parse fileName)
      pure (if ← Action.isFile file then [file] else [])
  files.mapM load

/-- Whether some ignore file ignores a path. One whose directory does not
hold the path says nothing. -/
def anyIgnores (path : Path) : List IgnoreFile → Except Pattern.Ignore.Broken Bool
  | [] => .ok false
  | f :: rest =>
    match path.relativeTo? f.directory with
    | none => anyIgnores path rest
    | some relative =>
      match Pattern.Ignore.ignores f.rules relative.text with
      | .error e => .error e
      | .ok true => .ok true
      | .ok false => anyIgnores path rest

end IgnoreFile

end SourceAtlas
