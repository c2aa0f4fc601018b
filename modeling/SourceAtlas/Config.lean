import SourceAtlas.Schema.Reader
import SourceAtlas.Text.Parts
import SourceAtlas.Toml.Document
import SourceAtlas.World.Files

/-!
The configuration of an analysis, and where it is kept. A missing file means the defaults.
-/
namespace SourceAtlas

open Schema

structure Config where
  /-- Extensions of source files, in the order in which imports try them. -/
  extensions : List Text := [".ts"]
  /-- Names of directories that are not entered. -/
  excludeDirs : List Text := ["node_modules", "dist", "coverage"]
  /-- Ends of file names, before the extension, that mark tests. -/
  testSuffixes : List Text := [".spec", ".test"]
  /-- Patterns of paths that are left out. -/
  exclude : List Text := []
  /-- Leave out what the ignore file of the root says. -/
  respectIgnore : Bool := false
  /-- Leave out what any ignore file says. -/
  nestedIgnore : Bool := false
  /-- The cache directory as seen from the root. -/
  cacheDir : Text := ".cache"
  /-- How many files the longest listings show. -/
  top : Int := 10
  deriving DecidableEq, Repr

namespace Config

def fileName : Text := "ngmap.toml"

/-- Whether a datum is a text of a point and something after it. -/
def isExtension : Datum → Bool
  | .text s => Text.startsWith "." s && 2 ≤ s.length
  | _ => false

/-- Extensions are a list with at least one member, each a point and
something after it. -/
def readExtensions : Reader (List Text)
  | .list items =>
    if items.isEmpty then .fail (.rejected "extensions must be a non-empty list of strings")
    else
      match items.find? fun d => !isExtension d with
      | some d => .fail (.rejected
          ("Invalid extension " ++ d.shown ++ ": extensions must look like '.ts'"))
      | none => Reader.list Reader.text (.list items)
  | _ => .fail (.rejected "extensions must be a non-empty list of strings")

/-- The names of the fields, in the order in which they are checked. -/
def fieldNames : List Text :=
  ["extensions", "exclude_dirs", "test_suffixes", "exclude", "respect_gitignore",
    "nested_gitignore", "cache_dir", "top_n"]

def read : Reader Config := Reader.shape fun fs =>
  let texts := Reader.list Reader.text
  let fields := Config.mk <$> field "extensions" [".ts"] readExtensions fs
    <*> field "exclude_dirs" ["node_modules", "dist", "coverage"] texts fs
    <*> field "test_suffixes" [".spec", ".test"] texts fs
    <*> field "exclude" [] texts fs
    <*> field "respect_gitignore" false Reader.boolean fs
    <*> field "nested_gitignore" false Reader.boolean fs
    <*> field "cache_dir" ".cache" Reader.text fs
    <*> field "top_n" 10 (Reader.integerFrom 1) fs
  fields.andAlso (unexpected fieldNames fs)

def toDatum (c : Config) : Datum := .table [
  ("extensions", .list (c.extensions.map .text)),
  ("exclude_dirs", .list (c.excludeDirs.map .text)),
  ("test_suffixes", .list (c.testSuffixes.map .text)),
  ("exclude", .list (c.exclude.map .text)),
  ("respect_gitignore", .bool c.respectIgnore),
  ("nested_gitignore", .bool c.nestedIgnore),
  ("cache_dir", .text c.cacheDir),
  ("top_n", .int c.top)]

/-- The configuration that the bytes of a file at `path` say. -/
def ofBytes (path : Path) (bytes : List UInt8) : Except Failure Config :=
  match Text.Utf8.decode bytes with
  | .error _ => .error .notUtf8
  | .ok cs =>
    match Toml.parse cs with
    | .error (.malformed, line) => .error (.config (.malformed path.text line))
    | .error (.hugeInteger, _) => .error .digitLimit
    | .ok fields =>
      match read (.table fields) with
      | .valid c => .ok c
      | .invalid faults => .error (.config (.invalid path.text faults))

def load (root : Path) : Action Config := do
  let path := root.join (Path.parse fileName)
  if ← Action.isFile path then
    match ← Action.attempt (Action.readBytes path) with
    | .error e => throw (.config (.unreadable path.text e))
    | .ok bytes =>
      match ofBytes path bytes with
      | .ok c => return c
      | .error f => throw f
  else return {}

/-- The directory of the cache. It must lie in the project, also after links
are followed. -/
def cacheDirectory (root : Path) (dir : Text) : Action Path := do
  if dir = "" then throw (.config .cacheDirEmpty)
  else if Text.startsWith "~" dir || (Path.parse dir).isAbsolute then
    throw (.config .cacheDirAbsolute)
  else
    let base ← Action.canonical root
    let path ← Action.canonical (base.join (Path.parse dir))
    match path.relativeTo? base with
    | some _ => return path
    | none => throw (.config (.cacheDirEscapes dir))

def cacheFileName : Text := "analysis-cache.json"

def cacheFile (root : Path) (c : Config) : Action Path :=
  return (← cacheDirectory root c.cacheDir).join (Path.parse cacheFileName)

end Config

end SourceAtlas
