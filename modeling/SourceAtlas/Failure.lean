import SourceAtlas.Disk.Basic
import SourceAtlas.Schema.Fault
import SourceAtlas.Text.Quoted

/-!
Why work on a project stops. Each cause is a constructor; the wording is in one place.
-/
namespace SourceAtlas

/-- An operation that the system refused, with the path it was asked about
and, where an entry is moved, the path it was to be moved to. -/
structure SystemError where
  errno : Errno
  path : Text
  target : Option Text := none
  deriving DecidableEq, Repr

/-- The number, the words and the paths of a refusal. -/
def SystemError.message (e : SystemError) : String :=
  let paths := match e.target with
    | none => Text.Quoted.encode e.path
    | some t => Text.Quoted.encode e.path ++ " -> " ++ Text.Quoted.encode t
  "[Errno " ++ String.ofList (Nat.toDigits 10 e.errno.number) ++ "] " ++ e.errno.words ++ ": " ++
    paths

inductive ConfigFault where
  /-- The file is not TOML from the given line on. -/
  | malformed (path : Text) (line : Nat)
  | unreadable (path : Text) (e : SystemError)
  | invalid (path : Text) (faults : List Schema.Fault)
  | cacheDirEmpty
  /-- The cache directory is no relative path. -/
  | cacheDirAbsolute
  | cacheDirEscapes (dir : Text)
  deriving DecidableEq, Repr

namespace ConfigFault

def message : ConfigFault → Text
  | malformed path line =>
    "Invalid TOML in " ++ path ++ ": near line " ++ String.ofList (Nat.toDigits 10 line)
  | unreadable path e => "Cannot read " ++ path ++ ": " ++ e.message
  | invalid path faults =>
    "Invalid config in " ++ path ++ ": " ++ String.ofList (Nat.toDigits 10 faults.length) ++
      " faults"
  | cacheDirEmpty => "cache_dir must be a non-empty relative path"
  | cacheDirAbsolute => "cache_dir must be a relative path within the project root"
  | cacheDirEscapes dir => "cache_dir '" ++ dir ++ "' escapes the project root"

end ConfigFault

/-- Why an action stopped. -/
inductive Failure where
  | system (e : SystemError)
  | rootUnreadable (message path : Text)
  | config (fault : ConfigFault)
  /-- A value does not fit the shape that is asked for. -/
  | invalid (faults : List Schema.Fault)
  /-- A graph has no node of this name. -/
  | missingNode (id : Text)
  /-- A file is not UTF-8. -/
  | notUtf8
  /-- An integer with more digits than are read. -/
  | digitLimit
  | linkCircle
  | nulInPath
  /-- There is no home to put in for a tilde. -/
  | homeless
  /-- A path without names has no suffix to change. -/
  | namelessPath
  /-- An integer or a text that no document can hold. -/
  | unwritable
  /-- A text with bytes that are no characters, where only characters can be written. -/
  | unencodable
  /-- A cycle without members. -/
  | emptyCycle
  /-- An ignore rule of which nothing is left. -/
  | emptyIgnoreRule
  /-- A character class of an ignore rule with a reversed range. -/
  | badIgnoreRange
  deriving DecidableEq, Repr

end SourceAtlas
