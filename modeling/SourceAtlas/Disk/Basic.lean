import SourceAtlas.Assoc
import SourceAtlas.Path

/-!
A disk: files, directories and symbolic links, each under the names that lead to it from the root.
An entry is kept under its own place; nothing here follows a link.
-/
namespace SourceAtlas

/-- What stands at a place of the disk. -/
inductive Item where
  /-- A regular file with its modification time in nanoseconds. -/
  | file (bytes : List UInt8) (mtime : Int)
  | directory
  /-- A symbolic link with the text it holds. -/
  | link (target : Text)
  deriving DecidableEq, Repr

/-- The names from the root down to an entry. -/
abbrev Place := List Text

/-- All entries but the root directory, which is always there. -/
structure Disk where
  entries : Assoc Place Item
  deriving DecidableEq, Repr

namespace Disk

def empty : Disk := ⟨[]⟩

def find? (d : Disk) (p : Place) : Option Item :=
  if p.isEmpty then some .directory else Assoc.get? p d.entries

def isDirectoryAt (d : Disk) (p : Place) : Bool := d.find? p = some .directory

/-- Put an item at a place: an entry that is there keeps its position. -/
def put (d : Disk) (p : Place) (i : Item) : Disk := ⟨Assoc.put p i d.entries⟩

/-- Take away the entry at a place and leave all others. -/
def erase (d : Disk) (p : Place) : Disk := ⟨d.entries.filter fun e => e.1 ≠ p⟩

/-- Take away the entry at a place and all that lies below it. -/
def eraseTree (d : Disk) (p : Place) : Disk := ⟨d.entries.filter fun e => !p.isPrefixOf e.1⟩

/-- The names in a directory, in order of code points. -/
def names (d : Disk) (dir : Place) : List Text :=
  let found := d.entries.filterMap fun e =>
    if e.1.length = dir.length + 1 && dir.isPrefixOf e.1 then e.1.getLast? else none
  Sorting.sort (fun a b => !(decide (b < a))) found

/-- Make every directory on the way to a place that is not there yet. -/
def withDirectories (d : Disk) (p : Place) : Disk :=
  (List.range p.length).foldl (fun d n =>
    let place := p.take (n + 1)
    if (d.find? place).isNone then d.put place .directory else d) d

end Disk

/-- Why the system refuses an operation on a path. -/
inductive Errno where
  | noEntry | permission | exists | notDirectory | isDirectory | nameTooLong | linkLoop
  deriving DecidableEq, Repr

namespace Errno

def number : Errno → Nat
  | .noEntry => 2
  | .permission => 13
  | .exists => 17
  | .notDirectory => 20
  | .isDirectory => 21
  | .nameTooLong => 36
  | .linkLoop => 40

def words : Errno → String
  | .noEntry => "No such file or directory"
  | .permission => "Permission denied"
  | .exists => "File exists"
  | .notDirectory => "Not a directory"
  | .isDirectory => "Is a directory"
  | .nameTooLong => "File name too long"
  | .linkLoop => "Too many levels of symbolic links"

/-- Refusals that only mean that there is nothing at the path. -/
def meansAbsent : Errno → Bool
  | .noEntry => true
  | .notDirectory => true
  | .linkLoop => true
  | _ => false

end Errno

end SourceAtlas
