import SourceAtlas.Disk.Basic
import SourceAtlas.Text.Utf8

/-!
Finding what a path leads to. Names are followed one by one from a directory, links are replaced by
what they hold, and two points lead to the directory above.
-/
namespace SourceAtlas.Disk

/-- Why a path could not be followed. -/
inductive Refusal where
  | errno (e : Errno)
  /-- A name with a NUL character is no name at all. -/
  | nul
  deriving DecidableEq, Repr

/-- The end of a path that was followed. -/
inductive Arrival where
  /-- There is an entry. -/
  | found (place : Place) (item : Item)
  /-- The directory is there but it has no entry of the last name. -/
  | absent (place : Place)
  deriving DecidableEq, Repr

def Arrival.place : Arrival → Place
  | .found p _ => p
  | .absent p => p

/-- The most bytes a name may have. -/
def longestName : Nat := 255

/-- One byte more than the longest path. -/
def pathLimit : Nat := 4096

/-- The most links that are followed on the way to one entry. -/
def mostLinks : Nat := 40

/-- Follow names from a directory. `onLink` follows a link: it is given the
directory the link's target starts from and the names of the target with
those that remain. -/
def followNames (d : Disk) (followLast : Bool)
    (onLink : Place → List Text → Except Refusal Arrival) :
    Place → List Text → Except Refusal Arrival
  | here, [] =>
    match d.find? here with
    | some item => .ok (.found here item)
    | none => .error (.errno .noEntry)
  | here, name :: rest =>
    if !d.isDirectoryAt here then .error (.errno .notDirectory)
    else if name = ".." then followNames d followLast onLink here.dropLast rest
    else if longestName < Text.Utf8.size name then .error (.errno .nameTooLong)
    else
      let place := here ++ [name]
      match d.find? place with
      | none => if rest.isEmpty then .ok (.absent place) else .error (.errno .noEntry)
      | some (.link target) =>
        if rest.isEmpty && !followLast then .ok (.found place (.link target))
        else
          let path := Path.parse target
          onLink (if path.isAbsolute then [] else here) (path.parts ++ rest)
      | some _ => followNames d followLast onLink place rest

/-- Follow names with at most `links` links on the way. -/
def follow (d : Disk) (followLast : Bool) : Nat → Place → List Text → Except Refusal Arrival
  | 0 => followNames d followLast fun _ _ => .error (.errno .linkLoop)
  | links + 1 => followNames d followLast (follow d followLast links)

def locate (d : Disk) (followLast : Bool) (p : Path) : Except Refusal Arrival :=
  if p.parts.any fun part => part.toList.contains (Char.ofNat 0) then .error .nul
  else if pathLimit ≤ Text.Utf8.size p.text then .error (.errno .nameTooLong)
  else follow d followLast mostLinks [] p.parts

def entry (d : Disk) (followLast : Bool) (p : Path) : Except Refusal (Place × Item) :=
  match d.locate followLast p with
  | .ok (.found place item) => .ok (place, item)
  | .ok (.absent _) => .error (.errno .noEntry)
  | .error r => .error r

/-- Ask something about the entry at a path. Where there is none, the answer
is no; only a refusal for another reason is passed on. -/
def test (d : Disk) (followLast : Bool) (ask : Item → Bool) (p : Path) : Except Errno Bool :=
  match d.entry followLast p with
  | .ok (_, item) => .ok (ask item)
  | .error .nul => .ok false
  | .error (.errno e) => if e.meansAbsent then .ok false else .error e

def isFile (d : Disk) : Path → Except Errno Bool :=
  d.test true fun
    | .file _ _ => true
    | _ => false

def isDirectory (d : Disk) : Path → Except Errno Bool :=
  d.test true fun
    | .directory => true
    | _ => false

def isLink (d : Disk) : Path → Except Errno Bool :=
  d.test false fun
    | .link _ => true
    | _ => false

end SourceAtlas.Disk
