import SourceAtlas.World.Basic

/-!
Reading and changing files. Paths may be relative to the working directory; a refusal names the
path as it was given.
-/
namespace SourceAtlas.Action

/-- Stop because the system refuses an operation on a path. -/
def refuse {α : Type} (errno : Errno) (p : Path) : Action α := throw (.system ⟨errno, p.text, none⟩)

/-- Stop because a path could not be followed. -/
def refuseBy {α : Type} (r : Disk.Refusal) (p : Path) : Action α :=
  match r with
  | .errno e => refuse e p
  | .nul => throw .nulInPath

def absolute (p : Path) : Action Path := return (← get).here.join p

/-- Ask about a path on the disk. -/
def ask (question : Disk → Path → Except Errno Bool) (p : Path) : Action Bool := do
  match question (← get).disk (← absolute p) with
  | .ok answer => return answer
  | .error e => refuse e p

def isFile (p : Path) : Action Bool := ask Disk.isFile p

def isDirectory (p : Path) : Action Bool := ask Disk.isDirectory p

def isLink (p : Path) : Action Bool := ask Disk.isLink p

/-- A path with a home put in for a tilde. -/
def expand (p : Path) : Action Path := do
  match (← get).here.expand p with
  | .ok path => return path
  | .error f => throw f

/-- The canonical form of a path, with a home put in for a tilde. -/
def resolve (p : Path) : Action Path := do
  match (← get).here.resolve (← get).disk p with
  | .ok path => return path
  | .error f => throw f

def canonical (p : Path) : Action Path := do
  match (← get).disk.canonical (← absolute p) with
  | .ok path => return path
  | .error .circle => throw .linkCircle
  | .error .nul => throw .nulInPath

def entry (p : Path) : Action (Place × Item) := do
  match (← get).disk.entry true (← absolute p) with
  | .ok e => return e
  | .error r => refuseBy r p

/-- The modification time of what a path leads to. Directories count as made
at time zero. -/
def modified (p : Path) : Action Int := do
  match (← entry p).2 with
  | .file _ mtime => return mtime
  | _ => return 0

/-- One attempt to open a path: a lock on it refuses, and wears off
if it is bounded. -/
def tryLock (p : Path) : Action Unit := do
  let w ← get
  let key := (← absolute p).text
  match w.locks.lookup key with
  | none => return ()
  | some n =>
    if n = 0 then return ()
    else
      if 0 < n then
        set { w with locks := w.locks.map fun (l : Text × Int) => if l.1 = key then (key, n - 1) else l }
      refuse .permission p

def readBytes (p : Path) : Action (List UInt8) := do
  tryLock p
  match (← entry p).2 with
  | .file bytes _ => return bytes
  | _ => refuse .isDirectory p

/-- The names in a directory, in order of code points. -/
def listNames (p : Path) : Action (List Text) := do
  tryLock p
  match ← entry p with
  | (place, .directory) => return (← get).disk.names place
  | _ => refuse .notDirectory p

def makeDirectory (p : Path) : Action Unit := do
  let w ← get
  match w.disk.locate false (← absolute p) with
  | .ok (.absent place) => set { w with disk := w.disk.put place .directory }
  | .ok (.found _ _) => refuse .exists p
  | .error r => refuseBy r p

/-- Make one directory; one that is there already is no fault. -/
def ensureDirectory (p : Path) : Action Unit := do
  match ← attempt (makeDirectory p) with
  | .ok () => return ()
  | .error e => if e.errno = .noEntry || !(← isDirectory p) then throw (.system e)

/-- Make a directory and those above it that are missing. Each step up
shortens the path, so its length is enough fuel. -/
def makeDirectoriesFrom : Nat → Path → Action Unit
  | 0, p => ensureDirectory p
  | fuel + 1, p => do
    match ← attempt (ensureDirectory p) with
    | .ok () => return ()
    | .error e =>
      if e.errno = .noEntry then
        makeDirectoriesFrom fuel p.parent
        ensureDirectory p
      else throw (.system e)

/-- Make a directory with all that are missing above it. -/
def makeDirectories (p : Path) : Action Unit := makeDirectoriesFrom p.parts.length p

/-- The modification time of files that the program itself writes. -/
def writtenTime : Int := 1700000000000000000

/-- Write a file with a modification time, through a link if there is one. -/
def writeBytesAt (time : Int) (p : Path) (bytes : List UInt8) : Action Unit := do
  let w ← get
  match w.disk.locate true (← absolute p) with
  | .ok (.found place (.file _ _)) => set { w with disk := w.disk.put place (.file bytes time) }
  | .ok (.found _ _) => refuse .isDirectory p
  | .ok (.absent place) => set { w with disk := w.disk.put place (.file bytes time) }
  | .error r => refuseBy r p

def writeBytes (p : Path) (bytes : List UInt8) : Action Unit := writeBytesAt writtenTime p bytes

/-- Write a text into a file. The file is opened before the text is found to
be no string. -/
def writeText (p : Path) (text : Text) : Action Unit := do
  match text.string? with
  | some s => writeBytes p (Text.Utf8.encode s)
  | none =>
    writeBytes p []
    throw .unencodable

def makeLink (p : Path) (target : Text) : Action Unit := do
  let w ← get
  match w.disk.locate false (← absolute p) with
  | .ok (.absent place) => set { w with disk := w.disk.put place (.link target) }
  | .ok (.found _ _) => refuse .exists p
  | .error r => refuseBy r p

/-- Make a new empty file that must not be there yet. -/
def createFile (p : Path) : Action Unit := do
  let w ← get
  match w.disk.locate false (← absolute p) with
  | .ok (.absent place) => set { w with disk := w.disk.put place (.file [] writtenTime) }
  | .ok (.found _ _) => refuse .exists p
  | .error r => refuseBy r p

def removeFile (p : Path) : Action Unit := do
  let w ← get
  match w.disk.entry false (← absolute p) with
  | .ok (_, .directory) => refuse .isDirectory p
  | .ok (place, _) => set { w with disk := w.disk.erase place }
  | .error r => refuseBy r p

/-- Move a file onto a path. What stands there is replaced, a link included,
but no directory. -/
def replaceFile (source target : Path) : Action Unit := do
  let w ← get
  let stop (errno : Errno) : Action Unit := throw (.system ⟨errno, source.text, some target.text⟩)
  match w.disk.entry false (← absolute source), w.disk.locate false (← absolute target) with
  | .ok (from_, item), .ok arrival =>
    match arrival with
    | .found _ .directory => stop .isDirectory
    | _ => set { w with disk := (w.disk.erase from_).put arrival.place item }
  | .error (.errno e), _ => stop e
  | _, .error (.errno e) => stop e
  | _, _ => throw .nulInPath

end SourceAtlas.Action
