import SourceAtlas.CommandLine.Run
import Std.Time.DateTime.Timestamp

/-!
The command line. The trees that the arguments name are read into a world, the command runs on it,
and what it changed is written back.
-/
namespace SourceAtlas.Main

/-- Entries found on the machine, and paths that could not be read. -/
structure Snapshot where
  entries : Array (Place × Item) := #[]
  locks : Array (Text × Int) := #[]

def nanoseconds (t : IO.FS.SystemTime) : Int := t.sec * 1000000000 + t.nsec.toNat

/-- The name of a path on the machine, which knows strings only. -/
def nameOf (p : Path) : String := p.text.string?.getD ""

/-- The homes of users: that of the own user from the environment, the
others from the list of users. -/
def homes : IO (Assoc Text Text) := do
  let own ← IO.getEnv "HOME"
  let users ← try IO.FS.lines "/etc/passwd" catch _ => pure #[]
  let entry (line : String) : Option (Text × Text) :=
    match line.splitOn ":" with
    | user :: _ :: _ :: _ :: _ :: home :: _ => some (user, home)
    | _ => none
  return (own.map fun home => (("" : Text), (home : Text))).toList ++ users.toList.filterMap entry

/-- Add one file; one that cannot be read is locked. -/
def addFile (s : Snapshot) (p : Path) (time : Int) : IO Snapshot := do
  try
    let bytes ← IO.FS.readBinFile (nameOf p)
    return { s with entries := s.entries.push (p.parts, .file bytes.toList time) }
  catch _ =>
    return { entries := s.entries.push (p.parts, .file [] time), locks := s.locks.push (p.text, -1) }

/-- Add an entry and all below it. A link is kept as the path
that it leads to. -/
partial def addTree (s : Snapshot) (p : Path) : IO Snapshot := do
  let real := (← IO.currentDir) / nameOf p
  let data ← try some <$> real.symlinkMetadata catch _ => pure none
  match data with
  | none => return s
  | some data =>
    match data.type with
    | .dir =>
      let s := { s with entries := s.entries.push (p.parts, .directory) }
      try (← real.readDir).foldlM (fun s e => addTree s (p.join ⟨.none, [e.fileName]⟩)) s
      catch _ => return { s with locks := s.locks.push (p.text, -1) }
    | .symlink =>
      let target ← try pure (← IO.FS.realPath real).toString catch _ => pure ""
      return { s with entries := s.entries.push (p.parts, .link target) }
    | _ => addFile s p (nanoseconds data.modified)

/-- The trees to look at: the working directory and what the arguments name,
none of them within another. -/
def roots (here : Standpoint) (args : List String) : List Path :=
  let path (a : String) : Path :=
    let p := Path.parse a
    (here.join ((here.expand p).toOption.getD p)).normalize
  let named := here.toPath :: (args.filter fun a => !a.startsWith "-").map path
  let within (p q : Path) : Bool := p ≠ q && (p.relativeTo? q).isSome
  named.eraseDups.filter fun p => !named.any (within p)

def readWorld (args : List String) : IO World := do
  let here : Standpoint := ⟨Path.parse (← IO.currentDir).toString, ← homes⟩
  let snapshot ← (roots here args).foldlM addTree {}
  let disk : Disk := ⟨snapshot.entries.toList⟩
  let time := (← Std.Time.Timestamp.now).toNanosecondsSinceUnixEpoch.val
  return {
    disk := (roots here args).foldl (fun d p => d.withDirectories p.parts.dropLast) disk
    here := here
    locks := snapshot.locks.toList
    watch := ⟨time.toNat / 1000, 1⟩ }

def writeBack (before after : Disk) : IO Unit := do
  before.entries.forM fun e => do
    if (after.find? e.1).isNone then IO.FS.removeFile (nameOf (Path.mk .root e.1))
  after.entries.forM fun e => do
    let path := nameOf (Path.mk .root e.1)
    if before.find? e.1 ≠ some e.2 then
      match e.2 with
      | .file bytes _ => IO.FS.writeBinFile path ⟨bytes.toArray⟩
      | .directory => IO.FS.createDirAll path
      | .link _ => pure ()

def usage : String :=
  "usage: ngmap [-h] [-v] \x7banalyze,cycles,graph,files,inspect,verify\x7d ...\n"

/-- Run an invocation on the machine; the answer is the exit code. -/
def perform (args : List String) (i : CommandLine.Invocation) : IO UInt32 := do
  let before ← readWorld args
  let (result, after) := (CommandLine.run i.command).run before
  writeBack before.disk after.disk
  IO.print (String.join after.printed)
  IO.eprint (CommandLine.remarksText i.verbosity after.remarks)
  match result with
  | .ok exit => return exit.code.toUInt32
  | .error _ =>
    IO.eprint "error: the command failed\n"
    return 1

end SourceAtlas.Main

def main (args : List String) : IO UInt32 := do
  match SourceAtlas.CommandLine.invocation (args.map SourceAtlas.Text.ofString) with
  | .error .help =>
    IO.print SourceAtlas.Main.usage
    return 0
  | .error .usage =>
    IO.eprint SourceAtlas.Main.usage
    return 2
  | .ok i => SourceAtlas.Main.perform args i
