import SourceAtlas.Cache.Basic
import SourceAtlas.Json.Writer
import SourceAtlas.World.Files

/-!
Loading, saving and removing the file of a cache. A file that cannot be used leaves the cache empty;
a file is written beside its place and then moved there, so that a failure leaves the old one.
-/
namespace SourceAtlas.Cache

open Number

/-- What the bytes of a cache file are for this cache. -/
inductive Loaded where
  | usable (d : CacheDocument)
  /-- Written by another version: thrown away without a warning. -/
  | outdated (message : Text)
  | corrupt (message : Text)

def readBytes (c : Cache) (bytes : List UInt8) : Loaded :=
  let datum := match Text.Utf8.decode bytes with
    | .ok cs => (Json.parse .asDouble cs).toOption
    | .error _ => none
  match datum with
  | none => .corrupt ("Cannot read cache " ++ c.file.text ++ ": not a JSON document")
  | some d =>
    match CacheDocument.ofDatum c.version d with
    | .ok doc => .usable doc
    | .error (.otherVersion found) =>
      .outdated ("Cache version " ++ found.shown ++ " does not match " ++ Datum.intText c.version)
    | .error (.invalid count) =>
      .corrupt ("Invalid cache " ++ c.file.text ++ ": " ++ Style.natText count ++ " errors")

def readFile (c : Cache) : Action Loaded := do
  match ← Action.attempt (Action.readBytes c.file) with
  | .error e => return .corrupt ("Cannot read cache " ++ c.file.text ++ ": " ++ e.message)
  | .ok bytes => return c.readBytes bytes

/-- Load the file of a cache; the answer is whether entries were loaded. -/
def load (c : Cache) : Action (Cache × Bool) := do
  let c := c.forgotten
  if !(← Action.isFile c.file) then
    Action.log .info .caching ("No cache at " ++ c.file.text)
    return (c, false)
  match ← c.readFile with
  | .outdated message =>
    Action.log .info .caching ("Discarding cache: " ++ message)
    return (c, false)
  | .corrupt message =>
    Action.log .warning .caching ("Discarding cache: " ++ message)
    return ({ c with problem := some message }, false)
  | .usable doc =>
    let c := c.ofDocument doc
    Action.log .info .caching
      ("Loaded " ++ Style.natText c.entries.length ++ " cache entries from " ++ c.file.text)
    return (c, true)

def fingerprint (path : Path) : Action Fingerprint := do
  let mtime ← Action.modified path
  return .ofBytes (← Action.readBytes path) mtime

/-- The entry of a path, if the file is still the one it was made from.
Without a fingerprint the file is read; one that cannot be read has changed. -/
def lookUp (c : Cache) (path : Path) (given : Option Fingerprint) : Action (Option CacheEntry) := do
  if !Assoc.has path.text c.entries then return none
  match given with
  | some f => return c.current? path f
  | none =>
    match ← Action.attempt (fingerprint path) with
    | .ok f => return c.current? path f
    | .error _ => return none

/-- Remember the record of a file. Without a fingerprint the file is read;
one that cannot be read is not remembered. -/
def remember (c : Cache) (path : Path) (record : Record) (given : Option Fingerprint) :
    Action Cache := do
  match given with
  | some f => return c.put path record f
  | none =>
    match ← Action.attempt (fingerprint path) with
    | .ok f => return c.put path record f
    | .error e =>
      Action.log .warning .caching ("Not caching " ++ path.text ++ ": " ++ e.message)
      return c

/-- Names beside a file for the time of writing it. -/
def temporaryName (name : Text) (extra : Nat) : Text :=
  "." ++ name ++ "." ++ Text.ofChars (List.replicate (8 + extra) 'X') ++ ".tmp"

/-- A path beside a file at which there is nothing. One more name is tried
than there are entries on the disk. -/
def temporaryPath (file : Path) : Action Path := do
  let w ← get
  let parent := w.here.join file.parent
  let names := (List.range (w.disk.entries.length + 1)).map (temporaryName file.name)
  let isFree (name : Text) : Bool :=
    match w.disk.locate false (parent.join ⟨.none, [name]⟩) with
    | .ok (.found _ _) => false
    | _ => true
  return file.parent.join ⟨.none, [(names.find? isFree).getD (temporaryName file.name 0)]⟩

/-- Fill a new file and move it onto a path. If the system refuses that,
nothing of the file stays. -/
def fillAndMove (fill : Path → Action Unit) (temporary file : Path) : Action Unit := do
  let place : Action Unit := do
    fill temporary
    Action.replaceFile temporary file
  match ← Action.attempt place with
  | .ok () => return ()
  | .error e =>
    Action.removeFile temporary
    throw (.system e)

/-- Replace a file by a new one that is made beside it. -/
def replaceWith (fill : Path → Action Unit) (file : Path) : Action Unit := do
  Action.makeDirectories file.parent
  let temporary ← temporaryPath file
  Action.createFile temporary
  fillAndMove fill temporary file

/-- Write a file beside its place and move it there. If it cannot be written
or moved, nothing of it stays. -/
def writeReplacing (file : Path) (bytes : List UInt8) : Action Unit :=
  replaceWith (fun temporary => Action.writeBytes temporary bytes) file

/-- Save the cache. It remembers when it was first made. -/
def save (c : Cache) : Action Cache := do
  let doc := c.toDocument (← Action.now)
  match Json.document doc.toDatum with
  | .error _ => throw .unwritable
  | .ok text =>
    writeReplacing c.file (Text.Utf8.encodeChars text)
    Action.log .info .caching
      ("Saved " ++ Style.natText c.entries.length ++ " cache entries to " ++ c.file.text)
    return { c with createdAt := some doc.createdAt }

/-- Forget all files but these; the answer is how many are forgotten. -/
def prune (c : Cache) (keep : List Path) : Action (Cache × Nat) := do
  let stale := c.staleCount keep
  if stale ≠ 0 then
    Action.log .debug .caching ("Pruned " ++ Style.natText stale ++ " stale cache entries")
  return (c.keepOnly keep, stale)

/-- Remove the file of a cache; the answer is whether there was one. -/
def remove (c : Cache) : Action Bool := do
  match ← Action.attempt (Action.removeFile c.file) with
  | .ok () =>
    Action.log .info .caching ("Removed cache " ++ c.file.text)
    return true
  | .error e => if e.errno = .noEntry then return false else throw (.system e)

end SourceAtlas.Cache
