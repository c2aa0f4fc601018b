import SourceAtlas.Cache.Document
import SourceAtlas.Path

/-!
The cache within a run: a map from paths to entries. An entry stands under its own path.
-/
namespace SourceAtlas

structure Cache where
  /-- The file that keeps the cache between runs. -/
  file : Path
  project : Path
  version : Int := 1
  entries : Assoc Text CacheEntry := []
  createdAt : Option Text := none
  /-- What was wrong with the file when it was loaded. -/
  problem : Option Text := none
  deriving DecidableEq, Repr

namespace Cache

/-- The cache before anything is loaded. -/
def forgotten (c : Cache) : Cache := { c with entries := [], problem := none }

/-- The cache after everything is thrown away. -/
def emptied (c : Cache) : Cache := { c with entries := [], createdAt := none }

/-- The entry of a path, if the file is still the one it was made from. -/
def current? (c : Cache) (path : Path) (f : Fingerprint) : Option CacheEntry :=
  match Assoc.get? path.text c.entries with
  | some e => if e.isCurrent f then some e else none
  | none => none

def get? (c : Cache) (path : Path) (f : Fingerprint) : Option Record :=
  (c.current? path f).map CacheEntry.record

/-- Remember the record of a file. -/
def put (c : Cache) (path : Path) (record : Record) (f : Fingerprint) : Cache :=
  let entry : CacheEntry := ⟨path.text, f.digest, f.mtime, record⟩
  { c with entries := Assoc.put path.text entry c.entries }

/-- Forget all files but these. -/
def keepOnly (c : Cache) (keep : List Path) : Cache :=
  let wanted := keep.map Path.text
  { c with entries := c.entries.filter fun p => wanted.contains p.1 }

/-- How many files are remembered besides these. -/
def staleCount (c : Cache) (keep : List Path) : Nat :=
  c.entries.length - (c.keepOnly keep).entries.length

/-- Take over a document. Of two entries for one path the last counts. -/
def ofDocument (c : Cache) (d : CacheDocument) : Cache :=
  { c with
    entries := Assoc.ofPairs (d.entries.map fun e => (e.path, e))
    createdAt := some d.createdAt
    problem := none }

/-- The document to be written at a time; entries are in
order of their paths. -/
def toDocument (c : Cache) (now : Text) : CacheDocument :=
  { version := c.version
    projectPath := c.project.text
    createdAt := if c.createdAt.getD "" = "" then now else c.createdAt.getD ""
    updatedAt := now
    entries := (Assoc.sorted c.entries).map Prod.snd }

end Cache

end SourceAtlas
