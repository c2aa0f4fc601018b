import SourceAtlas.Digest.Sha256
import SourceAtlas.Record.Document

/-!
The cache as it is kept between runs: one entry per file, with the digest and the modification time
of the content that its record was made from.
-/
namespace SourceAtlas

open Schema

/-- What tells contents of a file apart. -/
structure Fingerprint where
  digest : Text
  mtime : Int
  deriving DecidableEq, Repr

def Fingerprint.ofBytes (bytes : List UInt8) (mtime : Int) : Fingerprint :=
  ⟨Digest.Sha256.hex bytes, mtime⟩

structure CacheEntry where
  path : Text
  digest : Text
  mtime : Int
  record : Record
  deriving DecidableEq, Repr

namespace CacheEntry

/-- Whether the file is still the one the record was made from: not newer,
and of one digest. -/
def isCurrent (e : CacheEntry) (f : Fingerprint) : Bool := f.mtime ≤ e.mtime && f.digest = e.digest

def toDatum (e : CacheEntry) : Datum := .table [
  ("path", .text e.path),
  ("digest", .text e.digest),
  ("mtime_ns", .int e.mtime),
  ("record", e.record.toDatum)]

def read : Reader CacheEntry := Reader.shape fun fs =>
  CacheEntry.mk <$> required "path" Reader.text fs
    <*> required "digest" Reader.text fs
    <*> required "mtime_ns" Reader.integer fs
    <*> required "record" Record.read fs

end CacheEntry

structure CacheDocument where
  version : Int := 1
  projectPath : Text
  createdAt : Text
  updatedAt : Text
  entries : List CacheEntry := []
  deriving DecidableEq, Repr

namespace CacheDocument

def toDatum (d : CacheDocument) : Datum := .table [
  ("version", .int d.version),
  ("project_path", .text d.projectPath),
  ("created_at", .text d.createdAt),
  ("updated_at", .text d.updatedAt),
  ("entries", .list (d.entries.map CacheEntry.toDatum))]

def read : Reader CacheDocument := Reader.shape fun fs =>
  CacheDocument.mk <$> field "version" 1 Reader.integer fs
    <*> required "project_path" Reader.text fs
    <*> required "created_at" Reader.text fs
    <*> required "updated_at" Reader.text fs
    <*> field "entries" [] (Reader.list CacheEntry.read) fs

/-- Whether a datum is equal to an integer in value. -/
def equalsInteger (n : Int) : Datum → Bool
  | .int m => m = n
  | .bool b => n = if b then 1 else 0
  | .float x => x.isIntegral && x.toInt = n
  | _ => false

/-- Why a document is not used. -/
inductive Rejection where
  /-- It was written by another version, or says none. -/
  | otherVersion (found : Datum)
  /-- It does not fit, in so many places. -/
  | invalid (count : Nat)

/-- The document that a datum is, for one version of the program. -/
def ofDatum (version : Int) (d : Datum) : Except Rejection CacheDocument :=
  let found := (d.field? "version").getD .null
  let other := match d with
    | .table _ => !equalsInteger version found
    | _ => false
  if other then .error (.otherVersion found)
  else
    match read d with
    | .valid doc => .ok doc
    | .invalid faults => .error (.invalid faults.length)

end CacheDocument

end SourceAtlas
