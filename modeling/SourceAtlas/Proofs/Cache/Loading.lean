import SourceAtlas.Proofs.Cache.Memory
import SourceAtlas.Proofs.Extraction

/-!
Loading takes a whole document or nothing. Bytes hold a document of this version, or a table that
says another version or none, or they are corrupt; only in the first case are there entries
afterwards, and only in the last a problem.
-/
namespace SourceAtlas

/-- A table says which version wrote it in a field that equals the
version in value. -/
def Datum.SaysVersion (version : Int) (d : Datum) : Prop :=
  ∃ found, d.field? "version" = some found ∧ CacheDocument.equalsInteger version found = true

/-- Only a table can be a document. -/
theorem CacheDocument.table_of_read {d : Datum} {doc : CacheDocument}
    (hRead : CacheDocument.read d = .valid doc) : ∃ fields, d = .table fields := by
  cases d <;> first | exact ⟨_, rfl⟩ | cases hRead

namespace CacheDocument

/-- The version of a document is another one if its field does not say the
number of this one. -/
theorem otherVersion_iff {version : Int} {d : Datum} :
    (!equalsInteger version ((d.field? "version").getD .null)) = true ↔ ¬ d.SaysVersion version := by
  rw [Bool.not_eq_true', Datum.SaysVersion]
  rcases d.field? "version" with _ | found
  · simp [equalsInteger]
  · simp

/-- A table that does not say the version is not looked at any further, so
that no fault of its shape is reported. -/
theorem ofDatum_other {version : Int} {fields : List (Text × Datum)}
    (hOther : ¬ (Datum.table fields).SaysVersion version) :
    ∃ found, ofDatum version (.table fields) = .error (.otherVersion found) := by
  simp only [ofDatum, otherVersion_iff.mpr hOther, if_true]
  exact ⟨_, rfl⟩

/-- Anything else has to fit the shape. It is a document, or it has so many
faults. -/
theorem ofDatum_same {version : Int} {d : Datum}
    (hSame : ∀ fields, d = .table fields → (Datum.table fields).SaysVersion version) :
    ofDatum version d = match read d with
      | .valid doc => .ok doc
      | .invalid faults => .error (.invalid faults.length) := by
  cases d with
  | table fields =>
      have hVersion := mt otherVersion_iff.mp (not_not.mpr (hSame fields rfl))
      exact if_neg hVersion
  | _ => rfl

end CacheDocument

namespace Cache

open SourceAtlas.Action

variable {c c' : Cache} {w w' : World} {bytes : List UInt8} {doc : CacheDocument} {found : Bool}

def datum? (bytes : List UInt8) : Option Datum :=
  match Text.Utf8.decode bytes with
  | .ok cs => (Json.parse .asDouble cs).toOption
  | .error _ => none

/-- Bytes that hold a document of a version: a table that says the version
and fits the shape. -/
def Holds (version : Int) (bytes : List UInt8) (doc : CacheDocument) : Prop :=
  ∃ fields, datum? bytes = some (.table fields) ∧ (Datum.table fields).SaysVersion version ∧
    CacheDocument.read (.table fields) = .valid doc

/-- Bytes that another version wrote: a table that does not
say this version. -/
def Foreign (version : Int) (bytes : List UInt8) : Prop :=
  ∃ fields, datum? bytes = some (.table fields) ∧ ¬ (Datum.table fields).SaysVersion version

/-- Bytes that are no JSON, or do not fit the shape and were not written by
another version. -/
def Corrupt (version : Int) (bytes : List UInt8) : Prop :=
  datum? bytes = none ∨ ∃ d, datum? bytes = some d ∧ (∀ doc, CacheDocument.read d ≠ .valid doc) ∧
    ¬ Foreign version bytes

/-- Bytes hold one document at most. -/
theorem Holds.unique {doc' : CacheDocument} {version : Int} (hHolds : Holds version bytes doc)
    (hAgain : Holds version bytes doc') : doc = doc' := by
  obtain ⟨fields, hDatum, -, hRead⟩ := hHolds
  obtain ⟨fields', hDatum', -, hRead'⟩ := hAgain
  rw [hDatum] at hDatum'
  cases hDatum'
  rw [hRead] at hRead'
  cases hRead'
  rfl

/-- Bytes that hold a document of this version are not of another one. -/
theorem Holds.not_foreign {version : Int} (hHolds : Holds version bytes doc) : ¬ Foreign version bytes := by
  rintro ⟨fields', hDatum', hOther⟩
  obtain ⟨fields, hDatum, hVersion, -⟩ := hHolds
  rw [hDatum] at hDatum'
  cases hDatum'
  exact hOther hVersion

/-- Bytes that are corrupt say no other version. -/
theorem Corrupt.not_foreign {version : Int} (hCorrupt : Corrupt version bytes) : ¬ Foreign version bytes := by
  rcases hCorrupt with hNone | ⟨d, -, -, hNot⟩
  · rintro ⟨fields, hDatum, -⟩
    rw [hNone] at hDatum
    cases hDatum
  · exact hNot

/-- Bytes that are corrupt hold no document. -/
theorem Corrupt.not_holds {version : Int} (hCorrupt : Corrupt version bytes) : ¬ Holds version bytes doc := by
  rintro ⟨fields, hDatum, -, hRead⟩
  rcases hCorrupt with hNone | ⟨d, hDatum', hInvalid, -⟩
  · rw [hNone] at hDatum
    cases hDatum
  · rw [hDatum] at hDatum'
    cases hDatum'
    exact hInvalid doc hRead

/-- Bytes that are JSON are taken, thrown away or rejected as one of the
three cases says. -/
theorem ofDatum_cases {version : Int} {d : Datum} (hDatum : datum? bytes = some d) :
    (∃ doc, CacheDocument.ofDatum version d = .ok doc ∧ Holds version bytes doc) ∨
    (∃ found, CacheDocument.ofDatum version d = .error (.otherVersion found) ∧ Foreign version bytes) ∨
    ∃ count, CacheDocument.ofDatum version d = .error (.invalid count) ∧ Corrupt version bytes := by
  by_cases hForeign : Foreign version bytes
  · right; left
    obtain ⟨fields, hTable, hOther⟩ := hForeign
    rw [hDatum] at hTable
    cases hTable
    obtain ⟨found, hError⟩ := CacheDocument.ofDatum_other hOther
    exact ⟨found, hError, fields, hDatum, hOther⟩
  · have hVersion : ∀ fields, d = .table fields → (Datum.table fields).SaysVersion version := by
      rintro fields rfl
      by_contra hOther
      exact hForeign ⟨fields, hDatum, hOther⟩
    rw [CacheDocument.ofDatum_same hVersion]
    cases hRead : CacheDocument.read d with
    | valid doc =>
        left
        obtain ⟨fields, rfl⟩ := CacheDocument.table_of_read hRead
        exact ⟨doc, rfl, fields, hDatum, hVersion fields rfl, hRead⟩
    | invalid faults =>
        right; right
        exact ⟨faults.length, rfl, .inr ⟨d, hDatum, by simp [hRead], hForeign⟩⟩

/-- Reading bytes for a cache goes by the datum in them: whether there is
one, which version it says, and whether it is a document. -/
theorem readBytes_eq (c : Cache) (bytes : List UInt8) : c.readBytes bytes = match datum? bytes with
    | none => .corrupt ("Cannot read cache " ++ c.file.text ++ ": not a JSON document")
    | some d =>
      match CacheDocument.ofDatum c.version d with
      | .ok doc => .usable doc
      | .error (.otherVersion found) =>
        .outdated ("Cache version " ++ found.shown ++ " does not match " ++ Datum.intText c.version)
      | .error (.invalid count) =>
        .corrupt ("Invalid cache " ++ c.file.text ++ ": " ++ Number.Style.natText count ++ " errors") := rfl

/-- Every file content falls under one of the three cases and is read as
that case says. -/
theorem readBytes_cases (c : Cache) (bytes : List UInt8) :
    (∃ doc, c.readBytes bytes = .usable doc ∧ Holds c.version bytes doc) ∨
    (∃ message, c.readBytes bytes = .outdated message ∧ Foreign c.version bytes) ∨
    ∃ message, c.readBytes bytes = .corrupt message ∧ Corrupt c.version bytes := by
  have hRead := c.readBytes_eq bytes
  rcases hDatum : datum? bytes with _ | d
  · rw [hDatum] at hRead
    exact .inr (.inr ⟨_, hRead, .inl hDatum⟩)
  · simp only [hDatum] at hRead
    rcases ofDatum_cases hDatum with ⟨doc, hOk, hCase⟩ | ⟨found, hError, hCase⟩ | ⟨count, hError, hCase⟩
    · rw [hOk] at hRead
      exact .inl ⟨doc, hRead, hCase⟩
    · rw [hError] at hRead
      exact .inr (.inl ⟨_, hRead, hCase⟩)
    · rw [hError] at hRead
      exact .inr (.inr ⟨_, hRead, hCase⟩)

/-- The entries of a document stand under their paths; of several for one
path the last counts. -/
theorem get?_ofDocument (c : Cache) (doc : CacheDocument) (key : Text) :
    Assoc.get? key (c.ofDocument doc).entries = doc.entries.reverse.find? fun e => e.path = key := by
  rw [ofDocument, Assoc.get?_ofPairs, ← List.map_reverse, List.find?_map, Option.map_map]
  exact Option.map_id'

/-- A regular file with these bytes is at the end of a path. -/
def FileAt (w : World) (p : Path) (bytes : List UInt8) : Prop :=
  ∃ place mtime, w.disk.locate true (w.here.join p) = .ok (.found place (.file bytes mtime))

/-- What loading makes of a cache and of what stands at the
path of its file. -/
structure Outcome (c : Cache) (w : World) (c' : Cache) (found : Bool) : Prop where
  kept : c'.file = c.file ∧ c'.project = c.project ∧ c'.version = c.version
  /-- Entries are found exactly if the file can be opened and holds a document of this version. -/
  found_iff : found = true ↔ w.OpenAt (w.here.join c.file).text ∧
    ∃ bytes doc, FileAt w c.file bytes ∧ Holds c.version bytes doc
  /-- Then all of them are taken: for each path the last. -/
  whole : found = true → c'.problem = none ∧ (c'.entries.map Prod.fst).Nodup ∧
    ∀ bytes doc, FileAt w c.file bytes → Holds c.version bytes doc →
      ∀ key, Assoc.get? key c'.entries = doc.entries.reverse.find? fun e => e.path = key
  /-- Otherwise none is. -/
  nothing : found = false → c'.entries = []
  /-- The time at which the cache was made is that of the document, if there is one. -/
  dated : (found = true → ∀ bytes doc, FileAt w c.file bytes → Holds c.version bytes doc →
      c'.createdAt = some doc.createdAt) ∧ (found = false → c'.createdAt = c.createdAt)
  /-- A problem is a file that cannot be opened or whose bytes are corrupt. -/
  problem_iff : c'.problem.isSome = true ↔ ∃ bytes, FileAt w c.file bytes ∧
    (¬ w.OpenAt (w.here.join c.file).text ∨ Corrupt c.version bytes)

theorem FileAt.unique {p : Path} {bytes' : List UInt8} (hFile : FileAt w p bytes) (hAgain : FileAt w p bytes') :
    bytes = bytes' := by
  obtain ⟨place, mtime, hLocate⟩ := hFile
  obtain ⟨place', mtime', hLocate'⟩ := hAgain
  rw [hLocate] at hLocate'
  cases hLocate'
  rfl

theorem isFile_of_fileAt {p : Path} (hFile : FileAt w p bytes) :
    w.disk.isFile (w.here.join p) = .ok true := by
  obtain ⟨place, mtime, hLocate⟩ := hFile
  rw [Disk.isFile, Disk.test_of_locate hLocate]

/-- Where no file is, loading forgets the entries and says that
nothing was loaded. -/
theorem outcome_absent (hTest : w.disk.isFile (w.here.join c.file) = .ok false) :
    Outcome c w c.forgotten false := by
  have hNone (bytes : List UInt8) : ¬ FileAt w c.file bytes := by
    intro hFile
    rw [isFile_of_fileAt hFile] at hTest
    cases hTest
  exact ⟨⟨rfl, rfl, rfl⟩, by simp [hNone], nofun, fun _ => rfl, ⟨nofun, fun _ => rfl⟩, by simp [forgotten, hNone]⟩

/-- A file that cannot be opened and one whose bytes are corrupt
come to the same. -/
theorem outcome_rejected (hFile : FileAt w c.file bytes)
    (hRejected : ¬ w.OpenAt (w.here.join c.file).text ∨ Corrupt c.version bytes) (message : Text) :
    Outcome c w { c.forgotten with problem := some message } false where
  kept := ⟨rfl, rfl, rfl⟩
  found_iff := by
    apply iff_of_false nofun
    rintro ⟨hOpen, bytes', doc, hFile', hHolds⟩
    obtain rfl := hFile.unique hFile'
    cases hRejected with
    | inl hLocked => exact hLocked hOpen
    | inr hCorrupt => exact hCorrupt.not_holds hHolds
  whole := nofun
  nothing _ := rfl
  dated := ⟨nofun, fun _ => rfl⟩
  problem_iff := iff_of_true rfl ⟨bytes, hFile, hRejected⟩

section Open

variable (hOpen : w.OpenAt (w.here.join c.file).text) (hFile : FileAt w c.file bytes)

include hOpen hFile

/-- Loading a document of this version takes its entries and says so. -/
theorem outcome_usable (hHolds : Holds c.version bytes doc) : Outcome c w (c.ofDocument doc) true where
  kept := ⟨rfl, rfl, rfl⟩
  found_iff := iff_of_true rfl ⟨hOpen, bytes, doc, hFile, hHolds⟩
  whole := by
    intro _
    refine ⟨rfl, Assoc.nodup_ofPairs _, ?_⟩
    intro bytes' doc' hFile' hHolds' key
    obtain rfl := hFile.unique hFile'
    obtain rfl := hHolds.unique hHolds'
    exact get?_ofDocument c doc key
  nothing := nofun
  dated := by
    refine ⟨fun _ bytes' doc' hFile' hHolds' => ?_, nofun⟩
    obtain rfl := hFile.unique hFile'
    obtain rfl := hHolds.unique hHolds'
    rfl
  problem_iff := by
    apply iff_of_false nofun
    rintro ⟨bytes', hFile', hLocked | hCorrupt⟩
    · exact hLocked hOpen
    · obtain rfl := hFile.unique hFile'
      exact hCorrupt.not_holds hHolds

/-- Loading a document of another version forgets the entries. -/
theorem outcome_outdated (hForeign : Foreign c.version bytes) : Outcome c w c.forgotten false where
  kept := ⟨rfl, rfl, rfl⟩
  found_iff := by
    apply iff_of_false nofun
    rintro ⟨-, bytes', doc, hFile', hHolds⟩
    obtain rfl := hFile.unique hFile'
    exact hHolds.not_foreign hForeign
  whole := nofun
  nothing _ := rfl
  dated := ⟨nofun, fun _ => rfl⟩
  problem_iff := by
    apply iff_of_false nofun
    rintro ⟨bytes', hFile', hLocked | hCorrupt⟩
    · exact hLocked hOpen
    · obtain rfl := hFile.unique hFile'
      exact hCorrupt.not_foreign hForeign

end Open

/-- Loading gives a cache with all entries of the file or with none, and it
says which by its answer and by the problem it keeps. -/
theorem load_outcome (hLoad : c.load.on w = (.ok (c', found), w')) : Outcome c w c' found := by
  rcases hTest : w.disk.isFile (w.here.join c.file) with e | present
  · rw [load_on_error hTest] at hLoad
    cases hLoad
  cases present with
  | false =>
      obtain ⟨v, hAbsent⟩ := load_on_absent hTest
      rw [hAbsent] at hLoad
      cases hLoad
      exact outcome_absent hTest
  | true =>
      obtain ⟨place, bytes, mtime, hLocate⟩ := Disk.found_of_isFile hTest
      have hFile : FileAt w c.file bytes := ⟨place, mtime, hLocate⟩
      by_cases hOpen : w.OpenAt (w.here.join c.file).text
      · obtain ⟨v, hRead⟩ := load_on_file hOpen hLocate
        rw [hRead] at hLoad
        rcases readBytes_cases c bytes with ⟨doc, hBytes, hHolds⟩ | ⟨message, hBytes, hForeign⟩ |
            ⟨message, hBytes, hCorrupt⟩ <;> rw [hBytes] at hLoad <;> cases hLoad
        · exact outcome_usable hOpen hFile hHolds
        · exact outcome_outdated hOpen hFile hForeign
        · exact outcome_rejected hFile (.inr hCorrupt) message
      · obtain ⟨message, v, hLocked⟩ := load_on_locked hTest hOpen
        rw [hLocked] at hLoad
        cases hLoad
        exact outcome_rejected hFile (.inl hOpen) message

/-- Loading stops only where the path of the file is too long to be
asked about. Everywhere else it gives a cache with all entries of the
file or with none. -/
theorem load_all_or_nothing (c : Cache) (w : World) :
    (Resolution.TooLong w c.file ∧
      c.load.on w = (.error (.system ⟨.nameTooLong, c.file.text, none⟩), w)) ∨
    (¬ Resolution.TooLong w c.file ∧
      ∃ c' found w', c.load.on w = (.ok (c', found), w') ∧ Outcome c w c' found) := by
  rcases hTest : w.disk.isFile (w.here.join c.file) with e | present
  · left
    obtain ⟨rfl, hLong⟩ := Disk.test_eq_error_iff.mp hTest
    exact ⟨hLong, load_on_error hTest⟩
  · right
    have hShort : ¬ Resolution.TooLong w c.file := by
      intro hLong
      have hError : w.disk.isFile (w.here.join c.file) = .error .nameTooLong :=
        Disk.test_eq_error_iff.mpr ⟨rfl, hLong⟩
      rw [hTest] at hError
      cases hError
    obtain ⟨⟨c', found⟩, w', hLoad⟩ := load_answers hShort
    exact ⟨hShort, c', found, w', hLoad, load_outcome hLoad⟩

end Cache

end SourceAtlas
