import SourceAtlas.Config
import SourceAtlas.Proofs.Disk.Canonical
import SourceAtlas.Proofs.Path
import SourceAtlas.Proofs.World.Looking
import SourceAtlas.Scan.Basic

/-!
What loading the configuration of a project gives, and where the configuration puts the cache. The
directory is the canonical form of what the configuration names, below the canonical form of the
root.
-/
namespace SourceAtlas.Config

open SourceAtlas.Action

/-- The path of the configuration of a project. -/
abbrev filePath (root : Path) : Path := root.join (Path.parse fileName)

/-- Bytes that are a text, but none of a configuration: no TOML, or TOML
that does not fit. -/
def Faulty (bytes : List UInt8) : Prop :=
  ∃ cs, Text.Utf8.decode bytes = .ok cs ∧ ((∃ line, Toml.parse cs = .error (.malformed, line)) ∨
    ∃ fields, Toml.parse cs = .ok fields ∧ ∀ c, read (.table fields) ≠ .valid c)

/-- Bytes of a text in which an integer has more digits than
any number may have. -/
def Oversized (bytes : List UInt8) : Prop :=
  ∃ cs line, Text.Utf8.decode bytes = .ok cs ∧ Toml.parse cs = .error (.hugeInteger, line)

theorem ofBytes_faulty {bytes : List UInt8} (hFaulty : Faulty bytes) (path : Path) :
    ∃ fault, ofBytes path bytes = .error (.config fault) := by
  obtain ⟨cs, hDecode, ⟨line, hParse⟩ | ⟨fields, hParse, hNone⟩⟩ := hFaulty
  · exact ⟨.malformed path.text line, by simp only [ofBytes, hDecode, hParse]⟩
  · simp only [ofBytes, hDecode, hParse]
    split
    · next c hRead => exact absurd hRead (hNone c)
    · exact ⟨_, rfl⟩

theorem ofBytes_oversized {bytes : List UInt8} (hOversized : Oversized bytes) (path : Path) :
    ofBytes path bytes = .error .digitLimit := by
  obtain ⟨cs, line, hDecode, hParse⟩ := hOversized
  simp only [ofBytes, hDecode, hParse]

theorem ofBytes_garbled {bytes : List UInt8} {fault : Text.Utf8.Fault}
    (hDecode : Text.Utf8.decode bytes = .error fault) (path : Path) : ofBytes path bytes = .error .notUtf8 := by
  rw [ofBytes, hDecode]

theorem ofBytes_error {path : Path} {bytes : List UInt8} {f : Failure} (hError : ofBytes path bytes = .error f) :
    (f = .notUtf8 ∧ ∃ fault, Text.Utf8.decode bytes = .error fault) ∨ (f = .digitLimit ∧ Oversized bytes) ∨
      ∃ fault, f = .config fault := by
  rw [ofBytes] at hError
  split at hError
  · next fault hDecode => exact .inl ⟨(Except.error.inj hError).symm, fault, hDecode⟩
  · next cs hDecode =>
    split at hError
    · exact .inr (.inr ⟨_, (Except.error.inj hError).symm⟩)
    · next line hParse => exact .inr (.inl ⟨(Except.error.inj hError).symm, cs, line, hDecode, hParse⟩)
    · split at hError
      · cases hError
      · exact .inr (.inr ⟨_, (Except.error.inj hError).symm⟩)

section Load

variable {root : Path} {w : World} {place : Place} {bytes : List UInt8} {mtime : Int}
  (hLocate : w.disk.locate true (w.here.join (filePath root)) = .ok (.found place (.file bytes mtime)))

include hLocate

theorem isFile_filePath : (Action.isFile (filePath root)).on w = (.ok true, w) := by
  have hTrue : w.disk.isFile (w.here.join (filePath root)) = .ok true := Disk.test_of_locate hLocate _
  rw [Action.isFile, ask_on, hTrue]

/-- A configuration that is there gives what its bytes say. -/
theorem load_open (hOpen : w.OpenAt (w.here.join (filePath root)).text) :
    (load root).on w = (ofBytes (filePath root) bytes, w) := by
  have hRead : (Action.attempt (Action.readBytes (filePath root))).on w = (.ok (.ok bytes), w) := by
    rw [on_attempt, readBytes_open hOpen hLocate]
  rw [load, on_bind_ok (isFile_filePath hLocate), if_pos rfl, on_bind_ok hRead]
  dsimp only
  split
  · next hConfig => rw [on_pure, hConfig]
  · next hError => rw [on_throw, hError]

theorem load_locked (hLocked : ¬ w.OpenAt (w.here.join (filePath root)).text) :
    ∃ fault w', (load root).on w = (.error (.config fault), w') := by
  obtain ⟨w', hRefused⟩ := readBytes_locked hLocked
  have hRead : ∃ e, (Action.attempt (Action.readBytes (filePath root))).on w = (.ok (.error e), w') :=
    ⟨_, by rw [on_attempt, hRefused]⟩
  obtain ⟨e, hRead⟩ := hRead
  refine ⟨.unreadable (filePath root).text e, w', ?_⟩
  rw [load, on_bind_ok (isFile_filePath hLocate), if_pos rfl, on_bind_ok hRead]
  rfl

end Load

/-- The directory of the cache, found from the root: both have canonical
forms, and the names of the one go on from those of the other. -/
structure Placed (d : Disk) (root : Path) (dir : Text) (base directory : Path) : Prop where
  rooted : d.canonical root = .ok base
  found : d.canonical (base.join (Path.parse dir)) = .ok directory
  within : base.parts <+: directory.parts

variable {root : Path} {dir : Text} {w w' : World}

theorem Placed.isAbsolute {d : Disk} {base directory : Path} (hPlaced : Placed d root dir base directory) :
    directory.isAbsolute = true :=
  Disk.canonical_isAbsolute hPlaced.found

/-- A directory that is given for the cache lies in the
project by its names. -/
theorem cacheDirectory_on_ok {directory : Path}
    (hRun : (cacheDirectory root dir).on w = (.ok directory, w')) :
    ∃ base, Placed w.disk (w.here.join root) dir base directory := by
  rw [cacheDirectory] at hRun
  split at hRun
  · cases (Prod.mk.inj hRun).1
  split at hRun
  · cases (Prod.mk.inj hRun).1
  obtain ⟨base, w₁, hBase, hRest⟩ := of_on_bind hRun
  obtain ⟨path, w₂, hPath, hResult⟩ := of_on_bind hRest
  have hRoot := gives_canonical root w base w₁ rfl rfl hBase
  have hLooked := (looks_canonical root).run hBase
  have hAbsolute : (base.join (Path.parse dir)).isAbsolute = true :=
    Path.join_isAbsolute (Disk.canonical_isAbsolute hRoot) _
  have hDirectory := gives_canonical _ w₁ path w₂ rfl rfl hPath
  rw [hLooked.disk, Path.join_of_absolute hAbsolute] at hDirectory
  split at hResult
  · next rest hBelow =>
    obtain rfl := Except.ok.inj (Prod.mk.inj hResult).1
    exact ⟨base, hRoot, hDirectory, ⟨rest.parts, (Path.relativeTo?_eq_some_iff.mp hBelow).2.2.symm⟩⟩
  · cases (Prod.mk.inj hResult).1

/-- A directory that a configuration may give for the cache of a project. -/
structure Placeable (d : Disk) (root : Path) (dir : Text) : Prop where
  named : dir ≠ ""
  relative : (Text.startsWith "~" dir || (Path.parse dir).isAbsolute) = false
  placed : ∃ base directory, Placed d root dir base directory

theorem cacheDirectory_placeable {directory : Path} (hRun : (cacheDirectory root dir).on w = (.ok directory, w')) :
    Placeable w.disk (w.here.join root) dir := by
  obtain ⟨base, hPlaced⟩ := cacheDirectory_on_ok hRun
  rw [cacheDirectory] at hRun
  split at hRun
  · cases (Prod.mk.inj hRun).1
  · next hNamed =>
    split at hRun
    · cases (Prod.mk.inj hRun).1
    · next hRelative => exact ⟨hNamed, Bool.not_eq_true _ ▸ hRelative, base, directory, hPlaced⟩

/-- The file of the cache stands in its directory under a name of its own. -/
theorem cacheFile_on_ok {c : Config} {file : Path} (hRun : (c.cacheFile root).on w = (.ok file, w')) :
    ∃ base directory, Placed w.disk (w.here.join root) c.cacheDir base directory ∧
      file = Scan.child directory cacheFileName := by
  obtain ⟨directory, w₁, hDirectory, hResult⟩ := of_on_bind hRun
  obtain rfl := Except.ok.inj (Prod.mk.inj hResult).1
  obtain ⟨base, hPlaced⟩ := cacheDirectory_on_ok hDirectory
  exact ⟨base, directory, hPlaced, rfl⟩

end SourceAtlas.Config
