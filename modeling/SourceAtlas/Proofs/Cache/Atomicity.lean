import SourceAtlas.Proofs.Cache.Confinement
import SourceAtlas.Proofs.Cache.Memory

/-!
Saving a cache is done as a whole or not at all. Wherever it stops, every file and every link is what it
was before, and only directories above the file of the cache may be new.
-/
namespace SourceAtlas

open Scan SourceAtlas.Action

namespace Cache

variable {c : Cache} {file : Path} {bytes : List UInt8} {w w' : World} {f : Failure}
  {fault : Option (List UInt8 × SystemError)}

/-- Fill a new file. The system may refuse to go on writing after a
part of the bytes. -/
def fillAmid (fault : Option (List UInt8 × SystemError)) (bytes : List UInt8) (temporary : Path) : Action Unit := do
  match fault with
  | none => writeBytes temporary bytes
  | some (part, e) =>
    writeBytes temporary part
    throw (.system e)

/-- Write a file beside its place and move it there, while the system may
refuse to go on writing. -/
def writeReplacingAmid (fault : Option (List UInt8 × SystemError)) (file : Path) (bytes : List UInt8) :
    Action Unit :=
  replaceWith (fillAmid fault bytes) file

/-- Save the cache while the system may refuse to go on writing. -/
def saveAmid (fault : Option (List UInt8 × SystemError)) (c : Cache) : Action Cache := do
  let doc := c.toDocument (← Action.now)
  match Json.document doc.toDatum with
  | .error _ => throw .unwritable
  | .ok text =>
    writeReplacingAmid fault c.file (Text.Utf8.encodeChars text)
    Action.log .info .caching
      ("Saved " ++ Number.Style.natText c.entries.length ++ " cache entries to " ++ c.file.text)
    return { c with createdAt := some doc.createdAt }

/-- Without a refusal of that kind this is saving as it is, so that what is
shown of saving amid refusals holds of saving. -/
theorem save_eq_saveAmid (c : Cache) : c.save = c.saveAmid none := rfl

/-- What a world is after a change of the file at a path came to nothing:
the working directory, every file and every link are what they were, the
path leads where it led, and new directories stand above the file only. -/
structure Undone (file : Path) (w w' : World) : Prop where
  here : w'.here = w.here
  entry : ∀ found, w.disk.entry false (w.here.join file) = .ok found →
    w'.disk.entry false (w.here.join file) = .ok found
  files : ∀ place item, item ≠ .directory → (w'.disk.find? place = some item ↔ w.disk.find? place = some item)
  directories : w.disk.Paved (child (w.here.join file.parent) file.name) w'.disk

/-- Making directories undoes nothing: each of them comes where nothing was. -/
theorem undone_of_paved (hHere : w'.here = w.here)
    (hPaved : w.disk.Paved (child (w.here.join file.parent) file.name) w'.disk) : Undone file w w' where
  here := hHere
  entry found hFound := Disk.entry_eq_ok_iff.mpr (hPaved.extends.locate (Disk.entry_eq_ok_iff.mp hFound))
  files place item hItem := by
    refine ⟨fun hFind => ?_, hPaved.extends place item⟩
    rcases hPaved place with hSame | ⟨-, a, -, hDirectory⟩
    · rwa [← hSame]
    · rw [Disk.find?_of_locate hDirectory] at hFind
      exact absurd (Option.some.inj hFind).symm hItem
  directories := hPaved

/-- Looking at the world before and after makes no difference. -/
theorem Undone.looked {v v' : World} (hUndone : Undone file v v') (hBefore : w.Looked v) (hAfter : v'.Looked w') :
    Undone file w w' := by
  obtain ⟨hHere, hEntry, hFiles, hDirectories⟩ := hUndone
  rw [hBefore.here, hBefore.disk] at hEntry hDirectories
  rw [hBefore.disk] at hFiles
  refine ⟨hAfter.here.trans (hHere.trans hBefore.here), ?_, ?_, ?_⟩ <;> rw [hAfter.disk] <;> assumption

/-- Whether it is refused or not, filling a new file leaves bytes in it and
changes nothing else. -/
theorem fills_fillAmid (fault : Option (List UInt8 × SystemError)) (bytes : List UInt8) :
    ∃ filled written, Fills (fillAmid fault bytes) filled written := by
  cases fault with
  | none => exact ⟨_, _, fills_writeBytes bytes⟩
  | some fault =>
      obtain ⟨part, e⟩ := fault
      refine ⟨.error e, part, fun w temporary spot hFree => ?_⟩
      exact on_bind_ok (writeBytes_created hFree part) _

/-- If a file is not written, directories have been made above it and
nothing else has changed. -/
theorem writeReplacingAmid_undone (hRun : (writeReplacingAmid fault file bytes).on w = (.error f, w')) :
    Undone file w w' := by
  have hAbove := Path.above_child (w.here.join file.parent) file.name
  have hMade := paves_makeDirectoriesFrom file.parent.parts.length hAbove w rfl
  -- the directories may be there, and nothing that comes after them stays
  suffices hSame : ((makeDirectories file.parent).on w).2 = w' by
    rw [← hSame]
    exact undone_of_paved hMade.1 hMade.2
  obtain ⟨filled, written, hFill⟩ := fills_fillAmid fault bytes
  have hEnds := replaceWith_replacing hFill file w
  rw [show (replaceWith (fillAmid fault bytes) file).on w = (.error f, w') from hRun] at hEnds
  cases hEnds with
  | unmade hMake => rw [hMake]
  | unmoved hMake => rw [hMake]

/-- A save that fails leaves nothing, wherever it fails: neither the
temporary file nor a part of it, nor any change of the file itself. -/
theorem saveAmid_undone (hRun : (c.saveAmid fault).on w = (.error f, w')) : Undone c.file w w' := by
  obtain ⟨time, v, hNow⟩ : ∃ time v, now.on w = (.ok time, v) := ⟨_, _, rfl⟩
  have hLooked := looks_now.run hNow
  have hUndone : Undone c.file v w' := by
    rw [saveAmid, on_bind_ok hNow] at hRun
    dsimp only at hRun
    split at hRun
    · obtain rfl : v = w' := (Prod.mk.inj hRun).2
      exact undone_of_paved rfl (.refl _ _)
    · rcases of_on_bind_error hRun with hWrite | ⟨_, v', -, hRest⟩
      · exact writeReplacingAmid_undone hWrite
      · cases hRest
  exact hUndone.looked hLooked (.refl w')

/-- The cache that could not be saved is as it was before, and so is its
file. -/
theorem save_stopped {s : State} (hStopped : (Operation.save.step s).1 = .stopped) :
    (Operation.save.step s).2.cache = s.cache ∧ Undone s.cache.file s.world (Operation.save.step s).2.world := by
  rcases hSave : s.cache.save.on s.world with ⟨f | c, w⟩
  · have hStep : Operation.save.step s = (.stopped, ⟨s.cache, w⟩) := by
      rw [Operation.step, Operation.perform, on_bind_error hSave]
      rfl
    rw [hStep]
    rw [save_eq_saveAmid] at hSave
    exact ⟨rfl, saveAmid_undone hSave⟩
  · have hStep : Operation.save.step s = (.done, ⟨c, w⟩) := by
      rw [Operation.step, Operation.perform, on_bind_ok hSave]
      rfl
    rw [hStep] at hStopped
    cases hStopped

end Cache

end SourceAtlas
