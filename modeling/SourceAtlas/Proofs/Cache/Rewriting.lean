import SourceAtlas.Proofs.Cache.RoundTrip
import SourceAtlas.Proofs.Disk.Children

/-!
Writing a file again. Once a file stands at the end of its path, replacing it does not fail: its
directory is there, the name beside it that was free is free again, and nothing on the disk changes
but the bytes at its place.
-/
namespace SourceAtlas

open Scan SourceAtlas.Action

/-- Putting a value never makes a map shorter. -/
theorem Assoc.length_le_put {α β : Type} [DecidableEq α] (key : α) (value : β) (m : Assoc α β) :
    m.length ≤ (put key value m).length := by
  induction m with
  | nil => simp
  | cons p rest ih =>
      obtain ⟨k, v⟩ := p
      by_cases hKey : k = key <;> simp [put, hKey, ih]

/-- The second world differs from the first in its disk at most. -/
def World.Rebuilt (w v : World) : Prop := v = { w with disk := v.disk }

theorem World.Rebuilt.refl (w : World) : Rebuilt w w := rfl

instance : IsTrans World World.Rebuilt where
  trans w v u hFirst hSecond := by
    rw [World.Rebuilt, hSecond, hFirst]

namespace Action

theorem rebuilt_ask (question : Disk → Path → Except Errno Bool) (p : Path) :
    Moves World.Rebuilt (ask question p) := by
  intro w
  rw [ask_on]
  split <;> exact .refl w

theorem rebuilt_makeDirectory (p : Path) : Moves World.Rebuilt (makeDirectory p) := by
  intro w
  rw [makeDirectory_on]
  split
  · rfl
  · exact .refl w
  · next r _ =>
    obtain ⟨e, hRefuse⟩ := refuseBy_on r p w (α := Unit)
    rw [hRefuse]
    exact .refl w

theorem rebuilt_ensureDirectory (p : Path) : Moves World.Rebuilt (ensureDirectory p) := by
  apply (rebuilt_makeDirectory p).attempt.bind
  intro made
  split
  · exact .refl
  · apply (rebuilt_ask _ _).bind
    intro there
    split
    · exact .refl
    · exact .refl

/-- Making directories changes the disk at most: it says nothing
and opens nothing. -/
theorem rebuilt_makeDirectories (p : Path) : Moves World.Rebuilt (makeDirectories p) := by
  have hFrom (fuel : Nat) : ∀ p, Moves World.Rebuilt (makeDirectoriesFrom fuel p) := by
    induction fuel with
    | zero => exact rebuilt_ensureDirectory
    | succ fuel ih =>
        intro p
        apply (rebuilt_ensureDirectory p).attempt.bind
        intro made
        split
        · exact .refl
        · split
          · exact (ih p.parent).bind fun _ => rebuilt_ensureDirectory p
          · exact .refl
  exact hFrom _ p

/-- An attempt that came through did what it attempted. -/
theorem of_on_attempt {α : Type} {a : Action α} {x : α} {w w' : World}
    (hAttempt : (attempt a).on w = (.ok (.ok x), w')) : a.on w = (.ok x, w') := by
  rw [on_attempt] at hAttempt
  split at hAttempt
  · next hRun =>
    obtain ⟨hSame, rfl⟩ := Prod.mk.inj hAttempt
    obtain rfl := Except.ok.inj (Except.ok.inj hSame)
    exact hRun
  · cases (Prod.mk.inj hAttempt).1
  · cases (Prod.mk.inj hAttempt).1

/-- Making a directory that is there already changes nothing. -/
theorem ensureDirectory_there {p : Path} {w : World} {place : Place}
    (hDirectory : w.disk.locate true (w.here.join p) = .ok (.found place .directory)) :
    (ensureDirectory p).on w = (.ok (), w) := by
  obtain ⟨place', item, hLocate, -⟩ := Disk.locate_unfollowed hDirectory
  have hExists : (makeDirectory p).on w = (.error (.system ⟨.exists, p.text, none⟩), w) := by
    rw [makeDirectory_on, hLocate]
  have hAttempt : (attempt (makeDirectory p)).on w = (.ok (.error ⟨.exists, p.text, none⟩), w) := by
    rw [on_attempt, hExists]
  have hAsk : (isDirectory p).on w = (.ok true, w) := by
    rw [isDirectory, ask_on, Disk.isDirectory, Disk.test_of_locate hDirectory]
  rw [ensureDirectory, on_bind_ok hAttempt]
  dsimp only
  rw [on_bind_ok hAsk]
  rfl

/-- Making directories that are there changes nothing. -/
theorem makeDirectories_there {p : Path} {w : World} {place : Place}
    (hDirectory : w.disk.locate true (w.here.join p) = .ok (.found place .directory)) :
    (makeDirectories p).on w = (.ok (), w) := by
  have hEnsure := ensureDirectory_there hDirectory
  rw [makeDirectories]
  cases p.parts.length with
  | zero => exact hEnsure
  | succ fuel =>
      have hAttempt : (attempt (ensureDirectory p)).on w = (.ok (.ok ()), w) := by
        rw [on_attempt, hEnsure]
      rw [makeDirectoriesFrom, on_bind_ok hAttempt]
      rfl

end Action

namespace Cache

variable {d d' : Disk} {folder : Path} {name : Text} {directory place : Place} {bytes : List UInt8}
  {w w' : World} {time : Int} {extra : Nat}

@[simp]
theorem child_parent (folder : Path) (name : Text) : (child folder name).parent = folder := by
  simp [child, Path.parent]

@[simp]
theorem child_name (folder : Path) (name : Text) : (child folder name).name = name := by
  simp [child, Path.name]

theorem join_child (hAbsolute : folder.isAbsolute = true) (name : Text) (here : Standpoint) :
    here.join (child folder name) = child folder name :=
  Path.join_of_absolute (q := child folder name) hAbsolute here

theorem temporaryName_ne_up (name : Text) (extra : Nat) : temporaryName name extra ≠ ".." := by
  intro hUp
  have hChars := congrArg (fun s => s.toList.length) hUp
  simp [temporaryName_toList] at hChars
  omega

/-- The name of a temporary file is never the name that it is for. -/
theorem temporaryName_ne (name : Text) (extra : Nat) : temporaryName name extra ≠ name := by
  intro hSame
  have hChars := congrArg (fun s => s.toList.length) hSame
  simp [temporaryName_toList] at hChars
  omega

def isFree (d : Disk) (folder : Path) (name : Text) : Bool :=
  match d.locate false (child folder name) with
  | .ok (.found _ _) => false
  | _ => true

/-- A name is taken exactly if its path leads to something, a link included. -/
theorem isFree_eq_false_iff : isFree d folder name = false ↔
    ∃ place item, d.locate false (child folder name) = .ok (.found place item) := by
  rw [isFree]
  rcases d.locate false (child folder name) with r | (⟨place, item⟩ | place) <;> simp

/-- The first name beside a file under which there is nothing. -/
structure FirstFree (d : Disk) (folder : Path) (name : Text) (directory : Place) (extra : Nat) : Prop where
  bound : extra ≤ d.entries.length
  free : d.locate false (child folder (temporaryName name extra)) =
    .ok (.absent (directory ++ [temporaryName name extra]))
  before : ∀ k < extra, isFree d folder (temporaryName name k) = false

/-- A file can be replaced: its directory is there, no directory stands in
its place, and there is a free name beside it. -/
structure Replaceable (d : Disk) (folder : Path) (name : Text) (directory : Place) : Prop where
  parent : d.locate true folder = .ok (.found directory .directory)
  target : d.locate false (child folder name) = .ok (d.arrivalAt (directory ++ [name]))
  noDirectory : d.find? (directory ++ [name]) ≠ some .directory
  temporary : ∃ extra, FirstFree d folder name directory extra

/-- The path of a file that can be replaced leads to it. -/
theorem Replaceable.locate (hReplaceable : Replaceable d folder name directory)
    (hFile : d.find? (directory ++ [name]) = some (.file bytes time)) :
    d.locate true (child folder name) = .ok (.found (directory ++ [name]) (.file bytes time)) := by
  have hTarget := hReplaceable.target
  rw [Disk.arrivalAt_found hFile] at hTarget
  exact Disk.locate_followed hTarget (by simp)

/-- The names that are tried are taken in order. -/
theorem temporaryPath_eq (hAbsolute : folder.isAbsolute = true) (name : Text) (w : World) :
    (temporaryPath (child folder name)).on w = (.ok (child folder (temporaryName name
      (((List.range (w.disk.entries.length + 1)).find? fun k =>
        isFree w.disk folder (temporaryName name k)).getD 0))), w) := by
  have hSame : (temporaryPath (child folder name)).on w =
      (.ok (child folder ((((List.range (w.disk.entries.length + 1)).map (temporaryName name)).find?
        (isFree w.disk folder)).getD (temporaryName name 0))), w) := by
    have hFolder : w.here.join folder = folder := Path.join_of_absolute hAbsolute _
    have hUnfolded : (temporaryPath (child folder name)).on w =
        (.ok (child (child folder name).parent ((((List.range (w.disk.entries.length + 1)).map
          (temporaryName (child folder name).name)).find?
            (isFree w.disk (w.here.join (child folder name).parent))).getD
              (temporaryName (child folder name).name 0))), w) := rfl
    rw [hUnfolded, child_parent, child_name, hFolder]
  rw [hSame, List.find?_map, Option.getD_map]
  rfl

/-- The name that is taken for the time of writing is the first free one,
the names being tried from the shortest on. -/
theorem temporaryPath_first (hAbsolute : folder.isAbsolute = true)
    (hFirst : FirstFree w.disk folder name directory extra) :
    (temporaryPath (child folder name)).on w = (.ok (child folder (temporaryName name extra)), w) := by
  have hFind : (List.range (w.disk.entries.length + 1)).find?
      (fun k => isFree w.disk folder (temporaryName name k)) = some extra := by
    rw [List.find?_range_eq_some]
    refine ⟨by rw [isFree, hFirst.free], List.mem_range.mpr (Nat.lt_succ_of_le hFirst.bound), ?_⟩
    intro k hk
    rw [hFirst.before k hk]
    rfl
  rw [temporaryPath_eq hAbsolute, hFind]
  rfl

/-- A file that can be replaced is replaced, and nothing else changes: the
temporary file is gone when all is done. -/
theorem writeReplacing_on (hAbsolute : folder.isAbsolute = true) (hName : name ≠ "..")
    (hReplaceable : Replaceable w.disk folder name directory) (bytes : List UInt8) :
    (writeReplacing (child folder name) bytes).on w =
      (.ok (), { w with disk := w.disk.put (directory ++ [name]) (.file bytes writtenTime) }) := by
  obtain ⟨extra, hFirst⟩ := hReplaceable.temporary
  have hMake : (makeDirectories (child folder name).parent).on w = (.ok (), w) := by
    rw [child_parent]
    exact makeDirectories_there (by rw [Path.join_of_absolute hAbsolute]; exact hReplaceable.parent)
  have hCreate := createFile_on (child folder (temporaryName name extra)) w
  rw [join_child hAbsolute, hFirst.free] at hCreate
  -- beside the file stands the new one now, and everything else is where it was
  have hFree := hFirst.free
  obtain ⟨hNone, hSpot⟩ := Disk.free_of_locate hFree
  have hOther : directory ++ [name] ≠ directory ++ [temporaryName name extra] := by
    simpa using (temporaryName_ne name extra).symm
  generalize directory ++ [temporaryName name extra] = spot at *
  have hExtends := Disk.extends_put hNone (.file bytes writtenTime)
  have hTarget := Disk.locate_child (hExtends.locate hReplaceable.parent) hName hReplaceable.target
  have hNoDirectory : ∀ q, (w.disk.put spot (.file bytes writtenTime)).arrivalAt (directory ++ [name]) ≠
      .found q .directory := by
    intro q hDirectory
    have hFind := Disk.find?_of_locate (hTarget.trans (congrArg _ hDirectory))
    have hPlace := congrArg Disk.Arrival.place hDirectory
    rw [Disk.arrivalAt_place] at hPlace
    subst hPlace
    rw [Disk.find?_put_of_ne hOther] at hFind
    exact hReplaceable.noDirectory hFind
  rw [← join_child hAbsolute _ w.here] at hFree hTarget
  have hMoved := fillAndMove_moved (fills_writeBytes bytes) hFree hTarget hNoDirectory
  rw [Disk.arrivalAt_place] at hMoved
  rw [writeReplacing, replaceWith, on_bind_ok hMake, on_bind_ok (temporaryPath_first hAbsolute hFirst), on_bind_ok hCreate,
    hMoved]

/-- A name that was taken and is free is the first free one. -/
theorem firstFree_of_taken (hAbsolute : folder.isAbsolute = true) {temporary : Path} {spot : Place}
    (hTaken : (temporaryPath (child folder name)).on w = (.ok temporary, w'))
    (hFree : w.disk.locate false temporary = .ok (.absent spot)) :
    ∃ directory extra, temporary = child folder (temporaryName name extra) ∧
      spot = directory ++ [temporaryName name extra] ∧ FirstFree w.disk folder name directory extra := by
  rw [temporaryPath_eq hAbsolute] at hTaken
  obtain rfl := Except.ok.inj (Prod.mk.inj hTaken).1
  obtain ⟨directory, hSpot, -⟩ := Disk.locate_parent hFree (temporaryName_ne_up _ _)
  obtain rfl : spot = _ := hSpot
  refine ⟨directory, _, rfl, rfl, ?_⟩
  rcases hFind : (List.range (w.disk.entries.length + 1)).find?
    (fun k => isFree w.disk folder (temporaryName name k)) with _ | extra
  · -- the name that is tried at last is free after all
    rw [hFind, Option.getD_none] at hFree
    have hTried := List.find?_eq_none.mp hFind 0 (by simp)
    rw [isFree, hFree] at hTried
    exact absurd rfl hTried
  · rw [hFind] at hFree
    obtain ⟨-, hBound, hBefore⟩ := List.find?_range_eq_some.mp hFind
    exact ⟨Nat.le_of_lt_succ (List.mem_range.mp hBound), hFree, fun k hk => by simpa using hBefore k hk⟩

/-- Writing the file leaves the first free name beside it. -/
theorem FirstFree.put (hFirst : FirstFree d folder name directory extra)
    (hParent : d.locate true folder = .ok (.found directory .directory)) {item : Item}
    (hParent' : (d.put (directory ++ [name]) item).locate true folder = .ok (.found directory .directory)) :
    FirstFree (d.put (directory ++ [name]) item) folder name directory extra := by
  have hSame (k : Nat) : (d.put (directory ++ [name]) item).find? (directory ++ [temporaryName name k]) =
      d.find? (directory ++ [temporaryName name k]) := by
    apply Disk.find?_put_of_ne
    simpa using temporaryName_ne name k
  refine ⟨hFirst.bound.trans (Assoc.length_le_put ..), ?_, ?_⟩
  · rw [Disk.locate_child hParent' (temporaryName_ne_up _ _) hFirst.free, Disk.arrivalAt_absent]
    rw [hSame]
    exact (Disk.free_of_locate hFirst.free).1
  · intro k hk
    obtain ⟨place, item, hLocate⟩ := isFree_eq_false_iff.mp (hFirst.before k hk)
    have hChild := Disk.locate_child hParent (temporaryName_ne_up _ _) hLocate
    have hChild' := Disk.locate_child hParent' (temporaryName_ne_up _ _) hLocate
    rw [Disk.arrivalAt, hSame, ← Disk.arrivalAt, ← hChild, hLocate] at hChild'
    exact isFree_eq_false_iff.mpr ⟨place, item, hChild'⟩

/-- A file that can be replaced can be replaced again, whatever was written.
So one analysis after another can save its cache. -/
theorem Replaceable.put (hReplaceable : Replaceable d folder name directory)
    (hFile : d.find? (directory ++ [name]) = some (.file bytes time)) (hName : name ≠ "..")
    (bytes' : List UInt8) (time' : Int) :
    Replaceable (d.put (directory ++ [name]) (.file bytes' time')) folder name directory := by
  have hAgrees : Disk.Agrees d (d.put (directory ++ [name]) (.file bytes' time')) := by
    intro place item hFind hNoFile
    have hOther : place ≠ directory ++ [name] := by
      rintro rfl
      rw [hFile] at hFind
      exact hNoFile _ _ (Option.some.inj hFind).symm
    rw [Disk.find?_put_of_ne hOther, hFind]
  have hThere : (d.put (directory ++ [name]) (.file bytes' time')).find? (directory ++ [name]) =
      some (.file bytes' time') := Disk.find?_put_self (by simp) d _
  have hParent := Disk.locate_of_agrees hReplaceable.parent hAgrees
    (hAgrees _ _ (Disk.find?_of_locate hReplaceable.parent) (by simp))
  obtain ⟨extra, hFirst⟩ := hReplaceable.temporary
  exact {
    parent := hParent
    target := Disk.locate_child hParent hName hReplaceable.target
    noDirectory := by simp [hThere]
    temporary := ⟨extra, hFirst.put hReplaceable.parent hParent⟩ }

/-- Replacing a file, step by step: directories were made, a free name was
taken, and the file was moved to the end of its path. -/
theorem writeReplacing_steps (hAbsolute : folder.isAbsolute = true) (hNamed : folder.Named)
    (hWrite : (writeReplacing (child folder name) bytes).on w = (.ok (), w')) :
    ∃ d directory extra arrival, w.disk.Grows d ∧ FirstFree d folder name directory extra ∧
      (d.put (directory ++ [temporaryName name extra]) (.file bytes writtenTime)).locate false
        (child folder name) = .ok arrival ∧
      (∀ q, arrival ≠ .found q .directory) ∧
      w' = { w with disk := d.put arrival.place (.file bytes writtenTime) } := by
  obtain ⟨made, w₁, hMake, -⟩ := of_on_bind hWrite
  obtain ⟨temporary, spot, arrival, hTaken, hLocate, hArrival, hNoDirectory, rfl⟩ :=
    writeReplacing_on_ok hMake hWrite
  rw [child_parent] at hMake
  have hRebuilt : w₁ = { w with disk := w₁.disk } := by
    simpa [World.Rebuilt, hMake] using rebuilt_makeDirectories folder w
  have hGrown : Grown w w₁ := by
    simpa [hMake] using grown_makeDirectories hAbsolute hNamed w
  have hTemporary : temporary.isAbsolute = true := by
    rw [temporaryPath_eq hAbsolute] at hTaken
    rw [← Except.ok.inj (Prod.mk.inj hTaken).1]
    exact hAbsolute
  rw [Path.join_of_absolute hTemporary] at hLocate
  rw [join_child hAbsolute] at hArrival
  obtain ⟨directory, extra, rfl, rfl, hFirst⟩ := firstFree_of_taken hAbsolute hTaken hLocate
  exact ⟨w₁.disk, directory, extra, arrival, hGrown.disk, hFirst, hArrival, hNoDirectory, by rw [hRebuilt]⟩

/-- Where a file was replaced and its path leads somewhere, only directories
were made besides, and it can be replaced again. -/
theorem replaceable_of_written (hAbsolute : folder.isAbsolute = true) (hNamed : folder.Named) (hName : name ≠ "..")
    (hWrite : (writeReplacing (child folder name) bytes).on w = (.ok (), w'))
    {item : Item} (hFound : w'.disk.locate false (child folder name) = .ok (.found place item)) :
    ∃ d directory, w.disk.Grows d ∧ w' = { w with disk := d.put place (.file bytes writtenTime) } ∧
      place = directory ++ [name] ∧ d.find? place ≠ some .directory ∧ Replaceable w'.disk folder name directory := by
  obtain ⟨d, directory, extra, arrival, hGrows, hFirst, hArrival, hNoDirectory, rfl⟩ :=
    writeReplacing_steps hAbsolute hNamed hWrite
  obtain ⟨_, hSpot, hParent⟩ := Disk.locate_parent hFirst.free (temporaryName_ne_up _ _)
  obtain ⟨rfl, -⟩ := List.append_inj' hSpot rfl
  have hNone := (Disk.free_of_locate hFirst.free).1
  -- the file was moved to its name in the same directory
  obtain ⟨_, hPlace, hBeside⟩ := Disk.locate_parent hArrival hName
  rw [(Disk.extends_put hNone _).locate hParent] at hBeside
  obtain ⟨rfl, -⟩ := Disk.Arrival.found.inj (Except.ok.inj hBeside)
  rw [hPlace] at hFound ⊢
  dsimp only at hFound ⊢
  -- and its path leads there still
  obtain ⟨above, hPlace', hAbove⟩ := Disk.locate_parent hFound hName
  have hAgrees : Disk.Agrees (d.put (directory ++ [name]) (.file bytes writtenTime)) d :=
    Disk.agrees_of_put (by simp)
  have hBack := Disk.locate_of_agrees hAbove hAgrees
    (hAgrees _ _ (Disk.find?_of_locate hAbove) (by simp))
  rw [hParent] at hBack
  obtain ⟨rfl, -⟩ := Disk.Arrival.found.inj (Except.ok.inj hBack)
  obtain rfl : place = directory ++ [name] := hPlace'
  have hThere : (d.put (directory ++ [name]) (.file bytes writtenTime)).find? (directory ++ [name]) =
      some (.file bytes writtenTime) := Disk.find?_put_self (by simp) d _
  refine ⟨d, directory, hGrows, rfl, rfl, ?_, hAbove, ?_, by simp [hThere], extra, hFirst.put hParent hAbove⟩
  · intro hFind
    have hOther : directory ++ [name] ≠ directory ++ [temporaryName name extra] := by
      simpa using (temporaryName_ne name extra).symm
    rw [← Disk.find?_put_of_ne hOther d (.file bytes writtenTime), ← hPlace] at hFind
    rcases arrival with ⟨q, item⟩ | q
    · obtain rfl := Option.some.inj ((Disk.find?_of_locate hArrival).symm.trans hFind)
      exact hNoDirectory q rfl
    · cases (Disk.free_of_locate hArrival).1.symm.trans hFind
  · rw [hFound, Disk.arrivalAt_found (Disk.find?_of_locate hFound)]

/-- A cache whose file can be replaced and whose document can be
written is saved. -/
theorem save_on {c : Cache} (hFile : c.file = child folder name) (hAbsolute : folder.isAbsolute = true)
    (hName : name ≠ "..") (hReplaceable : Replaceable w.disk folder name directory)
    (hDocument : ∀ time : Text, time.isString = true → ∃ text, Json.document (c.toDocument time).toDatum = .ok text) :
    ∃ time text c' w', c.save.on w = (.ok c', w') ∧ Json.document (c.toDocument time).toDatum = .ok text ∧
      w'.here = w.here ∧ w'.locks = w.locks ∧
      w'.disk = w.disk.put (directory ++ [name]) (.file (Text.Utf8.encodeChars text) writtenTime) := by
  obtain ⟨time, u, hTime, hString⟩ : ∃ time u, now.on w = (.ok time, u) ∧ time.isString = true :=
    ⟨_, _, rfl, Text.isString_ofString _⟩
  have hClock : u.disk = w.disk ∧ u.here = w.here ∧ u.locks = w.locks := by
    obtain ⟨-, rfl⟩ := Prod.mk.inj hTime
    exact ⟨rfl, rfl, rfl⟩
  obtain ⟨text, hText⟩ := hDocument time hString
  rw [← hClock.1] at hReplaceable
  have hWrite := writeReplacing_on hAbsolute hName hReplaceable (Text.Utf8.encodeChars text)
  rw [← hFile] at hWrite
  have hSave : c.save.on w = (.ok { c with createdAt := some (c.toDocument time).createdAt }, ((log .info .caching
      ("Saved " ++ Number.Style.natText c.entries.length ++ " cache entries to " ++ c.file.text)).on
        { u with disk := u.disk.put (directory ++ [name]) (.file (Text.Utf8.encodeChars text) writtenTime) }).2) := by
    rw [save, on_bind_ok hTime]
    simp only [hText]
    rw [on_bind_ok hWrite]
    rfl
  refine ⟨time, text, _, _, hSave, hText, hClock.2.1, hClock.2.2, ?_⟩
  rw [← hClock.1]
  rfl

end Cache

end SourceAtlas
