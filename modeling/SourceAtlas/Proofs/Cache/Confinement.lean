import SourceAtlas.Proofs.Cache.Rewriting

/-!
How far writing a file reaches. Directories are made above the file and nowhere else, the entry
that its path names is replaced and not what a link there leads to, and of the file beside it
nothing stays, whether it can be moved or not.
-/
namespace SourceAtlas

open Scan SourceAtlas.Action

/-- A path goes through another one and on. -/
def Path.Above (a p : Path) : Prop := a.anchor = p.anchor ∧ ∃ n rest, p.parts = a.parts ++ n :: rest

theorem Path.above_child (folder : Path) (name : Text) : folder.Above (child folder name) :=
  ⟨rfl, name, [], rfl⟩

/-- What goes on above a path goes on above it from the parent. -/
theorem Path.Above.parent {a p : Path} (hAbove : a.Above p) : a.parent.Above p := by
  obtain ⟨hAnchor, n, rest, hParts⟩ := hAbove
  refine ⟨hAnchor, ?_⟩
  rcases List.eq_nil_or_concat a.parts with hNil | ⟨front, last, hLast⟩
  · exact ⟨n, rest, by simpa [Path.parent, hNil] using hParts⟩
  · rw [List.concat_eq_append] at hLast
    exact ⟨last, n :: rest, by simpa [Path.parent, hLast] using hParts⟩

/-- What lies above a path from the working directory still
does one name up. -/
theorem Path.Above.join_parent {here : Standpoint} {p file : Path} (hAbove : (here.join p).Above file) :
    (here.join p.parent).Above file := by
  have hAnchor : p.parent.isAbsolute = p.isAbsolute := rfl
  rw [join] at hAbove ⊢
  rw [hAnchor]
  split at hAbove
  · next hAbsolute =>
    rw [if_pos hAbsolute]
    exact hAbove.parent
  · next hRelative =>
    rw [if_neg hRelative]
    rcases List.eq_nil_or_concat p.parts with hNil | ⟨front, last, hLast⟩
    · simpa [Path.parent, hNil] using hAbove
    · obtain ⟨hSame, n, rest, hParts⟩ := hAbove
      exact ⟨hSame, last, n :: rest, by simpa [Path.parent, hLast] using hParts⟩

namespace Disk

variable {file : Path} {d d' d'' : Disk}

/-- The second disk is the first one with new directories. Each was a free
place, and a path above the file leads to it. -/
def Paved (file : Path) (d d' : Disk) : Prop := ∀ p, d'.find? p = d.find? p ∨
  d.find? p = none ∧ ∃ a : Path, a.Above file ∧ d'.locate false a = .ok (.found p .directory)

theorem Paved.refl (file : Path) (d : Disk) : Paved file d d := fun _ => .inl rfl

/-- New directories leave all entries that there were. -/
theorem Paved.extends (hPaved : Paved file d d') : Extends d d' := by
  intro p item hFind
  rcases hPaved p with hSame | ⟨hFree, -⟩
  · rw [hSame, hFind]
  · rw [hFree] at hFind
    cases hFind

/-- At any place there is what there was, or a directory where
there was nothing. -/
theorem Paved.find? (hPaved : Paved file d d') (p : Place) :
    d'.find? p = d.find? p ∨ d.find? p = none ∧ d'.find? p = some .directory := by
  refine (hPaved p).imp_right (And.imp_right ?_)
  rintro ⟨a, -, hLocate⟩
  exact find?_of_locate hLocate

/-- Directories made on disks one after the other are new on the last one. -/
theorem Paved.trans (hFirst : Paved file d d') (hSecond : Paved file d' d'') : Paved file d d'' := by
  intro p
  rcases hFirst p with hSame | ⟨hFree, a, hAbove, hLocate⟩
  · rw [← hSame]
    exact hSecond p
  · exact .inr ⟨hFree, a, hAbove, hSecond.extends.locate hLocate⟩

instance (file : Path) : IsTrans Disk (Paved file) := ⟨fun _ _ _ => Paved.trans⟩

/-- A directory made where a path above the file led to nothing
is one on its way. -/
theorem paved_put {a : Path} {place : Place} (hAbove : a.Above file)
    (hLocate : d.locate false a = .ok (.absent place)) : Paved file d (d.put place .directory) := by
  intro p
  by_cases hSame : p = place
  · subst hSame
    exact .inr ⟨(free_of_locate hLocate).1, a, hAbove, locate_put hLocate _⟩
  · exact .inl (find?_put_of_ne hSame d _)

/-- All that writing a file may do to a disk: it makes directories above the
file, and then it may replace the entry that the path names. A link there is
not followed. -/
inductive Confined (file : Path) (d d' : Disk) : Prop where
  | paved (hPaved : Paved file d d')
  | replaced {between : Disk} {arrival : Arrival} {bytes : List UInt8} (hPaved : Paved file d between)
      (hLocate : between.locate false file = .ok arrival)
      (hNoDirectory : ∀ place, arrival ≠ .found place .directory)
      (hDisk : d' = between.put arrival.place (.file bytes writtenTime))

theorem Confined.refl (file : Path) (d : Disk) : Confined file d d := .paved (.refl file d)

/-- What stands at a place now stood there before, or is a new directory
above the file, or is the file itself. -/
theorem Confined.find? (hConfined : Confined file d d') (p : Place) :
    d'.find? p = d.find? p ∨
    d.find? p = none ∧ d'.find? p = some .directory ∨
    (∃ bytes, d'.find? p = some (.file bytes writtenTime)) ∧ d.find? p ≠ some .directory := by
  cases hConfined with
  | paved hPaved => exact (hPaved.find? p).imp_right .inl
  | @replaced between arrival bytes hPaved hLocate hNoDirectory hDisk =>
      subst hDisk
      by_cases hPlace : p = arrival.place
      · subst hPlace
        refine .inr (.inr ⟨⟨bytes, find?_put_self (place_ne_nil hLocate hNoDirectory) _ _⟩, fun hDirectory => ?_⟩)
        exact no_directory_of_locate hLocate hNoDirectory (hPaved.extends _ _ hDirectory)
      · rw [find?_put_of_ne hPlace]
        exact (hPaved.find? p).imp_right .inl

/-- All that removing a file may do to a disk: it takes away the entry that
the path names, which is no directory. A link there is not followed. -/
inductive Cleared (file : Path) (d d' : Disk) : Prop where
  | kept (hDisk : d' = d)
  | removed {place : Place} {item : Item} (hEntry : d.entry false file = .ok (place, item))
      (hItem : item ≠ .directory) (hDisk : d' = d.erase place)

end Disk

/-- A relation between the disks of two worlds. -/
def World.OnDisk (R : Disk → Disk → Prop) (w w' : World) : Prop := R w.disk w'.disk

instance (R : Disk → Disk → Prop) [IsTrans Disk R] : IsTrans World (World.OnDisk R) :=
  ⟨fun _ _ _ hFirst hSecond => IsTrans.trans (r := R) _ _ _ hFirst hSecond⟩

/-- With this working directory, directories are made above the file and
nothing else changes. -/
def World.Paves (here : Standpoint) (file : Path) (w w' : World) : Prop :=
  w.here = here → w'.here = here ∧ w.disk.Paved file w'.disk

instance (here : Standpoint) (file : Path) : IsTrans World (World.Paves here file) where
  trans _ _ _ hFirst hSecond hHere := by
    obtain ⟨hHere', hPaved⟩ := hFirst hHere
    obtain ⟨hHere'', hPaved'⟩ := hSecond hHere'
    exact ⟨hHere'', hPaved.trans hPaved'⟩

namespace Action

variable {α β : Type} {R : Disk → Disk → Prop} {a : Action α} {f : α → Action β}

theorem onDisk_of_looks (hRefl : ∀ d, R d d) (hLooks : Looks a) : Moves (World.OnDisk R) a :=
  hLooks.mono fun hLooked => by
    rw [World.OnDisk, hLooked.disk]
    exact hRefl _

/-- Looking first changes nothing about what happens to the disk. -/
theorem onDisk_after_looks (hRefl : ∀ d, R d d) (hLooks : Looks a)
    (hNext : ∀ x, Moves (World.OnDisk R) (f x)) : Moves (World.OnDisk R) (a >>= f) := by
  intro w
  have hLooked := hLooks w
  rw [on_bind]
  rcases hRun : a.on w with ⟨e | x, v⟩ <;> rw [hRun] at hLooked
  · exact onDisk_of_looks hRefl hLooks |>.run hRun
  · have hMoved := hNext x v
    rwa [World.OnDisk, hLooked.disk] at hMoved

/-- What only looks afterwards adds nothing to what was done to the disk. -/
theorem onDisk_then_looks (hFirst : Moves (World.OnDisk R) a) (hLooks : ∀ x, Looks (f x)) :
    Moves (World.OnDisk R) (a >>= f) := by
  intro w
  have hMoved := hFirst w
  rw [on_bind]
  rcases hRun : a.on w with ⟨e | x, v⟩ <;> rw [hRun] at hMoved
  · exact hMoved
  · rwa [World.OnDisk, (hLooks x v).disk]

variable {p file : Path} {here : Standpoint}

theorem paves_of_looks (hLooks : Looks a) : Moves (World.Paves here file) a :=
  hLooks.mono fun hLooked hHere => ⟨hLooked.here.trans hHere, by rw [hLooked.disk]; exact .refl file _⟩

/-- Making a directory above a file does no more than that, and when it
fails it does nothing. -/
theorem paves_makeDirectory (hAbove : (here.join p).Above file) : Moves (World.Paves here file) (makeDirectory p) := by
  rintro w rfl
  rw [makeDirectory_on]
  split
  · next place hLocate => exact ⟨rfl, Disk.paved_put hAbove hLocate⟩
  · exact ⟨rfl, .refl file _⟩
  · exact paves_of_looks (looks_refuseBy _ p) w rfl

/-- Making all directories above one that is above the file makes new ones
on the way to the file, wherever it stops. -/
theorem paves_ensureDirectory (hAbove : (here.join p).Above file) :
    Moves (World.Paves here file) (ensureDirectory p) := by
  refine (paves_makeDirectory hAbove).attempt.bind fun made => paves_of_looks ?_
  split
  · exact looks_pure _
  · refine (looks_ask _ _).bind fun _ => ?_
    split
    · exact looks_throw _
    · exact looks_pure _

/-- Directories are only made at ends of paths above the file, from the top
down to the directory of the file. -/
theorem paves_makeDirectoriesFrom (fuel : Nat) (hAbove : (here.join p).Above file) :
    Moves (World.Paves here file) (makeDirectoriesFrom fuel p) := by
  induction fuel generalizing p with
  | zero => exact paves_ensureDirectory hAbove
  | succ fuel ih =>
      have hEnsure := paves_ensureDirectory hAbove
      refine hEnsure.attempt.bind fun made => ?_
      split
      · exact paves_of_looks (looks_pure _)
      · split
        · exact (ih hAbove.join_parent).bind fun _ => hEnsure
        · exact paves_of_looks (looks_throw _)

/-- With a null character in its path no directory is made. -/
theorem makeDirectory_unclean (hAbsolute : p.isAbsolute = true) (hUnclean : ¬ p.Clean) (w : World) :
    (makeDirectory p).on w = (.error .nulInPath, w) := by
  have hNul : w.disk.locate false p = .error .nul := by
    rw [Disk.locate_eq_nul_iff]
    simpa [Path.Clean] using hUnclean
  rw [makeDirectory_on, Path.join_of_absolute hAbsolute, hNul]
  rfl

theorem ensureDirectory_unclean (hAbsolute : p.isAbsolute = true) (hUnclean : ¬ p.Clean) (w : World) :
    (ensureDirectory p).on w = (.error .nulInPath, w) := by
  have hAttempt : (attempt (makeDirectory p)).on w = (.error .nulInPath, w) := by
    rw [on_attempt, makeDirectory_unclean hAbsolute hUnclean]
  rw [ensureDirectory, on_bind_error hAttempt]

/-- Below a name that is none no directory is made, nor above it, since the
path is refused as a whole. -/
theorem makeDirectories_unclean (hAbsolute : p.isAbsolute = true) (hUnclean : ¬ p.Clean) (w : World) :
    (makeDirectories p).on w = (.error .nulInPath, w) := by
  have hEnsure := ensureDirectory_unclean hAbsolute hUnclean w
  rw [makeDirectories]
  cases p.parts.length with
  | zero => exact hEnsure
  | succ fuel =>
      have hAttempt : (attempt (ensureDirectory p)).on w = (.error .nulInPath, w) := by
        rw [on_attempt, hEnsure]
      rw [makeDirectoriesFrom, on_bind_error hAttempt]

end Action

namespace Cache

variable {folder : Path} {name : Text} {bytes : List UInt8} {w w' : World}

/-- On the disk with the file beside it, a path leads where it led before:
the temporary file has a name that nothing had. -/
theorem locate_beside {d : Disk} {extra : Nat} {spot : Place} {arrival : Disk.Arrival}
    (hName : name ≠ "..") (hFree : d.locate false (child folder (temporaryName name extra)) = .ok (.absent spot))
    (hLocate : (d.put spot (.file bytes writtenTime)).locate false (child folder name) = .ok arrival) :
    d.locate false (child folder name) = .ok arrival := by
  obtain ⟨directory, hSpot, hFolder⟩ := Disk.locate_parent hFree (temporaryName_ne_up _ _)
  obtain rfl : spot = directory ++ [temporaryName name extra] := hSpot
  have hExtends := Disk.extends_put (Disk.free_of_locate hFree).1 (.file bytes writtenTime)
  have hBefore := Disk.locate_child hFolder hName hLocate
  have hAfter := Disk.locate_child (hExtends.locate hFolder) hName hLocate
  have hOther : directory ++ [name] ≠ directory ++ [temporaryName name extra] := by
    simpa using (temporaryName_ne name extra).symm
  rw [hBefore, ← hLocate, hAfter, Disk.arrivalAt, Disk.arrivalAt, Disk.find?_put_of_ne hOther]

/-- Writing a file makes directories above it and replaces the entry its
path names, and does nothing else to the disk, whatever the answer is. -/
theorem writeReplacing_confined (hAbsolute : folder.isAbsolute = true) (hName : name ≠ "..")
    (bytes : List UInt8) : Moves (World.OnDisk (Disk.Confined (child folder name)))
      (writeReplacing (child folder name) bytes) := by
  intro w
  have hAbove : (w.here.join folder).Above (child folder name) := by
    rw [Path.join_of_absolute hAbsolute]
    exact Path.above_child folder name
  have hMade := (paves_makeDirectoriesFrom folder.parts.length hAbove w rfl).2
  have hEnds := writeReplacing_replacing (child folder name) bytes w
  rw [World.OnDisk]
  generalize (writeReplacing (child folder name) bytes).on w = last at hEnds ⊢
  cases hEnds with
  | unmade hMake =>
      rw [child_parent, makeDirectories] at hMake
      rw [hMake] at hMade
      exact .paved hMade
  | unmoved hMake =>
      rw [child_parent, makeDirectories] at hMake
      rw [hMake] at hMade
      exact .paved hMade
  | @moved w₁ temporary spot arrival hMake hTemporary hFree hTarget hNoDirectory =>
      rw [child_parent, makeDirectories] at hMake
      rw [hMake] at hMade
      rw [temporaryPath_eq hAbsolute] at hTemporary
      obtain rfl := Except.ok.inj (Prod.mk.inj hTemporary).1
      rw [join_child hAbsolute] at hFree hTarget
      exact .replaced hMade (locate_beside hName hFree hTarget) hNoDirectory rfl

/-- Where writing a file stops for anything but a refusal of the system,
nothing was written. -/
theorem writeReplacing_stops {f : Failure} (hAbsolute : folder.isAbsolute = true)
    (hLast : Sign.char (Char.ofNat 0) ∉ name.toList)
    (hRun : (writeReplacing (child folder name) bytes).on w = (.error f, w')) :
    f.IsRefusal ∨ w'.disk = w.disk := by
  by_cases hClean : folder.Clean
  · have hFile : (child folder name).Clean := by
      intro n hn
      rcases List.mem_append.mp hn with hn | hn
      · exact hClean n hn
      · exact List.mem_singleton.mp hn ▸ hLast
    have hRooted : (child folder name).isAbsolute = true := hAbsolute
    exact .inl (stopsBy_writeReplacing hRooted hFile bytes w f w' hRun)
  · have hMake := makeDirectories_unclean hAbsolute hClean w
    rw [writeReplacing, replaceWith, child_parent, on_bind_error hMake] at hRun
    exact .inr (by rw [← (Prod.mk.inj hRun).2])

variable {c : Cache}

/-- Saving a cache does no more to the disk than writing the one file,
wherever it stops. -/
theorem save_confined (hFile : c.file = child folder name) (hAbsolute : folder.isAbsolute = true)
    (hName : name ≠ "..") : Moves (World.OnDisk (Disk.Confined c.file)) c.save := by
  refine onDisk_after_looks (.refl c.file) looks_now fun time => ?_
  dsimp only
  split
  · exact onDisk_of_looks (.refl c.file) (looks_throw _)
  · rw [hFile]
    refine onDisk_then_looks (writeReplacing_confined hAbsolute hName _) fun _ => ?_
    exact (looks_log _ _ _).bind fun _ => looks_pure _

/-- Where saving stops for anything but a refusal of the system,
nothing was written. -/
theorem save_stops {f : Failure} (hFile : c.file = child folder name)
    (hAbsolute : folder.isAbsolute = true) (hLast : Sign.char (Char.ofNat 0) ∉ name.toList)
    (hRun : c.save.on w = (.error f, w')) : f.IsRefusal ∨ w'.disk = w.disk := by
  obtain ⟨time, v, hNow⟩ : ∃ time v, now.on w = (.ok time, v) := ⟨_, _, rfl⟩
  have hDisk := (looks_now.run hNow).disk
  rw [save, on_bind_ok hNow] at hRun
  dsimp only at hRun
  split at hRun
  · exact .inr (by rw [← (Prod.mk.inj hRun).2, hDisk])
  · next text _ =>
    rw [hFile] at hRun
    rcases hWrite : (writeReplacing (child folder name) (Text.Utf8.encodeChars text)).on v with ⟨e | _, u⟩
    · rw [on_bind_error hWrite] at hRun
      obtain ⟨hSame, rfl⟩ := Prod.mk.inj hRun
      obtain rfl := Except.error.inj hSame
      rw [← hDisk]
      exact writeReplacing_stops hAbsolute hLast hWrite
    · rw [on_bind_ok hWrite] at hRun
      cases (Prod.mk.inj hRun).1

/-- Removing a file takes away what its path names, or leaves
the disk as it was. -/
theorem removeFile_cleared {file : Path} (hAbsolute : file.isAbsolute = true) :
    Moves (World.OnDisk (Disk.Cleared file)) (removeFile file) := by
  intro w
  rw [removeFile_on, Path.join_of_absolute hAbsolute]
  split
  · exact .kept rfl
  · next hItem hEntry => exact .removed hEntry (by simpa using hItem) rfl
  · next r _ =>
    obtain ⟨e, hRefuse⟩ := refuseBy_on r file w (α := Unit)
    rw [hRefuse]
    exact .kept rfl

/-- Removing a cache takes its file away, or leaves the disk as it was. -/
theorem remove_cleared (hAbsolute : c.file.isAbsolute = true) :
    Moves (World.OnDisk (Disk.Cleared c.file)) c.remove := by
  refine onDisk_then_looks (removeFile_cleared hAbsolute).attempt fun removed => ?_
  split
  · exact (looks_log _ _ _).bind fun _ => looks_pure _
  · split
    · exact looks_pure _
    · exact looks_throw _

end Cache

end SourceAtlas
