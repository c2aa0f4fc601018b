import SourceAtlas.Cache.Store
import SourceAtlas.Proofs.Disk.Canonical
import SourceAtlas.Proofs.World.Stopping

/-!
What making directories and replacing a file do to the disk. Directories appear at free places
only, and of the file written beside its place nothing stays but the file at its place.
-/
namespace SourceAtlas

namespace Disk

/-- The second disk has new directories at free places and is the
first one elsewhere. -/
structure Grows (d d' : Disk) : Prop where
  find? : ∀ p, d'.find? p = d.find? p ∨ d.find? p = none ∧ d'.find? p = some .directory
  proper : d.Proper → d'.Proper

theorem Grows.refl (d : Disk) : Grows d d := ⟨fun _ => .inl rfl, id⟩

/-- Growth goes on. Each step adds directories at places that
were free before it. -/
theorem Grows.trans {d d' d'' : Disk} (hFirst : Grows d d') (hSecond : Grows d' d'') :
    Grows d d'' where
  find? p := by
    rcases hFirst.find? p with hSame | ⟨hFree, hNew⟩
    · rw [← hSame]
      exact hSecond.find? p
    · rcases hSecond.find? p with hSame | ⟨hFree', -⟩
      · exact .inr ⟨hFree, hSame.trans hNew⟩
      · rw [hNew] at hFree'
        cases hFree'
  proper hProper := hSecond.proper (hFirst.proper hProper)

/-- A disk that has grown holds all that the first one held. -/
theorem Grows.extends {d d' : Disk} (hGrows : Grows d d') : Extends d d' := by
  intro p i hFind
  rcases hGrows.find? p with hSame | ⟨hFree, -⟩
  · rw [hSame, hFind]
  · rw [hFree] at hFind
    cases hFind

/-- A directory put at a free place is growth, as long as the place
is made of names. -/
theorem grows_put {d : Disk} {place : Place} (hFree : d.find? place = none ∧ place ≠ [])
    (hNames : d.Proper → ∀ n ∈ place, IsName n) : Grows d (d.put place .directory) where
  find? p := by
    by_cases hSame : p = place
    · subst hSame
      exact .inr ⟨hFree.1, find?_put_self hFree.2 d _⟩
    · exact .inl (find?_put_of_ne hSame d _)
  proper hProper := hProper.put (hNames hProper) _

/-- Taking away what was put at a free place gives back the disk. -/
theorem erase_put {d : Disk} {place : Place} (hFree : d.find? place = none) (hPlace : place ≠ []) (item : Item) :
    (d.put place item).erase place = d := by
  rw [find?, if_neg (by simpa using hPlace), Assoc.get?_eq_none_iff] at hFree
  have hOthers : ∀ e ∈ d.entries, e.1 ≠ place := by
    rintro e he rfl
    exact hFree (List.mem_map_of_mem he)
  simp only [put, erase, Assoc.put_of_not_mem hFree, List.filter_append]
  rw [List.filter_eq_self.mpr (by simpa using hOthers)]
  simp

/-- The root is a directory, so what leads to no directory leads elsewhere. -/
theorem place_ne_nil {d : Disk} {followLast : Bool} {p : Path} {arrival : Arrival}
    (hLocate : d.locate followLast p = .ok arrival) (hNoDirectory : ∀ q, arrival ≠ .found q .directory) :
    arrival.place ≠ [] := by
  rcases arrival with ⟨q, i⟩ | q
  · rintro rfl
    cases find?_of_locate hLocate
    exact hNoDirectory [] rfl
  · exact (free_of_locate hLocate).2

/-- At the end of a path that leads to no directory stands none. -/
theorem no_directory_of_locate {d : Disk} {followLast : Bool} {p : Path} {arrival : Arrival}
    (hLocate : d.locate followLast p = .ok arrival) (hNoDirectory : ∀ q, arrival ≠ .found q .directory) :
    d.find? arrival.place ≠ some .directory := by
  rcases arrival with ⟨q, i⟩ | q
  · intro hDirectory
    obtain rfl := Option.some.inj ((find?_of_locate hLocate).symm.trans hDirectory)
    exact hNoDirectory q rfl
  · simp [Arrival.place, (free_of_locate hLocate).1]

/-- The disk after a file was written beside its place and moved there, or
after that failed. -/
inductive Saved (file : Path) (bytes : List UInt8) (d d' : Disk) : Prop where
  | failed (hGrows : Grows d d')
  | replaced {d₁ d₂ : Disk} {arrival : Arrival} (hGrows : Grows d d₁) (hExtends : Extends d₁ d₂)
      (hLocate : d₂.locate false file = .ok arrival)
      (hThere : d'.find? arrival.place = some (.file bytes Action.writtenTime))
      (hElse : ∀ p, p ≠ arrival.place → d'.find? p = d₁.find? p)
      (hProper : d.Proper → d'.Proper)

/-- Saving a file leaves a disk in order. -/
theorem Saved.proper {file : Path} {bytes : List UInt8} {d d' : Disk} (hSaved : Saved file bytes d d')
    (hProper : d.Proper) : d'.Proper := by
  cases hSaved with
  | failed hGrows => exact hGrows.proper hProper
  | replaced _ _ _ _ _ hKeeps => exact hKeeps hProper

end Disk

/-- A path without a NUL character. -/
def Path.Clean (p : Path) : Prop := ∀ n ∈ p.parts, Sign.char (Char.ofNat 0) ∉ n.toList

instance (p : Path) : Decidable p.Clean := inferInstanceAs (Decidable (∀ n ∈ p.parts, _))

namespace Path.Clean

variable {p : Path}

theorem parent (hClean : p.Clean) : p.parent.Clean := fun n hn => hClean n (List.mem_of_mem_dropLast hn)

theorem name (hClean : p.Clean) : Sign.char (Char.ofNat 0) ∉ p.name.toList := by
  rw [Path.name]
  cases hLast : p.parts.getLast? with
  | none => decide
  | some n => exact hClean n (List.mem_of_getLast? hLast)

/-- Above a clean path there are clean ones, wherever it starts from. -/
theorem join_parent {here : Standpoint} (hClean : (here.join p).Clean) : (here.join p.parent).Clean := by
  have hAnchor : p.parent.isAbsolute = p.isAbsolute := rfl
  rw [join] at hClean ⊢
  rw [hAnchor]
  split
  · next hAbsolute => exact Clean.parent (by rwa [if_pos hAbsolute] at hClean)
  · next hRelative =>
    rw [if_neg hRelative] at hClean
    intro n hn
    refine hClean n (List.mem_append.mpr ?_)
    exact (List.mem_append.mp hn).imp_right List.mem_of_mem_dropLast

/-- A path that leads somewhere is clean. -/
theorem of_locate {d : Disk} {followLast : Bool} {arrival : Disk.Arrival}
    (hLocate : d.locate followLast p = .ok arrival) : p.Clean := by
  simpa [Path.Clean] using (Disk.locate_eq_ok_iff.mp hLocate).1

/-- A path without NUL characters is never refused for one, wherever links
on its way lead. -/
theorem canonical_ne_nul (hClean : p.Clean) (d : Disk) : d.canonical p ≠ .error .nul := by
  have hNone : (p.parts.any fun part => part.toList.contains (Char.ofNat 0)) = false := by
    simpa [Path.Clean] using hClean
  intro hNul
  rw [Disk.canonical, hNone] at hNul
  simp only [Bool.false_eq_true, if_false] at hNul
  split at hNul <;> cases hNul

/-- The same for the place where a path leads. The system looks at the
characters of a path before anything else. -/
theorem locate_ne_nul (hClean : p.Clean) (d : Disk) (followLast : Bool) :
    d.locate followLast p ≠ .error .nul := by
  intro hError
  obtain ⟨n, hn, hNul⟩ := List.any_eq_true.mp (Disk.locate_eq_nul_iff.mp hError)
  exact hClean n hn (by simpa using hNul)

/-- The entry of a clean path is never refused for a null character. -/
theorem entry_ne_nul (hClean : p.Clean) (d : Disk) (followLast : Bool) :
    d.entry followLast p ≠ .error .nul := by
  intro hError
  rw [Disk.entry] at hError
  split at hError
  · cases hError
  · cases hError
  · next r hLocate =>
    obtain rfl := Except.error.inj hError
    exact hClean.locate_ne_nul d followLast hLocate

end Path.Clean

namespace Action

variable {α β : Type}

/-- The second world has more directories than the first and the same
working directory. -/
structure Grown (w w' : World) : Prop where
  here : w'.here = w.here
  disk : w.disk.Grows w'.disk

instance : IsTrans World Grown := ⟨fun _ _ _ hFirst hSecond =>
  ⟨hSecond.here.trans hFirst.here, hFirst.disk.trans hSecond.disk⟩⟩

/-- An action that looks leaves the disk as it is, which is
growth by nothing. -/
theorem grown_of_looks {a : Action α} (hLooks : Looks a) : Moves Grown a :=
  hLooks.mono fun hLooked => ⟨hLooked.here, hLooked.disk ▸ .refl _⟩

/-- A directory is made where the path leads if nothing is there.
Else it is refused. -/
theorem makeDirectory_on (p : Path) (w : World) :
    (makeDirectory p).on w = match w.disk.locate false (w.here.join p) with
      | .ok (.absent place) => (.ok (), { w with disk := w.disk.put place .directory })
      | .ok (.found _ _) => (.error (.system ⟨.exists, p.text, none⟩), w)
      | .error r => (refuseBy r p : Action Unit).on w := by
  have hSame : (makeDirectory p).on w = (match w.disk.locate false (w.here.join p) with
      | .ok (.absent place) => set { w with disk := w.disk.put place .directory }
      | .ok (.found _ _) => refuse .exists p
      | .error r => refuseBy r p : Action Unit).on w := rfl
  rw [hSame]
  split <;> rfl

/-- Making one directory adds that directory at most. -/
theorem grown_makeDirectory {p : Path} (hAbsolute : p.isAbsolute = true) (hNamed : p.Named) :
    Moves Grown (makeDirectory p) := by
  intro w
  have hSame : Grown w w := ⟨rfl, .refl _⟩
  rw [makeDirectory_on, Path.join_of_absolute hAbsolute]
  split
  · next place hLocate =>
    refine ⟨rfl, Disk.grows_put (Disk.free_of_locate hLocate) fun hProper => ?_⟩
    exact Disk.place_named_of_locate hLocate hProper hNamed.readable
  · exact hSame
  · exact grown_of_looks (looks_refuseBy _ _) w

/-- A directory that is there already is no trouble, and
nothing is added then. -/
theorem grown_ensureDirectory {p : Path} (hAbsolute : p.isAbsolute = true) (hNamed : p.Named) :
    Moves Grown (ensureDirectory p) := by
  refine (grown_makeDirectory hAbsolute hNamed).attempt.bind fun made => ?_
  split
  · exact grown_of_looks (looks_pure _)
  · refine grown_of_looks ((looks_ask _ _).bind fun _ => ?_)
    split
    · exact looks_throw _
    · exact looks_pure _

/-- The directories above a path are tried from below: where one cannot be
made for want of its parent, the parents come first. The induction is on how
many are left. -/
theorem grown_makeDirectoriesFrom (fuel : Nat) {p : Path} (hAbsolute : p.isAbsolute = true)
    (hNamed : p.Named) : Moves Grown (makeDirectoriesFrom fuel p) := by
  induction fuel generalizing p with
  | zero => exact grown_ensureDirectory hAbsolute hNamed
  | succ fuel ih =>
      have hParent : p.parent.Named := fun n hn => hNamed n (List.mem_of_mem_dropLast hn)
      have hEnsure := grown_ensureDirectory hAbsolute hNamed
      refine hEnsure.attempt.bind fun made => ?_
      split
      · exact grown_of_looks (looks_pure _)
      · split
        · exact (ih (p := p.parent) hAbsolute hParent).bind fun _ => hEnsure
        · exact grown_of_looks (looks_throw _)

/-- Making directories makes new ones only, wherever it stops. -/
theorem grown_makeDirectories {p : Path} (hAbsolute : p.isAbsolute = true) (hNamed : p.Named) :
    Moves Grown (makeDirectories p) :=
  grown_makeDirectoriesFrom _ hAbsolute hNamed

/-- A file is created only where the path leads to nothing. A link at
its end is something. -/
theorem createFile_on (p : Path) (w : World) :
    (createFile p).on w = match w.disk.locate false (w.here.join p) with
      | .ok (.absent place) => (.ok (), { w with disk := w.disk.put place (.file [] writtenTime) })
      | .ok (.found _ _) => (.error (.system ⟨.exists, p.text, none⟩), w)
      | .error r => (refuseBy r p : Action Unit).on w := by
  have hSame : (createFile p).on w = (match w.disk.locate false (w.here.join p) with
      | .ok (.absent place) => set { w with disk := w.disk.put place (.file [] writtenTime) }
      | .ok (.found _ _) => refuse .exists p
      | .error r => refuseBy r p : Action Unit).on w := rfl
  rw [hSame]
  split <;> rfl

/-- Moving a file onto another, with both ends looked up at first and links
at their ends not followed. -/
theorem replaceFile_unfolded (source target : Path) (w : World) : (replaceFile source target).on w =
    (match w.disk.entry false (w.here.join source), w.disk.locate false (w.here.join target) with
      | .ok (from_, item), .ok arrival =>
        match arrival with
        | .found _ .directory => throw (.system ⟨.isDirectory, source.text, some target.text⟩)
        | _ => set { w with disk := (w.disk.erase from_).put arrival.place item }
      | .error (.errno e), _ => throw (.system ⟨e, source.text, some target.text⟩)
      | _, .error (.errno e) => throw (.system ⟨e, source.text, some target.text⟩)
      | _, _ => throw .nulInPath : Action Unit).on w := rfl

/-- A file that is there is moved unless a directory is in the way or the
path to its new place cannot be followed. -/
theorem replaceFile_on {w : World} {source : Path} {place : Place} {item : Item}
    (hEntry : w.disk.entry false (w.here.join source) = .ok (place, item)) (target : Path) :
    (replaceFile source target).on w = match w.disk.locate false (w.here.join target) with
      | .ok (.found _ .directory) =>
        (.error (.system ⟨.isDirectory, source.text, some target.text⟩), w)
      | .ok arrival => (.ok (), { w with disk := (w.disk.erase place).put arrival.place item })
      | .error (.errno e) => (.error (.system ⟨e, source.text, some target.text⟩), w)
      | .error .nul => (.error .nulInPath, w) := by
  rw [replaceFile_unfolded, hEntry]
  rcases w.disk.locate false (w.here.join target) with (e | _) | (⟨p, i⟩ | p)
  · rfl
  · rfl
  · cases i <;> rfl
  · rfl

/-- If the file that moves is found, only what stands at the target decides
whether it may. -/
theorem replaceFile_on_of_locate {w : World} {source target : Path} {place : Place} {item : Item}
    {arrival : Disk.Arrival} (hEntry : w.disk.entry false (w.here.join source) = .ok (place, item))
    (hLocate : w.disk.locate false (w.here.join target) = .ok arrival)
    (hNoDirectory : ∀ q, arrival ≠ .found q .directory) :
    (replaceFile source target).on w =
      (.ok (), { w with disk := (w.disk.erase place).put arrival.place item }) := by
  rw [replaceFile_on hEntry, hLocate]
  split
  · next q hFound => exact absurd (Except.ok.inj hFound) (hNoDirectory q)
  · next hSame => rw [Except.ok.inj hSame]
  · next hSame => cases hSame
  · next hSame => cases hSame

/-- A file is removed at the end of its path, and a link there
is removed itself. -/
theorem removeFile_on (p : Path) (w : World) :
    (removeFile p).on w = match w.disk.entry false (w.here.join p) with
      | .ok (_, .directory) => (.error (.system ⟨.isDirectory, p.text, none⟩), w)
      | .ok (place, _) => (.ok (), { w with disk := w.disk.erase place })
      | .error r => (refuseBy r p : Action Unit).on w := by
  have hSame : (removeFile p).on w = (match w.disk.entry false (w.here.join p) with
      | .ok (_, .directory) => refuse .isDirectory p
      | .ok (place, _) => set { w with disk := w.disk.erase place }
      | .error r => refuseBy r p : Action Unit).on w := rfl
  rw [hSame]
  rcases w.disk.entry false (w.here.join p) with r | ⟨place, item⟩
  · rfl
  · cases item <;> rfl

/-- A new file is made, or the world stays as it is. -/
theorem createFile_cases (p : Path) (w : World) :
    (∃ f, (createFile p).on w = (.error f, w)) ∨
    ∃ spot, w.disk.locate false (w.here.join p) = .ok (.absent spot) ∧
      (createFile p).on w = (.ok (), { w with disk := w.disk.put spot (.file [] writtenTime) }) := by
  rw [createFile_on]
  rcases w.disk.locate false (w.here.join p) with r | (⟨place, item⟩ | spot)
  · obtain ⟨e, hRefuse⟩ := refuseBy_on r p w (α := Unit)
    exact .inl ⟨e, hRefuse⟩
  · exact .inl ⟨_, rfl⟩
  · exact .inr ⟨spot, rfl, rfl⟩

/-- Bytes go to the file where the path leads, which is made if
nothing is there. -/
theorem writeBytes_on (p : Path) (bytes : List UInt8) (w : World) :
    (writeBytes p bytes).on w = match w.disk.locate true (w.here.join p) with
      | .ok (.found place (.file _ _)) => (.ok (), { w with disk := w.disk.put place (.file bytes writtenTime) })
      | .ok (.found _ _) => (.error (.system ⟨.isDirectory, p.text, none⟩), w)
      | .ok (.absent place) => (.ok (), { w with disk := w.disk.put place (.file bytes writtenTime) })
      | .error r => (refuseBy r p : Action Unit).on w := by
  have hSame : (writeBytes p bytes).on w = (match w.disk.locate true (w.here.join p) with
      | .ok (.found place (.file _ _)) => set { w with disk := w.disk.put place (.file bytes writtenTime) }
      | .ok (.found _ _) => refuse .isDirectory p
      | .ok (.absent place) => set { w with disk := w.disk.put place (.file bytes writtenTime) }
      | .error r => refuseBy r p : Action Unit).on w := rfl
  rw [hSame]
  rcases w.disk.locate true (w.here.join p) with r | (⟨place, item⟩ | place)
  · rfl
  · cases item <;> rfl
  · rfl

/-- If bytes were written, no directory stood where the path leads, and
nothing but that place changed. -/
theorem writeBytes_on_ok {p : Path} {bytes : List UInt8} {w w' : World}
    (hRun : (writeBytes p bytes).on w = (.ok (), w')) : ∃ arrival, w.disk.locate true (w.here.join p) = .ok arrival ∧
      (∀ q, arrival ≠ .found q .directory) ∧
      w' = { w with disk := w.disk.put arrival.place (.file bytes writtenTime) } := by
  rw [writeBytes_on] at hRun
  split at hRun
  · next hLocate => exact ⟨_, hLocate, by simp, (Prod.mk.inj hRun).2.symm⟩
  · cases hRun
  · next hLocate => exact ⟨_, hLocate, by simp, (Prod.mk.inj hRun).2.symm⟩
  · next r _ =>
    obtain ⟨e, hRefuse⟩ := refuseBy_on r p w (α := Unit)
    rw [hRefuse] at hRun
    cases hRun

/-- A new file is filled, and nothing else changes. -/
theorem writeBytes_created {w : World} {source : Path} {spot : Place}
    (hFree : w.disk.locate false (w.here.join source) = .ok (.absent spot)) (bytes : List UInt8) :
    (writeBytes source bytes).on { w with disk := w.disk.put spot (.file [] writtenTime) } =
      (.ok (), { w with disk := w.disk.put spot (.file bytes writtenTime) }) := by
  have hThere : (w.disk.put spot (.file [] writtenTime)).locate true (w.here.join source) =
      .ok (.found spot (.file [] writtenTime)) := Disk.locate_followed (Disk.locate_put hFree _) (by simp)
  rw [writeBytes_on, hThere]
  dsimp only
  rw [Disk.put_put]

/-- A file that was made just now is taken away again. -/
theorem removeFile_created {w : World} {source : Path} {spot : Place}
    (hFree : w.disk.locate false (w.here.join source) = .ok (.absent spot)) (bytes : List UInt8) :
    (removeFile source).on { w with disk := w.disk.put spot (.file bytes writtenTime) } = (.ok (), w) := by
  obtain ⟨hNone, hSpot⟩ := Disk.free_of_locate hFree
  have hEntry : (w.disk.put spot (.file bytes writtenTime)).entry false (w.here.join source) =
      .ok (spot, .file bytes writtenTime) := Disk.entry_eq_ok_iff.mpr (Disk.locate_put hFree _)
  rw [removeFile_on, hEntry]
  dsimp only
  rw [Disk.erase_put hNone hSpot]

/-- A refusal by the disk is one of the system, unless it is
about a NUL character. -/
theorem stopsBy_refuseBy {P : Failure → Prop} (hRefusal : ∀ e, P (.system e)) {r : Disk.Refusal}
    (hNul : r = .nul → P .nulInPath) (p : Path) : StopsBy P (refuseBy r p : Action α) := by
  cases r with
  | errno e => exact stopsBy_throw (hRefusal _)
  | nul => exact stopsBy_throw (hNul rfl)

variable {p : Path}

section Directories

/-- Writing does not move the working directory. -/
theorem stays_writeBytes (p : Path) (bytes : List UInt8) : Moves World.Stays (writeBytes p bytes) := by
  intro w
  rw [writeBytes_on]
  split
  · rfl
  · rfl
  · rfl
  · exact stays_of_looks (looks_refuseBy _ p) w

theorem stays_makeDirectory (p : Path) : Moves World.Stays (makeDirectory p) := by
  intro w
  rw [makeDirectory_on]
  split
  · rfl
  · rfl
  · exact stays_of_looks (looks_refuseBy _ p) w

theorem stays_ensureDirectory (p : Path) : Moves World.Stays (ensureDirectory p) := by
  refine (stays_makeDirectory p).attempt.bind fun made => stays_of_looks ?_
  split
  · exact looks_pure _
  · refine (looks_ask _ _).bind fun _ => ?_
    split
    · exact looks_throw _
    · exact looks_pure _

theorem stays_makeDirectoriesFrom (fuel : Nat) (p : Path) : Moves World.Stays (makeDirectoriesFrom fuel p) := by
  induction fuel generalizing p with
  | zero => exact stays_ensureDirectory p
  | succ fuel ih =>
      refine (stays_ensureDirectory p).attempt.bind fun made => ?_
      split
      · exact stays_of_looks (looks_pure _)
      · split
        · exact (ih p.parent).bind fun _ => stays_ensureDirectory p
        · exact stays_of_looks (looks_throw _)

variable {here : Standpoint} {P : Failure → Prop} (hRefusal : ∀ e, P (.system e))

include hRefusal

/-- A directory cannot be made for reasons of the system or for a NUL
character in its path. -/
theorem fails_makeDirectory (hNul : ¬ (here.join p).Clean → P .nulInPath) (d : Disk) :
    Fails d here (makeDirectory p) P := by
  rintro w f w' rfl rfl hRun
  rw [makeDirectory_on] at hRun
  split at hRun
  · cases hRun
  · exact stopsBy_throw (hRefusal _) w f w' hRun
  · next r hLocate =>
    refine stopsBy_refuseBy hRefusal (fun hError => hNul fun hClean => ?_) p w f w' hRun
    exact hClean.locate_ne_nul _ _ (hError ▸ hLocate)

/-- Making a directory that may be there stops only at refusals of the
system, or for a null character. -/
theorem fails_ensureDirectory (hNul : ¬ (here.join p).Clean → P .nulInPath) :
    ∀ d, Fails d here (ensureDirectory p) P := by
  refine fails_bind_written (fun d => (fails_makeDirectory hRefusal hNul d).attempt)
    (stays_makeDirectory p).attempt fun made d => ?_
  split
  · exact fails_pure _
  · refine (fails_ask hRefusal _ _).next (looks_ask _ _) fun _ => ?_
    split
    · exact fails_throw (hRefusal _)
    · exact fails_pure _

/-- Directories are made unless the system refuses or the path to them has a
name that is none. -/
theorem fails_makeDirectoriesFrom (fuel : Nat) (hNul : ¬ (here.join p).Clean → P .nulInPath) :
    ∀ d, Fails d here (makeDirectoriesFrom fuel p) P := by
  induction fuel generalizing p with
  | zero => exact fails_ensureDirectory hRefusal hNul
  | succ fuel ih =>
      have hEnsure := fails_ensureDirectory hRefusal hNul
      refine fails_bind_written (fun d => (hEnsure d).attempt) (stays_ensureDirectory p).attempt fun made d => ?_
      split
      · exact fails_pure _
      · split
        · exact fails_bind_written (ih fun hUnclean => hNul fun hClean => hUnclean hClean.join_parent)
            (stays_makeDirectoriesFrom fuel p.parent) (fun _ => hEnsure) d
        · exact fails_throw (hRefusal _)

/-- A file is written unless the system refuses or the path has a
name that is none. -/
theorem fails_writeBytes (hNul : ¬ (here.join p).Clean → P .nulInPath) (bytes : List UInt8) (d : Disk) :
    Fails d here (writeBytes p bytes) P := by
  rintro w f w' rfl rfl hRun
  rw [writeBytes_on] at hRun
  split at hRun
  · cases hRun
  · exact stopsBy_throw (hRefusal _) w f w' hRun
  · cases hRun
  · next r hLocate =>
    refine stopsBy_refuseBy hRefusal (fun hError => hNul fun hClean => ?_) p w f w' hRun
    exact hClean.locate_ne_nul _ _ (hError ▸ hLocate)

end Directories

/-- Where the path is clean, directories above it are refused by
the system at most. -/
theorem stopsBy_makeDirectoriesFrom (fuel : Nat) (hAbsolute : p.isAbsolute = true) (hClean : p.Clean) :
    StopsBy Failure.IsRefusal (makeDirectoriesFrom fuel p) := by
  intro w f w' hRun
  refine fails_makeDirectoriesFrom (fun e => ⟨e, rfl⟩) fuel (fun hUnclean => ?_) w.disk w f w' rfl rfl hRun
  rw [Path.join_of_absolute hAbsolute] at hUnclean
  exact absurd hClean hUnclean

/-- Making a new file stops only at refusals of the system. -/
theorem stopsBy_createFile (hAbsolute : p.isAbsolute = true) (hClean : p.Clean) :
    StopsBy Failure.IsRefusal (createFile p) := by
  intro w f w' hRun
  rw [createFile_on, Path.join_of_absolute hAbsolute] at hRun
  split at hRun
  · cases hRun
  · exact stopsBy_refuse .exists p w f w' hRun
  · next r hLocate =>
    refine stopsBy_refuseBy (fun e => ⟨e, rfl⟩) (fun hNul => ?_) p w f w' hRun
    exact absurd (hNul ▸ hLocate) (hClean.locate_ne_nul _ _)

/-- Writing bytes stops only at refusals of the system. -/
theorem stopsBy_writeBytes (hAbsolute : p.isAbsolute = true) (hClean : p.Clean) (bytes : List UInt8) :
    StopsBy Failure.IsRefusal (writeBytes p bytes) := by
  intro w f w' hRun
  refine fails_writeBytes (fun e => ⟨e, rfl⟩) (fun hUnclean => ?_) bytes w.disk w f w' rfl rfl hRun
  rw [Path.join_of_absolute hAbsolute] at hUnclean
  exact absurd hClean hUnclean

theorem stopsBy_removeFile (hAbsolute : p.isAbsolute = true) (hClean : p.Clean) :
    StopsBy Failure.IsRefusal (removeFile p) := by
  intro w f w' hRun
  rw [removeFile_on, Path.join_of_absolute hAbsolute] at hRun
  split at hRun
  · exact stopsBy_refuse .isDirectory p w f w' hRun
  · cases hRun
  · next r hEntry =>
    refine stopsBy_refuseBy (fun e => ⟨e, rfl⟩) (fun hNul => ?_) p w f w' hRun
    exact absurd (hNul ▸ hEntry) (hClean.entry_ne_nul _ _)

/-- Moving a file is refused by the system at most if both paths are clean. -/
theorem stopsBy_replaceFile {target : Path} (hAbsolute : p.isAbsolute = true) (hClean : p.Clean)
    (hAbsolute' : target.isAbsolute = true) (hClean' : target.Clean) :
    StopsBy Failure.IsRefusal (replaceFile p target) := by
  intro w f w' hRun
  have hSource := hClean.entry_ne_nul w.disk false
  have hTarget := hClean'.locate_ne_nul w.disk false
  rw [replaceFile_unfolded, Path.join_of_absolute hAbsolute, Path.join_of_absolute hAbsolute'] at hRun
  rcases hEntry : w.disk.entry false p with (e | _) | ⟨place, item⟩ <;> rw [hEntry] at hRun
  · exact ⟨_, (Except.error.inj (Prod.mk.inj hRun).1).symm⟩
  · exact absurd hEntry hSource
  · rcases hLocate : w.disk.locate false target with (e | _) | arrival <;> rw [hLocate] at hRun
    · exact ⟨_, (Except.error.inj (Prod.mk.inj hRun).1).symm⟩
    · exact absurd hLocate hTarget
    · rcases arrival with ⟨q, i⟩ | q
      · cases i with
        | directory => exact ⟨_, (Except.error.inj (Prod.mk.inj hRun).1).symm⟩
        | _ => cases hRun
      · cases hRun

end Action

namespace Cache

open SourceAtlas.Action

/-- The path of the temporary file is beside the file, under a name that is
free. How much of its filler is needed depends on what is there already. -/
theorem temporaryPath_on (file : Path) (w : World) :
    ∃ extra, (temporaryPath file).on w =
      (.ok (file.parent.join ⟨.none, [temporaryName file.name extra]⟩), w) := by
  obtain ⟨isFree, hRun⟩ : ∃ isFree, (temporaryPath file).on w =
      (.ok (file.parent.join ⟨.none, [(((List.range (w.disk.entries.length + 1)).map
        (temporaryName file.name)).find? isFree).getD (temporaryName file.name 0)]⟩), w) := ⟨_, rfl⟩
  rw [hRun]
  cases hFind : ((List.range (w.disk.entries.length + 1)).map (temporaryName file.name)).find? isFree with
  | none => exact ⟨0, rfl⟩
  | some name =>
      obtain ⟨extra, -, rfl⟩ := List.mem_map.mp (List.mem_of_find?_eq_some hFind)
      exact ⟨extra, rfl⟩

/-- How the name of a temporary file is spelled: a point, the name, filler
and an ending. -/
theorem temporaryName_toList (name : Text) (extra : Nat) : (temporaryName name extra).toList =
    Sign.char '.' :: (name.toList ++ Sign.char '.' :: (List.replicate (8 + extra) (Sign.char 'X') ++
      [Sign.char '.', .char 't', .char 'm', .char 'p'])) := by
  simp [temporaryName]

/-- A temporary name has no slash, is not empty, and is no step up, so it is
a part of a path. -/
theorem isPart_temporaryName {name : Text} (hSlash : Sign.char '/' ∉ name.toList) (extra : Nat) :
    IsPart (temporaryName name extra) := by
  have hChars := temporaryName_toList name extra
  refine ⟨fun hEmpty => ?_, fun hPoint => ?_, ?_⟩
  · rw [hEmpty] at hChars
    cases hChars
  · rw [hPoint] at hChars
    simp at hChars
  · rw [hChars]
    simp [hSlash]

theorem nul_not_mem_temporaryName {name : Text} (hNul : Sign.char (Char.ofNat 0) ∉ name.toList) (extra : Nat) :
    Sign.char (Char.ofNat 0) ∉ (temporaryName name extra).toList := by
  rw [temporaryName_toList]
  simp [hNul]

/-- Filling the temporary file and moving it stops by refusals
if filling it does. -/
theorem stopsBy_fillAndMove {temporary file : Path} {fill : Path → Action Unit}
    (hFill : StopsBy Failure.IsRefusal (fill temporary)) (hAbsolute : temporary.isAbsolute = true)
    (hClean : temporary.Clean) (hAbsolute' : file.isAbsolute = true) (hClean' : file.Clean) :
    StopsBy Failure.IsRefusal (fillAndMove fill temporary file) := by
  have hPlace := hFill.bind fun _ => stopsBy_replaceFile hAbsolute hClean hAbsolute' hClean'
  refine (hPlace.attempt fun f hf => .inl hf).bind fun placed => ?_
  split
  · exact stopsBy_pure _
  · exact (stopsBy_removeFile hAbsolute hClean).bind fun _ => stopsBy_throw ⟨_, rfl⟩

/-- Replacing a file is only ever refused by the system. -/
theorem stopsBy_writeReplacing {file : Path} (hAbsolute : file.isAbsolute = true) (hClean : file.Clean)
    (bytes : List UInt8) : StopsBy Failure.IsRefusal (writeReplacing file bytes) := by
  refine (stopsBy_makeDirectoriesFrom _ (p := file.parent) hAbsolute hClean.parent).bind fun _ => ?_
  intro w f w' hRun
  obtain ⟨extra, hTemporary⟩ := temporaryPath_on file w
  rw [on_bind_ok hTemporary] at hRun
  obtain ⟨temporary, hEq⟩ : ∃ p, p = file.parent.join ⟨.none, [temporaryName file.name extra]⟩ := ⟨_, rfl⟩
  rw [← hEq] at hRun
  have hRooted : temporary.isAbsolute = true := hEq ▸ hAbsolute
  have hTemporaryClean : temporary.Clean := by
    rw [hEq]
    intro n hn
    rcases List.mem_append.mp (show n ∈ file.parent.parts ++ [temporaryName file.name extra] from hn)
      with hn | hn
    · exact hClean.parent n hn
    · rw [List.mem_singleton.mp hn]
      exact nul_not_mem_temporaryName hClean.name extra
  refine StopsBy.bind (stopsBy_createFile hRooted hTemporaryClean) (fun _ => ?_) w f w' hRun
  exact stopsBy_fillAndMove (stopsBy_writeBytes hRooted hTemporaryClean bytes) hRooted hTemporaryClean hAbsolute
    hClean

/-- What filling a new file does: these bytes get into it, and it comes
through or is refused. -/
def Fills (fill : Path → Action Unit) (filled : Except SystemError Unit) (bytes : List UInt8) : Prop :=
  ∀ (w : World) (temporary : Path) (spot : Place),
    w.disk.locate false (w.here.join temporary) = .ok (.absent spot) →
    (fill temporary).on { w with disk := w.disk.put spot (.file [] writtenTime) } =
      (filled.mapError .system, { w with disk := w.disk.put spot (.file bytes writtenTime) })

/-- Writing all bytes is a way of filling a file. The other way writes some
of them and is refused. -/
theorem fills_writeBytes (bytes : List UInt8) :
    Fills (fun temporary => writeBytes temporary bytes) (.ok ()) bytes :=
  fun _ _ _ hFree => writeBytes_created hFree bytes

section Moving

variable {w : World} {source target : Path} {spot : Place} {fill : Path → Action Unit} {bytes : List UInt8}

/-- A new file is filled and moved to the end of its path, if no
directory is there. -/
theorem fillAndMove_moved {arrival : Disk.Arrival} (hFill : Fills fill (.ok ()) bytes)
    (hFree : w.disk.locate false (w.here.join source) = .ok (.absent spot))
    (hTarget : (w.disk.put spot (.file bytes writtenTime)).locate false (w.here.join target) = .ok arrival)
    (hNoDirectory : ∀ place, arrival ≠ .found place .directory) :
    (fillAndMove fill source target).on { w with disk := w.disk.put spot (.file [] writtenTime) } =
      (.ok (), { w with disk := w.disk.put arrival.place (.file bytes writtenTime) }) := by
  obtain ⟨hNone, hSpot⟩ := Disk.free_of_locate hFree
  let filled : World := { w with disk := w.disk.put spot (.file bytes writtenTime) }
  have hEntry : filled.disk.entry false (filled.here.join source) = .ok (spot, .file bytes writtenTime) :=
    Disk.entry_eq_ok_iff.mpr (Disk.locate_put hFree _)
  have hMoved := replaceFile_on_of_locate hEntry hTarget hNoDirectory
  rw [show filled.disk.erase spot = w.disk from Disk.erase_put hNone hSpot _] at hMoved
  rw [fillAndMove, on_bind_ok (by rw [on_attempt, on_bind_ok (hFill w source spot hFree), hMoved])]
  rfl

/-- A new file that cannot be filled or moved is taken away, and the world
is as it was before. -/
theorem fillAndMove_removed {e : SystemError}
    (hFree : w.disk.locate false (w.here.join source) = .ok (.absent spot))
    (hRefused : (fill source >>= fun _ => replaceFile source target).on
      { w with disk := w.disk.put spot (.file [] writtenTime) } =
        (.error (.system e), { w with disk := w.disk.put spot (.file bytes writtenTime) })) :
    (fillAndMove fill source target).on { w with disk := w.disk.put spot (.file [] writtenTime) } =
      (.error (.system e), w) := by
  rw [fillAndMove, on_bind_ok (by rw [on_attempt, hRefused]),
    on_bind_ok (removeFile_created hFree bytes), on_throw]

/-- A new file is filled and moved, or it is taken away and the world is as
it was before. -/
theorem fillAndMove_on {filled : Except SystemError Unit} (hFill : Fills fill filled bytes)
    (hFree : w.disk.locate false (w.here.join source) = .ok (.absent spot)) (hClean : (w.here.join target).Clean) :
    let created : World := { w with disk := w.disk.put spot (.file [] writtenTime) }
    (∃ e, (fillAndMove fill source target).on created = (.error (.system e), w)) ∨
    filled = .ok () ∧ ∃ arrival,
      (w.disk.put spot (.file bytes writtenTime)).locate false (w.here.join target) = .ok arrival ∧
      (∀ place, arrival ≠ .found place .directory) ∧ (fillAndMove fill source target).on created =
        (.ok (), { w with disk := w.disk.put arrival.place (.file bytes writtenTime) }) := by
  intro created
  have hFilled := hFill w source spot hFree
  cases filled with
  | error e => exact .inl ⟨e, fillAndMove_removed hFree (on_bind_error hFilled _)⟩
  | ok =>
      let full : World := { w with disk := w.disk.put spot (.file bytes writtenTime) }
      have hEntry : full.disk.entry false (full.here.join source) = .ok (spot, .file bytes writtenTime) :=
        Disk.entry_eq_ok_iff.mpr (Disk.locate_put hFree _)
      have hReplace := replaceFile_on hEntry target
      rcases hTarget : full.disk.locate false (full.here.join target) with (e | _) | arrival
      · rw [hTarget] at hReplace
        exact .inl ⟨_, fillAndMove_removed hFree ((on_bind_ok hFilled _).trans hReplace)⟩
      · exact absurd hTarget (hClean.locate_ne_nul _ _)
      · by_cases hDirectory : ∃ place, arrival = .found place .directory
        · obtain ⟨place, rfl⟩ := hDirectory
          rw [hTarget] at hReplace
          exact .inl ⟨_, fillAndMove_removed hFree ((on_bind_ok hFilled _).trans hReplace)⟩
        · push Not at hDirectory
          exact .inr ⟨rfl, arrival, rfl, hDirectory, fillAndMove_moved hFill hFree hTarget hDirectory⟩

end Moving

/-- A path whose file has a name beside it that the system takes is one that
the system takes. -/
theorem clean_of_temporary {d : Disk} {here : Standpoint} {file : Path} {extra : Nat} {arrival : Disk.Arrival}
    (hLocate : d.locate false (here.join (file.parent.join ⟨.none, [temporaryName file.name extra]⟩)) =
      .ok arrival) : (here.join file).Clean := by
  have hClean := Path.Clean.of_locate hLocate
  have hName : Sign.char (Char.ofNat 0) ∉ file.name.toList := by
    have hTemporary := hClean (temporaryName file.name extra)
      (Path.mem_join_parts.mpr (.inr (List.mem_append_right _ (List.mem_singleton_self _))))
    rw [temporaryName_toList] at hTemporary
    exact fun hNul => hTemporary (by simp [hNul])
  intro n hn
  rcases Path.mem_join_parts.mp hn with ⟨hRelative, hn⟩ | hn
  · exact hClean n (Path.mem_join_parts.mpr (.inl ⟨hRelative, hn⟩))
  · rcases Path.mem_parts hn with hn | rfl
    · exact hClean n (Path.mem_join_parts.mpr (.inr (List.mem_append_left _ hn)))
    · exact hName

/-- How replacing a file ends: where directories are made, after that with
nothing more changed, or with the file moved to the end of its path. -/
inductive Replacing (file : Path) (bytes : List UInt8) (w : World) : Except Failure Unit × World → Prop where
  | unmade {f : Failure} {w₁ : World} (hMake : (makeDirectories file.parent).on w = (.error f, w₁)) :
      Replacing file bytes w (.error f, w₁)
  | unmoved {f : Failure} {w₁ : World} (hMake : (makeDirectories file.parent).on w = (.ok (), w₁)) :
      Replacing file bytes w (.error f, w₁)
  | moved {w₁ : World} {temporary : Path} {spot : Place} {arrival : Disk.Arrival}
      (hMake : (makeDirectories file.parent).on w = (.ok (), w₁))
      (hTemporary : (temporaryPath file).on w₁ = (.ok temporary, w₁))
      (hFree : w₁.disk.locate false (w₁.here.join temporary) = .ok (.absent spot))
      (hTarget : (w₁.disk.put spot (.file bytes writtenTime)).locate false (w₁.here.join file) = .ok arrival)
      (hNoDirectory : ∀ place, arrival ≠ .found place .directory) :
      Replacing file bytes w (.ok (), { w₁ with disk := w₁.disk.put arrival.place (.file bytes writtenTime) })

/-- Replacing a file ends in one of three ways, whatever fills the
temporary file: it stops at the directories above, it stops later, or
the file has moved. -/
theorem replaceWith_replacing {fill : Path → Action Unit} {filled : Except SystemError Unit} {bytes : List UInt8}
    (hFill : Fills fill filled bytes) (file : Path) (w : World) :
    Replacing file bytes w ((replaceWith fill file).on w) := by
  rw [replaceWith]
  rcases hMake : (makeDirectories file.parent).on w with ⟨f | _, w₁⟩
  · rw [on_bind_error hMake]
    exact .unmade hMake
  obtain ⟨extra, hTemporary⟩ := temporaryPath_on file w₁
  rw [on_bind_ok hMake, on_bind_ok hTemporary]
  rcases createFile_cases (file.parent.join ⟨.none, [temporaryName file.name extra]⟩) w₁ with
    ⟨f, hRefused⟩ | ⟨spot, hFree, hCreated⟩
  · rw [on_bind_error hRefused]
    exact .unmoved hMake
  rw [on_bind_ok hCreated]
  rcases fillAndMove_on hFill hFree (clean_of_temporary hFree) with
    ⟨e, hRemoved⟩ | ⟨-, arrival, hTarget, hNoDirectory, hMoved⟩
  · rw [hRemoved]
    exact .unmoved hMake
  · rw [hMoved]
    exact .moved hMake hTemporary hFree hTarget hNoDirectory

/-- The case of it in which all bytes are written. -/
theorem writeReplacing_replacing (file : Path) (bytes : List UInt8) (w : World) :
    Replacing file bytes w ((writeReplacing file bytes).on w) :=
  replaceWith_replacing (fills_writeBytes bytes) file w

/-- Replacing a file ends in one of two ways, whatever the answer. -/
theorem writeReplacing_saved {file : Path} (hAbsolute : file.isAbsolute = true) (hNamed : file.Named)
    (bytes : List UInt8) (w : World) :
    ((writeReplacing file bytes).on w).2.here = w.here ∧
      w.disk.Saved file bytes ((writeReplacing file bytes).on w).2.disk := by
  have hParent : file.parent.Named := fun n hn => hNamed n (List.mem_of_mem_dropLast hn)
  have hMade := grown_makeDirectories (p := file.parent) hAbsolute hParent w
  have hEnds := writeReplacing_replacing file bytes w
  generalize (writeReplacing file bytes).on w = last at hEnds ⊢
  cases hEnds with
  | unmade hMake =>
      rw [hMake] at hMade
      exact ⟨hMade.here, .failed hMade.disk⟩
  | unmoved hMake =>
      rw [hMake] at hMade
      exact ⟨hMade.here, .failed hMade.disk⟩
  | @moved w₁ temporary spot arrival hMake hTemporary hFree hTarget hNoDirectory =>
      rw [hMake] at hMade
      obtain ⟨hNone, -⟩ := Disk.free_of_locate hFree
      rw [Path.join_of_absolute hAbsolute] at hTarget
      have hThere := Disk.find?_put_self (Disk.place_ne_nil hTarget hNoDirectory) w₁.disk
        (.file bytes writtenTime)
      refine ⟨hMade.here, .replaced hMade.disk (Disk.extends_put hNone _) hTarget hThere
        (fun p hp => Disk.find?_put_of_ne hp _ _) fun hProper => (hMade.disk.proper hProper).put ?_ _⟩
      -- both names lead to places that a disk can have: that of the file beside, and that of the file
      obtain ⟨extra, hFound⟩ := temporaryPath_on file w₁
      obtain rfl : temporary = _ := Except.ok.inj (Prod.mk.inj (hTemporary.symm.trans hFound)).1
      have hRooted : (file.parent.join ⟨.none, [temporaryName file.name extra]⟩).isAbsolute = true := hAbsolute
      rw [Path.join_of_absolute hRooted] at hFree
      refine Disk.place_named_of_locate hTarget ((hMade.disk.proper hProper).put ?_ _) hNamed.readable
      refine Disk.place_named_of_locate hFree (hMade.disk.proper hProper) fun n hn => ?_
      rcases List.mem_append.mp hn with hn | hn
      · exact (hParent n hn).toIsPart
      · rw [List.mem_singleton.mp hn]
        exact isPart_temporaryName hNamed.name_noSlash extra

end Cache

end SourceAtlas
