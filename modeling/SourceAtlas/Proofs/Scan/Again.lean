import SourceAtlas.Proofs.Disk.Children
import SourceAtlas.Proofs.Disk.Shape
import SourceAtlas.Proofs.Scan.Exact

/-!
Scanning again. Where directories appeared and files were written at places where no source file is
searched for, a scan gives what it gave before.
-/
namespace SourceAtlas.Scan

open SourceAtlas.Action

variable {w v : World} {o : ScanOptions} {ignoring : List IgnoreFile} {root start p q : Path} {base : Place}
  {s : Scan}

/-- The path that goes down from another one by names. -/
def descend (start : Path) (names : List Text) : Path := ⟨start.anchor, start.parts ++ names⟩

theorem descend_nil (start : Path) : descend start [] = start := by
  rw [descend, List.append_nil]

theorem child_descend (start : Path) (names : List Text) (n : Text) :
    child (descend start names) n = descend start (names ++ [n]) := by
  rw [child, descend, descend, List.append_assoc]

/-- What is beneath a directory does not depend on what files hold. -/
theorem Beneath.of_shape (hShape : v.disk.shape = w.disk.shape) (hUnlocked : v.Unlocked)
    (hBeneath : Beneath w o start p) : Beneath v o start p := by
  have hHeld {q : Path} {n : Text} (hHolds : Holds w.disk q n) : Holds v.disk q n := by
    obtain ⟨place, item, hLocate, hFind⟩ := hHolds
    obtain ⟨item', hFind'⟩ := Disk.find?_of_shape hShape hFind
    exact ⟨place, item', Disk.locate_directory_of_shape hShape hLocate, hFind'⟩
  induction hBeneath with
  | entry hHolds => exact .entry (hHeld hHolds)
  | deeper _ hEnterable _ hHolds ih =>
      obtain ⟨place, hLocate⟩ := hEnterable.directory
      exact .deeper ih { hEnterable with directory := ⟨place, Disk.locate_directory_of_shape hShape hLocate⟩ }
        (hUnlocked _) (hHeld hHolds)

/-- A place where a scan from a directory searches for a source file: it has
the name of one, and the directories on the way down are entered. -/
def Searched (o : ScanOptions) (base place : Place) : Prop :=
  ∃ names n, place = base ++ names ++ [n] ∧ (∀ m ∈ names, entersName o m = true) ∧ isSourceName o n = true

/-- Under a name that ends in no extension no source file is searched for,
and so a file that comes there does not matter to a scan. -/
theorem not_searched_of_extensions {name : Text} (hExtensions : ∀ ext ∈ o.extensions, ¬ ext.toList <:+ name.toList)
    (directory : Place) : ¬ Searched o base (directory ++ [name]) := by
  rintro ⟨names, n, hPlace, -, hSource⟩
  obtain rfl : name = n := by simpa using (List.append_inj' hPlace rfl).2
  obtain ⟨ext, hExt, hSuffix⟩ := (isSourceName_iff.mp hSource).1
  exact hExtensions ext hExt hSuffix

/-- What the second world must have of the first for a scan from a start to
come as far in it: the start is the same directory, a directory with entries
is still one, and a file that is searched for is the same. -/
structure Preserves (w v : World) (o : ScanOptions) (start : Path) (base : Place) : Prop where
  proper : w.disk.Proper
  unlocked : v.Unlocked
  source : w.disk.locate true start = .ok (.found base .directory)
  target : v.disk.locate true start = .ok (.found base .directory)
  directory : ∀ place n item, w.disk.find? place = some .directory →
    v.disk.find? (place ++ [n]) = some item → v.disk.find? place = some .directory
  file : ∀ place bytes mtime, Searched o base place → w.disk.find? place = some (.file bytes mtime) →
    v.disk.find? place = some (.file bytes mtime)

namespace Preserves

theorem refl (hProper : w.disk.Proper) (hUnlocked : w.Unlocked)
    (hStart : w.disk.locate true start = .ok (.found base .directory)) (o : ScanOptions) :
    Preserves w w o start base :=
  ⟨hProper, hUnlocked, hStart, hStart, fun _ _ _ hDirectory _ => hDirectory, fun _ _ _ _ hFile => hFile⟩

/-- What is beneath the start is so in the second world too, if there is an
entry at its place. -/
theorem beneath (hPreserves : Preserves w v o start base) (hBeneath : Beneath w o start p) :
    ∃ names n, p = child (descend start names) n ∧ n ≠ ".." ∧ (∀ m ∈ names, entersName o m = true) ∧
      (∃ item, w.disk.find? (base ++ names ++ [n]) = some item) ∧
      w.disk.locate true (descend start names) = .ok (.found (base ++ names) .directory) ∧
      ∀ item, v.disk.find? (base ++ names ++ [n]) = some item → Beneath v o start p ∧
        v.disk.locate true (descend start names) = .ok (.found (base ++ names) .directory) := by
  induction hBeneath with
  | @entry n hHolds =>
      obtain ⟨place, item, hLocate, hFind⟩ := hHolds
      obtain rfl : base = place := by simpa using hPreserves.source.symm.trans hLocate
      refine ⟨[], n, by rw [descend_nil], (hPreserves.proper.of_find? hFind n (by simp)).2, by simp,
        ⟨item, ?_⟩, ?_, ?_⟩
      · rw [List.append_nil, hFind]
      · simpa [descend_nil] using hLocate
      · intro item' hFind'
        rw [List.append_nil] at hFind'
        refine ⟨.entry ⟨base, item', hPreserves.target, hFind'⟩, ?_⟩
        simpa [descend_nil] using hPreserves.target
  | @deeper p n hBeneath hEnterable hOpen hHolds ih =>
      obtain ⟨names, m, rfl, hUp, hNames, -, hParent, hOn⟩ := ih
      obtain ⟨place, hLocate⟩ := hEnterable.directory
      have hEnters : entersName o m = true := by
        obtain ⟨_, hEnters⟩ := hEnterable.enters
        simpa [child, Path.name] using hEnters.name
      have hChild := Disk.locate_child hParent hUp hLocate
      obtain ⟨place', item, hLocate', hFind⟩ := hHolds
      obtain rfl : place = place' := by
        simpa using (Disk.locate_followed hLocate (by simp)).symm.trans hLocate'
      -- the directory stands under its name below the start
      obtain rfl : place = base ++ names ++ [m] := by
        have hPlace := congrArg Disk.Arrival.place (Except.ok.inj (hLocate.symm.trans hChild))
        rwa [Disk.arrivalAt_place] at hPlace
      have hThere := Disk.find?_of_locate hLocate
      rw [child_descend] at hLocate' ⊢
      refine ⟨names ++ [m], n, rfl, (hPreserves.proper.of_find? hFind n (by simp)).2, ?_, ⟨item, ?_⟩, ?_, ?_⟩
      · exact List.forall_mem_append.mpr ⟨hNames, by simpa using hEnters⟩
      · rw [← List.append_assoc, hFind]
      · rw [hLocate', List.append_assoc]
      · intro item' hFind'
        rw [← List.append_assoc] at hFind' ⊢
        have hDirectory := hPreserves.directory _ _ _ hThere hFind'
        obtain ⟨hBeneath', hParent'⟩ := hOn _ hDirectory
        have hLater := Disk.locate_child hParent' hUp hLocate
        rw [Disk.arrivalAt_found hDirectory] at hLater
        have hFollowed := Disk.locate_followed hLater (by simp)
        rw [child_descend] at hBeneath' hLater hFollowed
        refine ⟨.deeper hBeneath' ⟨⟨_, hLater⟩, ?_, ?_⟩ (hPreserves.unlocked _) ⟨_, _, hFollowed, hFind'⟩, hFollowed⟩
        · rw [← child_descend]
          exact hEnterable.visible
        · rw [← child_descend]
          exact hEnterable.included

/-- A source file beneath the start is the same file in the second world. -/
theorem regular (hPreserves : Preserves w v o start base) (hBeneath : Beneath w o start p)
    (hName : isSourceName o p.name = true) {place : Place} {bytes : List UInt8} {mtime : Int}
    (hLocate : w.disk.locate false p = .ok (.found place (.file bytes mtime))) :
    Beneath v o start p ∧ v.disk.locate false p = .ok (.found place (.file bytes mtime)) := by
  obtain ⟨names, n, rfl, hUp, hNames, -, hParent, hOn⟩ := hPreserves.beneath hBeneath
  have hChild := Disk.locate_child hParent hUp hLocate
  obtain rfl : place = base ++ names ++ [n] := by
    have hPlace := congrArg Disk.Arrival.place (Except.ok.inj (hLocate.symm.trans hChild))
    rwa [Disk.arrivalAt_place] at hPlace
  have hSearched : Searched o base (base ++ names ++ [n]) :=
    ⟨names, n, rfl, hNames, by simpa [child, Path.name] using hName⟩
  have hThere := hPreserves.file _ _ _ hSearched (Disk.find?_of_locate hLocate)
  obtain ⟨hBeneath', hParent'⟩ := hOn _ hThere
  refine ⟨hBeneath', ?_⟩
  rw [Disk.locate_child hParent' hUp hLocate, Disk.arrivalAt_found hThere]

/-- What is wanted of the first world is so of the second. -/
theorem wanted (hPreserves : Preserves w v o start base) (hBeneath : Beneath w o start p)
    (hWanted : Wanted w.disk o ignoring root p) :
    Beneath v o start p ∧ Wanted v.disk o ignoring root p := by
  have hName := isSourceName_iff.mpr ⟨hWanted.extension, hWanted.noTest⟩
  obtain ⟨place, bytes, mtime, hLocate⟩ := hWanted.file
  obtain ⟨hBeneath', hLocate'⟩ := hPreserves.regular hBeneath hName hLocate
  exact ⟨hBeneath', { hWanted with file := ⟨place, bytes, mtime, hLocate'⟩ }⟩

end Preserves

/-- Where the system takes the paths of all entries, it takes those beneath
a directory that stands at the place its path names. -/
theorem short_of_entries (hProper : w.disk.Proper) (hUnlocked : w.Unlocked)
    (hStart : w.disk.locate true start = .ok (.found start.parts .directory))
    (hEntries : ∀ e ∈ w.disk.entries, w.disk.locate true ⟨start.anchor, e.1⟩ ≠ .error (.errno .nameTooLong))
    (hBeneath : Beneath w o start p) : w.disk.locate true p ≠ .error (.errno .nameTooLong) := by
  obtain ⟨names, n, rfl, -, -, ⟨_, hFind⟩, -⟩ := (Preserves.refl hProper hUnlocked hStart o).beneath hBeneath
  rw [Disk.find?, if_neg (by simp)] at hFind
  exact hEntries _ (Assoc.mem_of_get? hFind)

/-- From the first disk to the second no directory goes, and no file that is
searched for comes, goes or changes. -/
structure Spares (o : ScanOptions) (base : Place) (d d' : Disk) : Prop where
  directory : ∀ p, d.find? p = some .directory → d'.find? p = some .directory
  file : ∀ p bytes mtime, Searched o base p →
    (d'.find? p = some (.file bytes mtime) ↔ d.find? p = some (.file bytes mtime))

namespace Spares

variable {d d' d'' : Disk}

theorem refl (o : ScanOptions) (base : Place) (d : Disk) : Spares o base d d :=
  ⟨fun _ => id, fun _ _ _ _ => Iff.rfl⟩

theorem trans (hFirst : Spares o base d d') (hSecond : Spares o base d' d'') : Spares o base d d'' where
  directory p hDirectory := hSecond.directory p (hFirst.directory p hDirectory)
  file p bytes mtime hSearched :=
    (hSecond.file p bytes mtime hSearched).trans (hFirst.file p bytes mtime hSearched)

/-- Directories that come where nothing was are no files, and nothing is in
them yet that a scan could find. -/
theorem of_directories (hMade : ∀ p, d'.find? p = d.find? p ∨ d.find? p = none ∧ d'.find? p = some .directory) :
    Spares o base d d' where
  directory p hDirectory := by
    rcases hMade p with hSame | ⟨-, hNew⟩
    · rw [hSame, hDirectory]
    · exact hNew
  file p bytes mtime _ := by
    rcases hMade p with hSame | ⟨hNone, hNew⟩
    · rw [hSame]
    · simp [hNone, hNew]

/-- A file may be written where none is searched for, unless it would
replace a directory. -/
theorem put {place : Place} (hAside : ¬ Searched o base place) (hNoDirectory : d.find? place ≠ some .directory)
    (bytes : List UInt8) (mtime : Int) : Spares o base d (d.put place (.file bytes mtime)) where
  directory p hDirectory := by
    rw [Disk.find?_put_of_ne, hDirectory]
    rintro rfl
    exact hNoDirectory hDirectory
  file p bytes' mtime' hSearched := by
    rw [Disk.find?_put_of_ne]
    rintro rfl
    exact hAside hSearched

/-- A scan from a directory that is still there comes as far as before, and
the other way round. -/
theorem preserves (hSpares : Spares o base w.disk v.disk) (hProper : w.disk.Proper) (hGrounded : w.disk.Grounded)
    (hUnlocked : w.Unlocked) (hProper' : v.disk.Proper) (hUnlocked' : v.Unlocked)
    (hStart : w.disk.locate true start = .ok (.found base .directory))
    (hStart' : v.disk.locate true start = .ok (.found base .directory)) :
    Preserves w v o start base ∧ Preserves v w o start base :=
  ⟨⟨hProper, hUnlocked', hStart, hStart', fun place _ _ hDirectory _ => hSpares.directory place hDirectory,
      fun place bytes mtime hSearched => (hSpares.file place bytes mtime hSearched).mpr⟩,
    ⟨hProper', hUnlocked, hStart', hStart, fun _ _ _ _ hFind => hGrounded.directory hFind,
      fun place bytes mtime hSearched => (hSpares.file place bytes mtime hSearched).mp⟩⟩

end Spares

/-- A source file whose ignore rules were applied. -/
theorem applied_of_isSource {b : Bool} {u u' : World} (hProper : u.disk.Proper) (hAnchor : start.isAbsolute = true)
    (hWalked : Walked u.disk o start p) (hRun : (isSource o ignoring start p).on u = (.ok b, u'))
    (hName : isSourceName o p.name = true) (hLink : u.disk.isLink p = .ok false)
    (hFile : u.disk.isFile p = .ok true) : ∃ ignored, IgnoreFile.anyIgnores p ignoring = .ok ignored := by
  have hAbsolute := join_walked hAnchor hWalked u.here
  obtain ⟨place, bytes, mtime, hLocate⟩ := Disk.found_of_isFile hFile
  have hLinkAsk : (Action.isLink p).on u = (.ok false, u) := by
    rw [Action.isLink, ask_on, hAbsolute, hLink]
  have hFileAsk : (Action.isFile p).on u = (.ok true, u) := by
    rw [Action.isFile, ask_on, hAbsolute, hFile]
  rw [isSource, if_neg (by simpa using hName), on_bind_ok hLinkAsk] at hRun
  simp only [Bool.false_eq_true, if_false] at hRun
  rw [on_bind_ok hFileAsk] at hRun
  simp only [Bool.not_true, Bool.false_eq_true, if_false] at hRun
  rw [on_bind_ok (isWithin_walked hProper hAnchor hWalked hLink hLocate)] at hRun
  rcases hIgnores : IgnoreFile.anyIgnores p ignoring with e | ignored
  · simp only [hIgnores] at hRun
    cases hRun
  · exact ⟨ignored, rfl⟩

theorem each_of_mapM {α β : Type} {f : α → Action β} (hLooks : ∀ x, Looks (f x)) {xs : List α} {ys : List β}
    {u u' : World} (hRun : (xs.mapM f).on u = (.ok ys, u')) :
    ∀ x ∈ xs, ∃ y v v', u.Looked v ∧ (f x).on v = (.ok y, v') := by
  induction xs generalizing u u' ys with
  | nil => simp
  | cons x xs ih =>
      rw [List.mapM_cons] at hRun
      obtain ⟨y, v, hFirst, hRest⟩ := of_on_bind hRun
      obtain ⟨zs, v', hOthers, -⟩ := of_on_bind hRest
      intro z hz
      rcases List.mem_cons.mp hz with rfl | hz
      · exact ⟨y, u, v, .refl u, hFirst⟩
      · obtain ⟨y', v₁, v₂, hLooked, hEach⟩ := ih hOthers z hz
        exact ⟨y', v₁, v₂, ((hLooks x).run hFirst).trans hLooked, hEach⟩

/-- The scan of an entry that gave a result was stuck nowhere. -/
theorem clear_of_entry (hProper : w.disk.Proper)
    (hStart : w.disk.locate true start = .ok (.found base .directory)) (hAnchor : start.isAbsolute = true)
    (depth : Nat) (hBeneath : Beneath w o start p)
    (hDepth : start.parts.length + w.disk.entries.length < p.parts.length + depth) {u u' : World}
    (hLooked : w.Looked u) (hRun : (entry o ignoring start depth p).on u = (.ok s, u')) :
    ∀ q, Met w o p q → ¬ Stuck w.disk o ignoring q := by
  induction depth generalizing p s u u' with
  | zero =>
      have hBound := (hBeneath.walked hProper).depth_le hProper hStart
      omega
  | succ depth ih =>
      have hAbsolute := join_walked hAnchor (hBeneath.walked hProper)
      rw [entry] at hRun
      obtain ⟨directory, u₁, hAsk, hRest⟩ := of_on_bind hRun
      obtain ⟨hTest, rfl⟩ : w.disk.isDirectory p = .ok directory ∧ u = u₁ := by
        rw [Action.isDirectory, ask_on, hAbsolute, hLooked.disk] at hAsk
        split at hAsk
        · next hTest => simpa [hTest] using hAsk
        · cases hAsk
      rintro q (rfl | ⟨hEnterable, hOpen, hBelow⟩)
      · rintro (hLong | ⟨hName, hLink, hFile, e, hIgnores⟩)
        · cases hTest.symm.trans (Disk.test_eq_error_iff.mpr ⟨rfl, hLong⟩)
        · have hNo : directory = false := by
            obtain ⟨place, bytes, mtime, hLocate⟩ := Disk.found_of_isFile hFile
            rw [Disk.isDirectory, Disk.test_of_locate hLocate] at hTest
            exact (Except.ok.inj hTest).symm
          subst hNo
          obtain ⟨b, u₂, hSource, -⟩ := of_on_bind hRest
          have hWalked := hBeneath.walked hProper
          rw [← hLooked.disk] at hProper hWalked hLink hFile
          obtain ⟨ignored, hApplied⟩ := applied_of_isSource hProper hAnchor hWalked hSource hName hLink hFile
          cases hIgnores.symm.trans hApplied
      · -- the scan went into the directory
        obtain ⟨place, hEnters⟩ := hEnterable.enters
        obtain rfl : directory = true := Except.ok.inj (hTest.symm.trans hEnterable.isDirectory)
        have hLinkAsk : (Action.isLink p).on u = (.ok false, u) := by
          rw [Action.isLink, ask_on, hAbsolute, hLooked.disk, hEnters.noLink]
        have hListing := listing_open (hAbsolute u.here) (hLooked.disk.symm ▸ hEnters.directory)
          (hLooked.locks _ hOpen)
        simp only [if_true, hEnters.name, Bool.not_true, Bool.false_eq_true, if_false] at hRest
        rw [on_bind_ok hLinkAsk] at hRest
        simp only [Bool.false_eq_true, if_false] at hRest
        rw [on_bind_ok hListing] at hRest
        obtain ⟨parts, u₂, hParts, -⟩ := of_on_bind hRest
        obtain ⟨n, hHolds, hMet⟩ := beneath_iff.mp hBelow
        obtain ⟨place', item, hLocate, hFind⟩ := id hHolds
        obtain rfl : place = place' := by simpa using hEnters.directory.symm.trans hLocate
        obtain ⟨s', v, v', hLooked', hEach⟩ := each_of_mapM (looks_entry _ _ _ _) hParts (child p n)
          (List.mem_map_of_mem (hLooked.disk.symm ▸ (Disk.mem_names_iff hProper).mpr ⟨item, hFind⟩))
        apply ih (.deeper hBeneath hEnterable hOpen hHolds) _ (hLooked.trans hLooked') hEach q hMet
        simp only [child, List.length_append, List.length_singleton]
        omega

/-- How a scan begins: at its root, which is a directory at a place, with
the ignore files there. -/
structure Begins (w : World) (o : ScanOptions) (root start : Path) (base : Place)
    (ignoring : List IgnoreFile) : Prop where
  resolved : w.here.resolve w.disk root = .ok start
  directory : w.disk.locate true start = .ok (.found base .directory)
  rules : ((ignoreFiles o start).on w).1 = .ok ignoring

namespace Begins

theorem absolute (hBegins : Begins w o root start base ignoring) : start.isAbsolute = true :=
  Standpoint.resolve_isAbsolute hBegins.resolved

theorem project_on (hBegins : Begins w o root start base ignoring) (hUnlocked : w.Unlocked) :
    (project o root).on w = (walk o ⟨start, (w.disk.names base).map (child start), ignoring⟩).on w := by
  have hRules : (ignoreFiles o start).on w = (.ok ignoring, ((ignoreFiles o start).on w).2) :=
    Prod.ext hBegins.rules rfl
  rw [project_eq, on_bind_ok (opening_on hBegins.resolved hBegins.directory (hUnlocked _) hRules)]

/-- A scan that is stuck nowhere is exact: it gives what is wanted beneath
its start, each once and in order. -/
theorem exact (hBegins : Begins w o root start base ignoring) (hProper : w.disk.Proper) (hUnlocked : w.Unlocked)
    (hClear : ∀ p, Beneath w o start p → ¬ Stuck w.disk o ignoring p) :
    ∃ found w', (project o root).on w = (.ok (start, found), w') ∧
      Exact w o ignoring start (Beneath w o start) found := by
  rw [hBegins.project_on hUnlocked]
  exact walk_exact hProper hBegins.directory hBegins.absolute
    (Standpoint.resolve_named hProper hBegins.resolved hBegins.directory) hClear

/-- A scan that gave a result was stuck nowhere, for the first entry where
it is stuck would have stopped it. -/
theorem clear (hBegins : Begins w o root start base ignoring) (hProper : w.disk.Proper) (hUnlocked : w.Unlocked)
    {found : Path × Scan} {w' : World} (hRun : (project o root).on w = (.ok found, w'))
    (hBeneath : Beneath w o start p) : ¬ Stuck w.disk o ignoring p := by
  rw [hBegins.project_on hUnlocked, walk, on_bind_ok (on_get w)] at hRun
  obtain ⟨parts, u, hParts, -⟩ := of_on_bind hRun
  obtain ⟨n, hHolds, hMet⟩ := beneath_iff.mp hBeneath
  obtain ⟨place, item, hLocate, hFind⟩ := id hHolds
  obtain rfl : base = place := by simpa using hBegins.directory.symm.trans hLocate
  obtain ⟨s, v, v', hLooked, hEach⟩ := each_of_mapM (looks_entry _ _ _ _) hParts (child start n)
    (List.mem_map_of_mem ((Disk.mem_names_iff hProper).mpr ⟨item, hFind⟩))
  apply clear_of_entry hProper hBegins.directory hBegins.absolute _ (.entry hHolds) _ hLooked hEach p hMet
  simp only [child, List.length_append, List.length_singleton]
  omega

end Begins

/-- Where nothing is locked, the wanted files among the entries
decide on the scan. -/
theorem Exact.unique {among others : Path → Prop} {t : Scan} (hFirst : Exact w o ignoring root among s)
    (hSecond : Exact v o ignoring root others t) (hUnlocked : w.Unlocked) (hUnlocked' : v.Unlocked)
    (hSame : ∀ p, among p ∧ Wanted w.disk o ignoring root p ↔ others p ∧ Wanted v.disk o ignoring root p) :
    s = t := by
  have hNodup {u : World} {among : Path → Prop} {s : Scan} (hExact : Exact u o ignoring root among s) :
      s.files.Nodup := by
    apply hExact.ordered.imp
    rintro p q hLess rfl
    exact lt_irrefl _ hLess
  have hFaults {u : World} {among : Path → Prop} {s : Scan} (hExact : Exact u o ignoring root among s)
      (hOpen : u.Unlocked) : s.faults = [] := by
    obtain ⟨blocked, hFaults, hMem, -⟩ := hExact.faults
    rw [hFaults, List.map_eq_nil_iff, List.eq_nil_iff_forall_not_mem]
    intro p hp
    exact ((hMem p).mp hp).2.locked (hOpen _)
  have hPerm : s.files.Perm t.files := by
    rw [List.perm_ext_iff_of_nodup (hNodup hFirst) (hNodup hSecond)]
    intro p
    rw [hFirst.files, hSecond.files, hSame]
  have hFiles : s.files = t.files := by
    apply hPerm.eq_of_pairwise _ hFirst.ordered hSecond.ordered
    intro p q _ _ hLess hMore
    exact absurd hMore (lt_asymm hLess)
  have hNone := (hFaults hFirst hUnlocked).trans (hFaults hSecond hUnlocked').symm
  cases s
  cases t
  simp_all

/-- A scan gives what it gave before if its start, its entries and its files
are what they were, but for what stands where no source file is searched
for, and if no entry that has come is too long. -/
theorem project_again (hForth : Preserves w v o start base) (hBack : Preserves v w o start base)
    (hBegins : Begins w o root start base ignoring) (hAgain : Begins v o root start base ignoring)
    (hShort : ∀ p, Beneath v o start p → v.disk.locate true p ≠ .error (.errno .nameTooLong))
    {found : Path × Scan} {w' : World} (hRun : (project o root).on w = (.ok found, w')) :
    (∃ v', (project o root).on v = (.ok found, v')) ∧ ∀ p ∈ found.2.files, ∃ place bytes mtime,
      w.disk.locate true p = .ok (.found place (.file bytes mtime)) ∧
      v.disk.locate true p = .ok (.found place (.file bytes mtime)) := by
  have hStays : ∀ p, Beneath v o start p → ¬ Stuck v.disk o ignoring p := by
    rintro p hBeneath (hLong | ⟨hName, hLink, hFile, hRefused⟩)
    · exact hShort p hBeneath hLong
    · -- a source file was there before, and the rules were applied to it
      obtain ⟨place, bytes, mtime, hLocate⟩ := Disk.found_of_isFile hFile
      have hThere := Disk.locate_of_no_link hLocate hLink
      obtain ⟨hBefore, hLocate'⟩ := hBack.regular hBeneath hName hThere
      refine hBegins.clear hForth.proper hBack.unlocked hRun hBefore (.inr ⟨hName, ?_, ?_, hRefused⟩)
      · rw [Disk.isLink, Disk.test_of_locate hLocate']
      · rw [Disk.isFile, Disk.test_of_locate (Disk.locate_followed hLocate' (by simp))]
  obtain ⟨s, w'', hRun', hExact⟩ := hBegins.exact hForth.proper hBack.unlocked
    fun p hBeneath => hBegins.clear hForth.proper hBack.unlocked hRun hBeneath
  obtain rfl := Except.ok.inj (Prod.mk.inj (hRun.symm.trans hRun')).1
  obtain ⟨t, v', hRun'', hExact'⟩ := hAgain.exact hBack.proper hForth.unlocked hStays
  obtain rfl : s = t := by
    apply hExact.unique hExact' hBack.unlocked hForth.unlocked
    intro p
    constructor
    · rintro ⟨hBeneath, hWanted⟩
      exact hForth.wanted hBeneath hWanted
    · rintro ⟨hBeneath, hWanted⟩
      exact hBack.wanted hBeneath hWanted
  refine ⟨⟨v', hRun''⟩, ?_⟩
  intro p hp
  obtain ⟨hBeneath, hWanted⟩ := (hExact.files p).mp hp
  obtain ⟨place, bytes, mtime, hLocate⟩ := hWanted.file
  obtain ⟨-, hLocate'⟩ := hForth.regular hBeneath (isSourceName_iff.mpr ⟨hWanted.extension, hWanted.noTest⟩) hLocate
  exact ⟨place, bytes, mtime, Disk.locate_followed hLocate (by simp), Disk.locate_followed hLocate' (by simp)⟩

end SourceAtlas.Scan
