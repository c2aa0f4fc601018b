import SourceAtlas.Proofs.Walk

/-!
A scan gives exactly the files that its options ask for, in order. It comes to every entry of its
root and of the directories that it enters and can list; of these it gives the regular files with a
fitting name that are not ignored, and it reports the directories that it cannot list.
-/
namespace SourceAtlas

/-- In the order of names, what lies below one entry comes before what lies
below a later one. -/
theorem lt_of_prefix_lt {common a b : List Text} {m n : Text} (hLt : m < n)
    (ha : common ++ [m] <+: a) (hb : common ++ [n] <+: b) : a < b := by
  obtain ⟨x, rfl⟩ := ha
  obtain ⟨y, rfl⟩ := hb
  induction common with
  | nil => exact .rel hLt
  | cons c common ih => exact .cons ih

namespace Disk

variable {d : Disk} {place : Place} {n : Text}

/-- A directory has exactly the names of the entries below it. -/
theorem mem_names_iff (hProper : d.Proper) :
    n ∈ d.names place ↔ ∃ item, d.find? (place ++ [n]) = some item := by
  constructor
  · intro hName
    obtain ⟨e, he, hKey⟩ := mem_names hName
    refine ⟨e.2, ?_⟩
    rw [find?, if_neg (by simp), ← hKey, Assoc.get?_eq_some_iff hProper.keys]
    exact he
  · rintro ⟨item, hFind⟩
    rw [find?, if_neg (by simp)] at hFind
    rw [names, Sorting.mem_sort, List.mem_filterMap]
    exact ⟨_, Assoc.mem_of_get? hFind, by simp⟩

/-- The names in a directory are listed in their order, each once. -/
theorem names_sorted (hProper : d.Proper) (place : Place) : (d.names place).Pairwise (· < ·) := by
  have hNodup := names_nodup hProper place
  rw [names, (Sorting.sort_perm _ _).nodup_iff, ← List.map_id (d.entries.filterMap _)] at hNodup
  have hSorted := Sorting.sort_strict hNodup
  rw [List.map_id] at hSorted
  exact hSorted

end Disk

namespace Scan

open SourceAtlas.Action

/-- The directory that a path leads to has an entry of this name. -/
def Holds (d : Disk) (p : Path) (n : Text) : Prop :=
  ∃ place item, d.locate true p = .ok (.found place .directory) ∧ d.find? (place ++ [n]) = some item

/-- A directory to go into: it is no link, and its name is neither hidden
nor excluded. -/
structure Enterable (d : Disk) (o : ScanOptions) (p : Path) : Prop where
  directory : ∃ place, d.locate false p = .ok (.found place .directory)
  visible : ¬ [Sign.char '.'] <+: p.name.toList
  included : p.name ∉ o.excludeDirs

/-- The entries below a directory that are reached by directories
that can be listed. -/
inductive Beneath (w : World) (o : ScanOptions) (p : Path) : Path → Prop where
  | entry {n : Text} (hHolds : Holds w.disk p n) : Beneath w o p (child p n)
  | deeper {q : Path} {n : Text} (hBeneath : Beneath w o p q) (hEnterable : Enterable w.disk o q)
      (hOpen : w.OpenAt q.text) (hHolds : Holds w.disk q n) : Beneath w o p (child q n)

/-- A file that the options ask for: regular, with the name of a source file
and not of a test, and neither ignored nor excluded. -/
structure Wanted (d : Disk) (o : ScanOptions) (ignoring : List IgnoreFile) (root p : Path) : Prop where
  file : ∃ place bytes mtime, d.locate false p = .ok (.found place (.file bytes mtime))
  extension : ∃ ext ∈ o.extensions, ext.toList <:+ p.name.toList
  noTest : ∀ ext ∈ o.extensions, ∀ suffix ∈ o.testSuffixes, ¬ (suffix ++ ext).toList <:+ p.name.toList
  notIgnored : IgnoreFile.anyIgnores p ignoring = .ok false
  notExcluded : ∀ pattern ∈ o.exclude, Pattern.Glob.matches_ pattern (p.relativeText root) = false

/-- A directory to go into that cannot be listed. -/
structure Blocked (w : World) (o : ScanOptions) (p : Path) : Prop where
  enterable : Enterable w.disk o p
  locked : ¬ w.OpenAt p.text

/-- What is reported of a directory that cannot be listed. -/
def faultOf (p : Path) : ScanFault :=
  ⟨"Cannot read directory " ++ p.text ++ ": " ++ "Permission denied", p.text⟩

/-- A scan gives exactly the wanted files among some entries and reports
exactly the blocked directories among them, both in order of their names. -/
structure Exact (w : World) (o : ScanOptions) (ignoring : List IgnoreFile) (root : Path)
    (among : Path → Prop) (s : Scan) : Prop where
  files : ∀ p, p ∈ s.files ↔ among p ∧ Wanted w.disk o ignoring root p
  ordered : s.files.Pairwise fun p q => p.parts < q.parts
  faults : ∃ blocked : List Path, s.faults = blocked.map faultOf ∧
    (∀ p, p ∈ blocked ↔ among p ∧ Blocked w o p) ∧ blocked.Pairwise fun p q => p.parts < q.parts

variable {w v : World} {o : ScanOptions} {ignoring : List IgnoreFile} {root start p q : Path} {n : Text}
  {among others : Path → Prop} {s t : Scan}

/-- A directory is gone into if its name neither starts with a point nor is
among those that the options exclude. -/
theorem entersName_iff {name : Text} :
    entersName o name = true ↔ ¬ [Sign.char '.'] <+: name.toList ∧ name ∉ o.excludeDirs := by
  simp [entersName, Text.startsWith, ← List.isPrefixOf_iff_prefix]

/-- The name of a source file ends with one of the extensions, and does
not end with a suffix of tests before one of them. -/
theorem isSourceName_iff {name : Text} : isSourceName o name = true ↔
    (∃ ext ∈ o.extensions, ext.toList <:+ name.toList) ∧
      ∀ ext ∈ o.extensions, ∀ suffix ∈ o.testSuffixes, ¬ (suffix ++ ext).toList <:+ name.toList := by
  simp [isSourceName, isTestName, Text.endsWith, ← List.isSuffixOf_iff_suffix]

/-- A file is excluded by a pattern that matches the text of its path, and
by nothing else. -/
theorem isExcluded_eq_false_iff {relative : Text} :
    isExcluded o relative = false ↔ ∀ pattern ∈ o.exclude, Pattern.Glob.matches_ pattern relative = false := by
  simp [isExcluded]

/-- A directory to go into is one of those that the walk enters. -/
theorem Enterable.enters (hEnterable : Enterable w.disk o p) : ∃ place, Enters w.disk o p place := by
  obtain ⟨place, hLocate⟩ := hEnterable.directory
  refine ⟨place, Disk.locate_followed hLocate (by simp), ?_, ?_⟩
  · exact entersName_iff.mpr ⟨hEnterable.visible, hEnterable.included⟩
  · rw [Disk.isLink, Disk.test_of_locate hLocate]

/-- Of a path that leads to a directory it is its name and whether it is a
link that decide whether it is gone into. -/
theorem enterable_iff {place : Place} (hLocate : w.disk.locate true p = .ok (.found place .directory)) :
    Enterable w.disk o p ↔ entersName o p.name = true ∧ w.disk.isLink p = .ok false := by
  constructor
  · intro hEnterable
    obtain ⟨place, hEnters⟩ := hEnterable.enters
    exact ⟨hEnters.name, hEnters.noLink⟩
  · rintro ⟨hName, hNoLink⟩
    obtain ⟨hVisible, hIncluded⟩ := entersName_iff.mp hName
    exact ⟨⟨place, Disk.locate_of_no_link hLocate hNoLink⟩, hVisible, hIncluded⟩

/-- What a path leads to decides whether it is a wanted file or a directory
to go into. -/
theorem Wanted.isDirectory (hWanted : Wanted w.disk o ignoring root p) : w.disk.isDirectory p = .ok false := by
  obtain ⟨place, bytes, mtime, hLocate⟩ := hWanted.file
  rw [Disk.isDirectory, Disk.test_of_locate (Disk.locate_followed hLocate (by simp))]

/-- What is gone into is a directory by the test as well. -/
theorem Enterable.isDirectory (hEnterable : Enterable w.disk o p) : w.disk.isDirectory p = .ok true := by
  obtain ⟨place, hLocate⟩ := hEnterable.directory
  rw [Disk.isDirectory, Disk.test_of_locate (Disk.locate_followed hLocate (by simp))]

/-- Whether a file that is walked belongs to the scan is what the options
say, unless the scan is stuck there. -/
theorem isSource_on (hProper : v.disk.Proper) (hStart : start.isAbsolute = true) (hWalked : Walked v.disk o start p)
    (hClear : ¬ Stuck v.disk o ignoring p) :
    ∃ b, (isSource o ignoring start p).on v = (.ok b, v) ∧
      (b = true ↔ Wanted v.disk o ignoring start p) := by
  have hAbsolute := join_walked hStart hWalked v.here
  have hShort : v.disk.locate true p ≠ .error (.errno .nameTooLong) := fun hLong => hClear (.inl hLong)
  obtain ⟨link, hLink⟩ : ∃ b, v.disk.isLink p = .ok b := Disk.exists_test hShort false _
  obtain ⟨file, hFile⟩ : ∃ b, v.disk.isFile p = .ok b := Disk.exists_test hShort true _
  have hLinkAsk : (Action.isLink p).on v = (.ok link, v) := by
    rw [Action.isLink, ask_on, hAbsolute, hLink]
  have hFileAsk : (Action.isFile p).on v = (.ok file, v) := by
    rw [Action.isFile, ask_on, hAbsolute, hFile]
  have hIsFile (hWanted : Wanted v.disk o ignoring start p) : link = false ∧ file = true := by
    obtain ⟨place, bytes, mtime, hLocate⟩ := hWanted.file
    rw [Disk.isLink, Disk.test_of_locate hLocate] at hLink
    rw [Disk.isFile, Disk.test_of_locate (Disk.locate_followed hLocate (by simp))] at hFile
    exact ⟨(Except.ok.inj hLink).symm, (Except.ok.inj hFile).symm⟩
  rw [isSource]
  by_cases hName : isSourceName o p.name = true
  · rw [if_neg (by simpa using hName), on_bind_ok hLinkAsk]
    cases link with
    | true =>
        refine ⟨false, rfl, by simp, fun hWanted => ?_⟩
        cases (hIsFile hWanted).1
    | false =>
        simp only [Bool.false_eq_true, if_false]
        rw [on_bind_ok hFileAsk]
        cases file with
        | false =>
            refine ⟨false, rfl, by simp, fun hWanted => ?_⟩
            cases (hIsFile hWanted).2
        | true =>
            simp only [Bool.not_true, Bool.false_eq_true, if_false]
            obtain ⟨place, bytes, mtime, hLocate⟩ := Disk.found_of_isFile hFile
            obtain ⟨hExtension, hNoTest⟩ := isSourceName_iff.mp hName
            have hRegular : ∃ place bytes mtime, v.disk.locate false p = .ok (.found place (.file bytes mtime)) :=
              ⟨place, bytes, mtime, Disk.locate_of_no_link hLocate hLink⟩
            rw [on_bind_ok (isWithin_walked hProper hStart hWalked hLink hLocate)]
            simp only [Bool.not_true, Bool.false_eq_true, if_false]
            rcases hIgnores : IgnoreFile.anyIgnores p ignoring with e | b
            · exact absurd (.inr ⟨hName, hLink, hFile, e, hIgnores⟩) hClear
            · cases b with
              | true =>
                  refine ⟨false, rfl, by simp, fun hWanted => ?_⟩
                  cases hIgnores.symm.trans hWanted.notIgnored
              | false =>
                  refine ⟨!isExcluded o (p.relativeText start), rfl, ?_⟩
                  rw [Bool.not_eq_true', isExcluded_eq_false_iff]
                  exact ⟨fun hExcluded => ⟨hRegular, hExtension, hNoTest, hIgnores, hExcluded⟩,
                    fun hWanted => hWanted.notExcluded⟩
  · rw [if_pos (by simpa using hName)]
    refine ⟨false, rfl, by simp, fun hWanted => ?_⟩
    exact absurd (isSourceName_iff.mpr ⟨hWanted.extension, hWanted.noTest⟩) hName

/-- A directory that can be opened is listed as its names on the disk,
without any change of the world. -/
theorem listing_open {place : Place} (hAbsolute : v.here.join p = p)
    (hLocate : v.disk.locate true p = .ok (.found place .directory)) (hOpen : v.OpenAt p.text) :
    (listing p).on v = (.ok (.ok ((v.disk.names place).map (child p))), v) := by
  have hEntry : (Action.entry p).on v = (.ok (place, .directory), v) := by
    rw [entry_on, hAbsolute, Disk.entry_eq_ok_iff.mpr hLocate]
  have hNames : (listNames p).on v = (.ok (v.disk.names place), v) := by
    rw [listNames, on_bind_ok (tryLock_open (hAbsolute.symm ▸ hOpen)), on_bind_ok hEntry]
    rfl
  have hAttempt := on_attempt (listNames p) v
  rw [hNames] at hAttempt
  rw [listing, on_bind_ok hAttempt]
  rfl

/-- Where a directory is locked, the listing reports it, and at most this
lock wears off. -/
theorem listing_locked (hAbsolute : v.here.join p = p) (hLocked : ¬ v.OpenAt p.text) :
    ∃ v', (listing p).on v = (.ok (.error (faultOf p)), v') ∧ v'.disk = v.disk ∧ v'.here = v.here ∧
      ∀ key, key ≠ p.text → v'.locks.lookup key = v.locks.lookup key := by
  have hLock := tryLock_on p v
  rw [hAbsolute] at hLock
  cases hLookup : v.locks.lookup p.text with
  | none =>
      refine absurd (fun n hn => ?_) hLocked
      rw [hLookup] at hn
      cases hn
  | some n =>
      have hNonzero : n ≠ 0 := by
        intro hZero
        refine absurd (fun m hm => ?_) hLocked
        rw [hLookup] at hm
        exact (Option.some.inj hm).symm.trans hZero
      rw [hLookup] at hLock
      simp only [if_neg hNonzero] at hLock
      have hAttempt := on_attempt (listNames p) v
      rw [listNames, on_bind_error hLock] at hAttempt
      refine ⟨_, by rw [listing, listNames, on_bind_ok hAttempt]; rfl, ?_⟩
      split
      · exact ⟨rfl, rfl, fun key hKey => lookup_wornOff hKey _⟩
      · exact ⟨rfl, rfl, fun key _ => rfl⟩

/-- Nothing found is exact where nothing is wanted and nothing blocked. -/
theorem exact_empty (hNone : ∀ p, among p → ¬ Wanted w.disk o ignoring root p ∧ ¬ Blocked w o p) :
    Exact w o ignoring root among {} where
  files p := by
    constructor
    · nofun
    · rintro ⟨hAmong, hWanted⟩
      exact absurd hWanted (hNone p hAmong).1
  ordered := .nil
  faults := by
    refine ⟨[], rfl, fun p => ⟨by simp, ?_⟩, .nil⟩
    rintro ⟨hAmong, hBlocked⟩
    exact absurd hBlocked (hNone p hAmong).2

/-- Only the wanted files and the blocked directories among
the entries matter. -/
theorem Exact.congr (hExact : Exact w o ignoring root among s)
    (hSame : ∀ p, Wanted w.disk o ignoring root p ∨ Blocked w o p → (among p ↔ others p)) :
    Exact w o ignoring root others s where
  files p := (hExact.files p).trans (and_congr_left fun hWanted => hSame p (.inl hWanted))
  ordered := hExact.ordered
  faults := by
    obtain ⟨blocked, hFaults, hMem, hOrdered⟩ := hExact.faults
    refine ⟨blocked, hFaults, fun p => ?_, hOrdered⟩
    exact (hMem p).trans (and_congr_left fun hBlocked => hSame p (.inr hBlocked))

/-- A file that is wanted is the exact scan of itself. -/
theorem exact_file (hWanted : Wanted w.disk o ignoring root p) (hFree : ¬ Blocked w o p) :
    Exact w o ignoring root (· = p) ⟨[p], []⟩ where
  files q := by
    rw [List.mem_singleton]
    exact ⟨fun hEq => ⟨hEq, hEq ▸ hWanted⟩, fun hBoth => hBoth.1⟩
  ordered := List.pairwise_singleton _ _
  faults := by
    refine ⟨[], rfl, fun q => ⟨by simp, ?_⟩, .nil⟩
    rintro ⟨hEq, hBlocked⟩
    exact absurd (hEq ▸ hBlocked) hFree

/-- A directory that cannot be listed is the exact scan of itself, with the
one fault that it gives. -/
theorem exact_fault (hBlocked : Blocked w o p) (hOther : ¬ Wanted w.disk o ignoring root p) :
    Exact w o ignoring root (· = p) ⟨[], [faultOf p]⟩ where
  files q := by
    constructor
    · nofun
    · rintro ⟨hEq, hWanted⟩
      exact absurd (hEq ▸ hWanted) hOther
  ordered := .nil
  faults := by
    refine ⟨[p], rfl, fun q => ?_, List.pairwise_singleton _ _⟩
    rw [List.mem_singleton]
    exact ⟨fun hEq => ⟨hEq, hEq ▸ hBlocked⟩, fun hBoth => hBoth.1⟩

/-- Two scans of which all the first has comes before all the second has are
exact one behind the other. -/
theorem Exact.append (hFirst : Exact w o ignoring root among s) (hSecond : Exact w o ignoring root others t)
    (hBefore : ∀ p q, among p → others q → p.parts < q.parts) :
    Exact w o ignoring root (fun p => among p ∨ others p) (Scan.append s t) where
  files p := by
    rw [Scan.append, List.mem_append, hFirst.files, hSecond.files]
    tauto
  ordered := by
    rw [Scan.append, List.pairwise_append]
    refine ⟨hFirst.ordered, hSecond.ordered, fun p hp q hq => ?_⟩
    exact hBefore p q ((hFirst.files p).mp hp).1 ((hSecond.files q).mp hq).1
  faults := by
    obtain ⟨blocked, hFaults, hMem, hOrdered⟩ := hFirst.faults
    obtain ⟨blocked', hFaults', hMem', hOrdered'⟩ := hSecond.faults
    refine ⟨blocked ++ blocked', ?_, fun p => ?_, ?_⟩
    · rw [Scan.append, hFaults, hFaults', List.map_append]
    · rw [List.mem_append, hMem, hMem']
      tauto
    · rw [List.pairwise_append]
      refine ⟨hOrdered, hOrdered', fun p hp q hq => ?_⟩
      exact hBefore p q ((hMem p).mp hp).1 ((hMem' q).mp hq).1

/-- What a scan of one entry comes to: the entry itself and, if it is a
directory to go into that can be listed, all beneath it. -/
def Met (w : World) (o : ScanOptions) (p q : Path) : Prop :=
  q = p ∨ Enterable w.disk o p ∧ w.OpenAt p.text ∧ Beneath w o p q

/-- An entry that is not gone into comes to itself alone. -/
theorem met_iff_eq (hPassed : Enterable w.disk o p → ¬ w.OpenAt p.text) : Met w o p q ↔ q = p := by
  constructor
  · rintro (hEq | ⟨hEnterable, hOpen, -⟩)
    · exact hEq
    · exact absurd hOpen (hPassed hEnterable)
  · exact .inl

/-- The path of an entry beneath a directory starts with the path
of the directory. -/
theorem Beneath.prefix (hBeneath : Beneath w o p q) : p.parts <+: q.parts := by
  induction hBeneath with
  | entry _ => exact List.prefix_append _ _
  | deeper _ _ _ _ ih => exact ih.trans (List.prefix_append _ _)

theorem Met.prefix (hMet : Met w o p q) : p.parts <+: q.parts := by
  rcases hMet with rfl | ⟨-, -, hBeneath⟩
  · exact List.prefix_rfl
  · exact hBeneath.prefix

/-- What is beneath a directory is met from one of its entries, and whatever
is met from an entry is beneath the directory. -/
theorem beneath_iff : Beneath w o p q ↔ ∃ n, Holds w.disk p n ∧ Met w o (child p n) q := by
  constructor
  · intro hBeneath
    induction hBeneath with
    | @entry n hHolds => exact ⟨n, hHolds, .inl rfl⟩
    | @deeper q m hBeneath hEnterable hOpen hHolds ih =>
        obtain ⟨n, hTop, hMet⟩ := ih
        refine ⟨n, hTop, .inr ?_⟩
        rcases hMet with rfl | ⟨hEnterable', hOpen', hBeneath'⟩
        · exact ⟨hEnterable, hOpen, .entry hHolds⟩
        · exact ⟨hEnterable', hOpen', .deeper hBeneath' hEnterable hOpen hHolds⟩
  · rintro ⟨n, hTop, hMet⟩
    rcases hMet with rfl | ⟨hEnterable, hOpen, hBeneath⟩
    · exact .entry hTop
    · induction hBeneath with
      | entry hHolds => exact .deeper (.entry hTop) hEnterable hOpen hHolds
      | deeper _ hEnterable' hOpen' hHolds ih => exact .deeper ih hEnterable' hOpen' hHolds

/-- Exact scans of the entries of a directory, put one behind another in the
order of their names, are the exact scan of all that they come to. -/
theorem exact_concat {names : List Text} {parts : List Scan} (hNames : names.Pairwise (· < ·))
    (hParts : List.Forall₂ (fun n s => Exact w o ignoring root (Met w o (child p n)) s) names parts) :
    Exact w o ignoring root (fun q => ∃ n ∈ names, Met w o (child p n) q) (concat parts) := by
  induction hParts with
  | nil =>
      apply exact_empty
      rintro q ⟨n, hn, -⟩
      cases hn
  | @cons n s names parts hPart hRest ih =>
      rw [List.pairwise_cons] at hNames
      refine (hPart.append (ih hNames.2) fun q q' hFirst ⟨m, hm, hSecond⟩ => ?_).congr fun q _ => by simp
      exact lt_of_prefix_lt (hNames.1 m hm) hFirst.prefix hSecond.prefix

/-- A later world of the same walk in which the locks at a path and below it
are as they were. -/
structure Alike (w : World) (p : Path) (v : World) : Prop where
  disk : v.disk = w.disk
  here : v.here = w.here
  locks : ∀ q : Path, q.Named → p.parts <+: q.parts → v.locks.lookup q.text = w.locks.lookup q.text

/-- Two worlds that differ only in what is said and in the locks at a path
and below it. -/
structure Apart (p : Path) (v v' : World) : Prop where
  disk : v'.disk = v.disk
  here : v'.here = v.here
  locks : ∀ q : Path, q.Named → ¬ p.parts <+: q.parts → v'.locks.lookup q.text = v.locks.lookup q.text

/-- In a later world that is alike at a path, the directory there can be
opened just when it could be before. -/
theorem Alike.openAt (hAlike : Alike w p v) (hNamed : p.Named) : v.OpenAt p.text ↔ w.OpenAt p.text := by
  rw [World.OpenAt, World.OpenAt, hAlike.locks p hNamed List.prefix_rfl]

/-- What is alike at a path is alike at each entry below it. -/
theorem Alike.down (hAlike : Alike w p v) (n : Text) : Alike w (child p n) v where
  disk := hAlike.disk
  here := hAlike.here
  locks q hNamed hPrefix := hAlike.locks q hNamed ((List.prefix_append _ _).trans hPrefix)

theorem Apart.refl (p : Path) (v : World) : Apart p v v := ⟨rfl, rfl, fun _ _ _ => rfl⟩

theorem Apart.trans {v' v'' : World} (hFirst : Apart p v v') (hSecond : Apart p v' v'') : Apart p v v'' where
  disk := hSecond.disk.trans hFirst.disk
  here := hSecond.here.trans hFirst.here
  locks q hNamed hPrefix := (hSecond.locks q hNamed hPrefix).trans (hFirst.locks q hNamed hPrefix)

/-- Worlds that are apart only at an entry of a directory are apart only at
the directory. -/
theorem Apart.up {v' : World} (hApart : Apart (child p n) v v') : Apart p v v' where
  disk := hApart.disk
  here := hApart.here
  locks q hNamed hPrefix := hApart.locks q hNamed fun hBelow => hPrefix ((List.prefix_append _ _).trans hBelow)

/-- The scan of one entry leaves the locks of the others alone, since it
opens only what lies below itself. -/
theorem Alike.sibling {m : Text} {v' : World} (hAlike : Alike w (child p n) v)
    (hApart : Apart (child p m) v v') (hOther : m ≠ n) : Alike w (child p n) v' where
  disk := hApart.disk.trans hAlike.disk
  here := hApart.here.trans hAlike.here
  locks q hNamed hPrefix := by
    rw [hApart.locks q hNamed fun hBelow => hOther (name_unique hBelow hPrefix)]
    exact hAlike.locks q hNamed hPrefix

/-- In every world of the walk, an action gives exactly the
scan of an entry. -/
def Surveys (w : World) (o : ScanOptions) (ignoring : List IgnoreFile) (root p : Path) (a : Action Scan) : Prop :=
  ∀ v, Alike w p v → ∃ s v', a.on v = (.ok s, v') ∧ Exact w o ignoring root (Met w o p) s ∧ Apart p v v'

/-- Entries of different names are surveyed one after the other: the locks
that one uses up are at its own path, and no other entry asks for them. -/
theorem surveys_mapM {names : List Text} {f : Path → Action Scan} (hNodup : names.Nodup)
    (hEach : ∀ n ∈ names, Surveys w o ignoring root (child p n) (f (child p n)))
    (hAlike : ∀ n ∈ names, Alike w (child p n) v) :
    ∃ parts v', ((names.map (child p)).mapM f).on v = (.ok parts, v') ∧ Apart p v v' ∧
      List.Forall₂ (fun n s => Exact w o ignoring root (Met w o (child p n)) s) names parts := by
  induction names generalizing v with
  | nil => exact ⟨[], v, rfl, .refl p v, .nil⟩
  | cons n names ih =>
      rw [List.nodup_cons] at hNodup
      obtain ⟨s, v₁, hRun, hExact, hApart⟩ := hEach n (List.mem_cons_self ..) v (hAlike n (List.mem_cons_self ..))
      have hRest : ∀ m ∈ names, Alike w (child p m) v₁ := by
        intro m hm
        apply (hAlike m (List.mem_cons_of_mem _ hm)).sibling hApart
        rintro rfl
        exact hNodup.1 hm
      obtain ⟨parts, v₂, hRuns, hApart', hParts⟩ :=
        ih hNodup.2 (fun m hm => hEach m (List.mem_cons_of_mem _ hm)) hRest
      refine ⟨s :: parts, v₂, ?_, hApart.up.trans hApart', .cons hExact hParts⟩
      rw [List.map_cons, List.mapM_cons, on_bind_ok hRun, on_bind_ok hRuns]
      rfl

/-- The entries of a directory, each scanned, are all that is beneath it, in
order of their names. -/
theorem surveys_entries {place : Place} {f : Path → Action Scan} (hProper : w.disk.Proper)
    (hLocate : w.disk.locate true p = .ok (.found place .directory))
    (hEach : ∀ n ∈ w.disk.names place, Surveys w o ignoring root (child p n) (f (child p n)))
    (hAlike : ∀ n ∈ w.disk.names place, Alike w (child p n) v) :
    ∃ parts v', (((w.disk.names place).map (child p)).mapM f).on v = (.ok parts, v') ∧ Apart p v v' ∧
      Exact w o ignoring root (Beneath w o p) (concat parts) := by
  obtain ⟨parts, v', hRun, hApart, hParts⟩ := surveys_mapM (Disk.names_nodup hProper place) hEach hAlike
  refine ⟨parts, v', hRun, hApart, ?_⟩
  apply (exact_concat (Disk.names_sorted hProper place) hParts).congr
  intro q _
  rw [beneath_iff]
  apply exists_congr
  intro n
  apply and_congr_left
  intro _
  rw [Disk.mem_names_iff hProper]
  constructor
  · rintro ⟨item, hFind⟩
    exact ⟨place, item, hLocate, hFind⟩
  · rintro ⟨place', item, hLocate', hFind⟩
    obtain rfl : place = place' := by simpa using hLocate.symm.trans hLocate'
    exact ⟨item, hFind⟩

/-- What is beneath the start was walked to by directories
that are no links. -/
theorem Beneath.walked (hProper : w.disk.Proper) (hBeneath : Beneath w o start p) : Walked w.disk o start p := by
  induction hBeneath with
  | entry hHolds =>
      obtain ⟨place, item, hLocate, hFind⟩ := hHolds
      exact .top hLocate ((Disk.mem_names_iff hProper).mpr ⟨item, hFind⟩)
  | deeper hBeneath hEnterable _ hHolds ih =>
      obtain ⟨place, hEnters⟩ := hEnterable.enters
      obtain ⟨place', item, hLocate, hFind⟩ := hHolds
      obtain rfl : place = place' := by simpa using hEnters.directory.symm.trans hLocate
      exact .down ih hEnters ((Disk.mem_names_iff hProper).mpr ⟨item, hFind⟩)

/-- The path of what is beneath a named start is made of names. -/
theorem Beneath.named (hProper : w.disk.Proper) (hNamed : start.Named) (hBeneath : Beneath w o start p) :
    p.Named := by
  induction hBeneath with
  | entry hHolds =>
      obtain ⟨place, item, -, hFind⟩ := hHolds
      exact child_named hNamed (hProper.of_find? hFind _ (by simp))
  | deeper _ _ _ hHolds ih =>
      obtain ⟨place, item, -, hFind⟩ := hHolds
      exact child_named ih (hProper.of_find? hFind _ (by simp))

/-- What is no directory is given if it is wanted. -/
theorem surveys_other (hProper : w.disk.Proper) (hStart : start.isAbsolute = true)
    (hWalked : Walked w.disk o start p) (hOther : w.disk.isDirectory p = .ok false)
    (hClear : ¬ Stuck w.disk o ignoring p) :
    Surveys w o ignoring start p (do
      if ← isSource o ignoring start p then return ⟨[p], []⟩ else return {}) := by
  intro v hAlike
  have hPassed : ¬ Enterable w.disk o p := by
    intro hEnterable
    cases hOther.symm.trans hEnterable.isDirectory
  have hOnly (q : Path) : q = p ↔ Met w o p q := (met_iff_eq fun hEnterable => absurd hEnterable hPassed).symm
  rw [← hAlike.disk] at hProper hWalked hClear
  obtain ⟨b, hRun, hWanted⟩ := isSource_on hProper hStart hWalked hClear
  rw [hAlike.disk] at hWanted
  rw [on_bind_ok hRun]
  cases b with
  | true =>
      have hExact := exact_file (hWanted.mp rfl) fun hBlocked => hPassed hBlocked.enterable
      exact ⟨_, v, rfl, hExact.congr fun q _ => hOnly q, .refl p v⟩
  | false =>
      refine ⟨_, v, rfl, exact_empty fun q hMet => ?_, .refl p v⟩
      obtain rfl := (hOnly q).mpr hMet
      exact ⟨fun hBut => Bool.noConfusion (hWanted.mpr hBut), fun hBlocked => hPassed hBlocked.enterable⟩

section Directory

variable {place : Place} {f : Path → Action Scan}

/-- What a scan makes of the entries of a directory, or of the
refusal to list it. -/
def listed (f : Path → Action Scan) : Except ScanFault (List Path) → Action Scan
  | .error fault => do
    Action.log .warning .scanning fault.message
    return ⟨[], [fault]⟩
  | .ok entries => do return concat (← entries.mapM f)

/-- A directory is no file that the options ask for. -/
theorem not_wanted_of_directory (hLocate : w.disk.locate true p = .ok (.found place .directory)) :
    ¬ Wanted w.disk o ignoring root p := by
  intro hWanted
  have hDirectory := hWanted.isDirectory
  rw [Disk.isDirectory, Disk.test_of_locate hLocate] at hDirectory
  cases hDirectory

/-- A directory that is not entered has nothing that is wanted or blocked. -/
theorem exact_passed (hLocate : w.disk.locate true p = .ok (.found place .directory))
    (hNot : ¬ Enterable w.disk o p) : Exact w o ignoring root (Met w o p) {} := by
  apply exact_empty
  intro q hMet
  obtain rfl := (met_iff_eq fun hEnterable => absurd hEnterable hNot).mp hMet
  exact ⟨not_wanted_of_directory hLocate, fun hBlocked => hNot hBlocked.enterable⟩

/-- A directory that can be listed gives what is beneath it. -/
theorem surveys_open (hProper : w.disk.Proper) (hNamed : p.Named) (hAbsolute : ∀ here : Standpoint, here.join p = p)
    (hLocate : w.disk.locate true p = .ok (.found place .directory)) (hEnterable : Enterable w.disk o p)
    (hOpen : w.OpenAt p.text)
    (hEach : ∀ n ∈ w.disk.names place, Surveys w o ignoring root (child p n) (f (child p n))) :
    Surveys w o ignoring root p (listing p >>= listed f) := by
  intro v hAlike
  have hListing := listing_open (hAbsolute v.here) (hAlike.disk.symm ▸ hLocate) ((hAlike.openAt hNamed).mpr hOpen)
  rw [hAlike.disk] at hListing
  obtain ⟨parts, v', hRun, hApart, hExact⟩ := surveys_entries hProper hLocate hEach fun n _ => hAlike.down n
  refine ⟨concat parts, v', ?_, hExact.congr fun q hReal => ?_, hApart⟩
  · rw [on_bind_ok hListing, listed, on_bind_ok hRun]
    rfl
  · constructor
    · exact fun hBeneath => .inr ⟨hEnterable, hOpen, hBeneath⟩
    · rintro (rfl | ⟨-, -, hBeneath⟩)
      · cases hReal with
        | inl hWanted => exact absurd hWanted (not_wanted_of_directory hLocate)
        | inr hBlocked => exact absurd hOpen hBlocked.locked
      · exact hBeneath

/-- A directory that is locked gives a fault. -/
theorem surveys_locked (hNamed : p.Named) (hAbsolute : ∀ here : Standpoint, here.join p = p)
    (hLocate : w.disk.locate true p = .ok (.found place .directory)) (hEnterable : Enterable w.disk o p)
    (hLocked : ¬ w.OpenAt p.text) : Surveys w o ignoring root p (listing p >>= listed f) := by
  intro v hAlike
  obtain ⟨v₁, hListing, hDisk, hHere, hLocks⟩ :=
    listing_locked (hAbsolute v.here) fun hFree => hLocked ((hAlike.openAt hNamed).mp hFree)
  have hExact : Exact w o ignoring root (Met w o p) ⟨[], [faultOf p]⟩ :=
    (exact_fault ⟨hEnterable, hLocked⟩ (not_wanted_of_directory hLocate)).congr
      fun q _ => (met_iff_eq fun _ => hLocked).symm
  refine ⟨⟨[], [faultOf p]⟩, ((Action.log .warning .scanning (faultOf p).message).on v₁).2, ?_, hExact,
    hDisk, hHere, fun q hNamed' hApart => hLocks q.text fun hText => ?_⟩
  · rw [on_bind_ok hListing]
    rfl
  · exact hApart (Path.text_injective hNamed'.readable hNamed.readable hText ▸ List.prefix_rfl)

/-- A directory that is passed over gives nothing, and any other what
listing it gives. -/
theorem surveys_directory (hProper : w.disk.Proper) (hNamed : p.Named) (hAbsolute : ∀ here : Standpoint, here.join p = p)
    (hLocate : w.disk.locate true p = .ok (.found place .directory))
    (hEach : Enterable w.disk o p → w.OpenAt p.text → ∀ n ∈ w.disk.names place,
      Surveys w o ignoring root (child p n) (f (child p n))) :
    Surveys w o ignoring root p (do
      if !entersName o p.name then return {}
      if ← Action.isLink p then return {}
      listing p >>= listed f) := by
  intro v hAlike
  by_cases hName : entersName o p.name = true
  · obtain ⟨link, hLink⟩ : ∃ b, w.disk.isLink p = .ok b := Disk.exists_test (by simp [hLocate]) false _
    have hAsk : (Action.isLink p).on v = (.ok link, v) := by
      rw [Action.isLink, ask_on, hAbsolute, hAlike.disk, hLink]
    rw [if_neg (by simpa using hName), on_bind_ok hAsk]
    cases link with
    | true =>
        refine ⟨{}, v, rfl, exact_passed hLocate fun hEnterable => ?_, .refl p v⟩
        cases hLink.symm.trans ((enterable_iff hLocate).mp hEnterable).2
    | false =>
        have hEnterable := (enterable_iff hLocate).mpr ⟨hName, hLink⟩
        by_cases hOpen : w.OpenAt p.text
        · exact surveys_open hProper hNamed hAbsolute hLocate hEnterable hOpen (hEach hEnterable hOpen) v hAlike
        · exact surveys_locked hNamed hAbsolute hLocate hEnterable hOpen v hAlike
  · rw [if_pos (by simpa using hName)]
    refine ⟨{}, v, rfl, exact_passed hLocate fun hEnterable => ?_, .refl p v⟩
    exact hName ((enterable_iff hLocate).mp hEnterable).1

end Directory

/-- The scan of an entry gives exactly what is wanted of it and beneath it,
by induction on how deep the scan may still go. -/
theorem surveys_entry {base : Place} (hProper : w.disk.Proper)
    (hStart : w.disk.locate true start = .ok (.found base .directory)) (hAnchor : start.isAbsolute = true)
    (hNamed : start.Named) (hClear : ∀ q, Beneath w o start q → ¬ Stuck w.disk o ignoring q)
    (depth : Nat) (hBeneath : Beneath w o start p)
    (hDepth : start.parts.length + w.disk.entries.length < p.parts.length + depth) :
    Surveys w o ignoring start p (entry o ignoring start depth p) := by
  induction depth generalizing p with
  | zero =>
      have hBound := (hBeneath.walked hProper).depth_le hProper hStart
      omega
  | succ depth ih =>
      have hAbsolute := join_walked hAnchor (hBeneath.walked hProper)
      have hStuck := hClear p hBeneath
      obtain ⟨directory, hDirectory⟩ : ∃ b, w.disk.isDirectory p = .ok b :=
        Disk.exists_test (fun hLong => hStuck (.inl hLong)) true _
      intro v hAlike
      have hAsk : (Action.isDirectory p).on v = (.ok directory, v) := by
        rw [Action.isDirectory, ask_on, hAbsolute, hAlike.disk, hDirectory]
      rw [entry, on_bind_ok hAsk]
      cases directory with
      | true =>
          obtain ⟨place, item, hLocate, hItem⟩ := Disk.found_of_test hDirectory
          obtain rfl : item = .directory := by cases item <;> simp_all
          apply surveys_directory hProper (hBeneath.named hProper hNamed) hAbsolute hLocate _ v hAlike
          intro hEnterable hOpen n hn
          obtain ⟨item, hFind⟩ := (Disk.mem_names_iff hProper).mp hn
          apply ih (.deeper hBeneath hEnterable hOpen ⟨place, item, hLocate, hFind⟩)
          simp only [child, List.length_append, List.length_singleton]
          omega
      | false => exact surveys_other hProper hAnchor (hBeneath.walked hProper) hDirectory hStuck v hAlike

/-- The ignore files that a scan of this root respects. -/
def ignoreFiles (o : ScanOptions) (start : Path) : Action (List IgnoreFile) :=
  if o.respectIgnore || o.nestedIgnore then IgnoreFile.collect start o.nestedIgnore else pure []

/-- Reading the ignore files changes nothing. -/
theorem ignoreFiles_world {w₁ : World} (hIgnoring : (ignoreFiles o start).on w = (.ok ignoring, w₁)) : w₁ = w := by
  have hStill : Moves Eq (ignoreFiles o start) := by
    rw [ignoreFiles]
    split
    · exact moves_ignoreFile_collect (fun _ => rfl) still_ask still_entry start _
    · exact fun _ => rfl
  have hSame := hStill w
  rw [hIgnoring] at hSame
  exact hSame.symm

/-- The last step of opening a scan. -/
theorem opened_eq (o : ScanOptions) (start : Path) (entries : List Path) :
    (if o.respectIgnore || o.nestedIgnore then do
      let ignoring ← IgnoreFile.collect start o.nestedIgnore
      return ⟨start, entries, ignoring⟩
    else do
      let ignoring ← pure []
      return ⟨start, entries, ignoring⟩ : Action Opening) =
    ignoreFiles o start >>= fun ignoring => pure ⟨start, entries, ignoring⟩ := by
  rw [ignoreFiles]
  split <;> rfl

/-- A root that can be listed opens with the resolved root and
its ignore files. -/
theorem opening_on {base : Place} {w₁ : World} (hRoot : w.here.resolve w.disk root = .ok start)
    (hStart : w.disk.locate true start = .ok (.found base .directory)) (hOpen : w.OpenAt start.text)
    (hIgnoring : (ignoreFiles o start).on w = (.ok ignoring, w₁)) :
    (opening o root).on w = (.ok ⟨start, (w.disk.names base).map (child start), ignoring⟩, w) := by
  have hAbsolute : w.here.join start = start :=
    Path.join_of_absolute (Standpoint.resolve_isAbsolute hRoot) _
  have hResolve : (Action.resolve root).on w = (.ok start, w) := by rw [resolve_on, hRoot]
  have hAsk : (Action.isDirectory start).on w = (.ok true, w) := by
    rw [Action.isDirectory, ask_on, hAbsolute, Disk.isDirectory, Disk.test_of_locate hStart]
  obtain rfl := ignoreFiles_world hIgnoring
  rw [opening, on_bind_ok hResolve, on_bind_ok hAsk]
  simp only [Bool.not_true, Bool.false_eq_true, if_false]
  rw [on_bind_ok (listing_open hAbsolute hStart hOpen)]
  dsimp only
  rw [opened_eq, on_bind_ok hIgnoring]
  rfl

/-- The walk from the entries of a directory gives exactly what is wanted
beneath it. -/
theorem walk_exact {base : Place} (hProper : w.disk.Proper)
    (hStart : w.disk.locate true start = .ok (.found base .directory)) (hAnchor : start.isAbsolute = true)
    (hNamed : start.Named) (hClear : ∀ p, Beneath w o start p → ¬ Stuck w.disk o ignoring p) :
    ∃ found w', (walk o ⟨start, (w.disk.names base).map (child start), ignoring⟩).on w = (.ok (start, found), w') ∧
      Exact w o ignoring start (Beneath w o start) found := by
  have hEach : ∀ n ∈ w.disk.names base, Surveys w o ignoring start (child start n)
      (entry o ignoring start w.disk.entries.length (child start n)) := by
    intro n hn
    obtain ⟨item, hFind⟩ := (Disk.mem_names_iff hProper).mp hn
    apply surveys_entry hProper hStart hAnchor hNamed hClear _ (.entry ⟨base, item, hStart, hFind⟩)
    simp only [child, List.length_append, List.length_singleton]
    omega
  have hAlike : ∀ n ∈ w.disk.names base, Alike w (child start n) w := fun n _ => ⟨rfl, rfl, fun _ _ _ => rfl⟩
  obtain ⟨parts, w', hRun, -, hExact⟩ := surveys_entries hProper hStart hEach hAlike
  rw [walk, on_bind_ok (on_get w), on_bind_ok hRun]
  exact ⟨concat parts, _, rfl, hExact⟩

/-- A scan of a directory that can be listed gives exactly the wanted files
beneath it, in order of their names, and one fault for each directory that
cannot be listed. No entry on the way may be too long to be asked about. -/
theorem scan_exact {base : Place} {w₁ : World} (hProper : w.disk.Proper)
    (hRoot : w.here.resolve w.disk root = .ok start)
    (hStart : w.disk.locate true start = .ok (.found base .directory)) (hOpen : w.OpenAt start.text)
    (hIgnoring : (ignoreFiles o start).on w = (.ok ignoring, w₁))
    (hClear : ∀ p, Beneath w o start p → ¬ Stuck w.disk o ignoring p) :
    ∃ found w', (project o root).on w = (.ok (start, found), w') ∧
      Exact w o ignoring start (Beneath w o start) found := by
  have hAnchor := Standpoint.resolve_isAbsolute hRoot
  have hNamed := Standpoint.resolve_named hProper hRoot hStart
  rw [project_eq, on_bind_ok (opening_on hRoot hStart hOpen hIgnoring)]
  exact walk_exact hProper hStart hAnchor hNamed hClear

/-- What is beneath a directory stands below its place under the same names. -/
theorem Beneath.place {base : Place} (hProper : w.disk.Proper)
    (hStart : w.disk.locate true start = .ok (.found base .directory)) (hBeneath : Beneath w o start p) :
    ∃ q names n item, p = child q n ∧ q.anchor = start.anchor ∧ q.parts = start.parts ++ names ∧
      w.disk.locate true q = .ok (.found (base ++ names) .directory) ∧
      w.disk.find? (base ++ names ++ [n]) = some item := by
  induction hBeneath with
  | @entry n hHolds =>
      obtain ⟨place, item, hLocate, hFind⟩ := hHolds
      obtain rfl : base = place := by simpa using hStart.symm.trans hLocate
      exact ⟨start, [], n, item, rfl, rfl, by simp, by simpa using hStart, by simpa using hFind⟩
  | @deeper p m hBeneath hEnterable hOpen hHolds ih =>
      obtain ⟨q, names, n, item, rfl, hAnchor, hParts, hLocate, hFind⟩ := ih
      obtain ⟨place, hEnters⟩ := hEnterable.enters
      obtain rfl := place_of_child hProper hLocate ((Disk.mem_names_iff hProper).mpr ⟨item, hFind⟩)
        hEnters.directory hEnters.noLink
      obtain ⟨place, item', hLocate', hFind'⟩ := hHolds
      obtain rfl : base ++ names ++ [n] = place := by simpa using hEnters.directory.symm.trans hLocate'
      refine ⟨child q n, names ++ [n], m, item', rfl, hAnchor, ?_, ?_, ?_⟩
      · simp [child, hParts]
      · simpa using hLocate'
      · simpa using hFind'

namespace Sample

/-- A project behind a link: a directory and a file of almost one name, a
test, a hidden directory, one that cannot be listed, and links to a
directory and to nothing. -/
def tree : World where
  disk := ⟨[(["p"], .directory), (["r"], .link "p"), (["p", "a.ts"], .file [] 1), (["p", "a"], .directory),
    (["p", "a", "x.ts"], .file [] 2), (["p", "a.spec.ts"], .file [] 3), (["p", ".h"], .directory),
    (["p", ".h", "y.ts"], .file [] 4), (["p", "b"], .directory), (["p", "b", "z.ts"], .file [] 5),
    (["p", "l"], .link "a"), (["p", "m.ts"], .link "nowhere")]⟩
  here := ⟨⟨.root, []⟩, []⟩
  locks := [("/p/b", 1)]
  watch := ⟨0, 1⟩

def top : Path := ⟨.root, ["p"]⟩

/-- The files and faults that the options of every day ask for. -/
def harvest : Scan := ⟨[⟨.root, ["p", "a", "x.ts"]⟩, ⟨.root, ["p", "a.ts"]⟩], [faultOf ⟨.root, ["p", "b"]⟩]⟩

/-- No name of the sample is too long to be looked for. -/
theorem tree_short : ∀ e ∈ tree.disk.entries, tree.disk.locate true ⟨.root, e.1⟩ ≠ .error (.errno .nameTooLong) := by
  decide +kernel

/-- The whole scan of the sample gives the harvest: nothing behind the
links, in the hidden directory or among the tests. -/
theorem tree_scanned : passes (fun found _ => found = (top, harvest)) ((project {} ⟨.none, ["r"]⟩).on tree) = true := by
  decide +kernel

/-- The file in the directory comes before the file beside it, and the
locked directory is reported. -/
theorem tree_harvested : ∃ w', (project {} ⟨.none, ["r"]⟩).on tree = (.ok (top, harvest), w') ∧
    Exact tree {} [] top (Beneath tree {} top) harvest := by
  have hProper : tree.disk.Proper := by decide
  have hStart : tree.disk.locate true top = .ok (.found ["p"] .directory) := by decide +kernel
  have hRoot : tree.here.resolve tree.disk ⟨.none, ["r"]⟩ = .ok top := by decide +kernel
  have hOpen : tree.OpenAt top.text := fun n hLock => by cases hLock
  have hClear : ∀ p, Beneath tree {} top p → ¬ Stuck tree.disk {} [] p := by
    intro p hBeneath
    obtain ⟨q, names, n, item, rfl, hAnchor, hParts, -, hFind⟩ := hBeneath.place hProper hStart
    rw [Disk.find?, if_neg (by simp)] at hFind
    have hShort := tree_short _ (Assoc.mem_of_get? hFind)
    rintro (hLong | ⟨-, -, -, e, hIgnores⟩)
    · apply hShort
      rw [← hLong, child, hAnchor, hParts]
      rfl
    · cases hIgnores
  obtain ⟨found, w', hRun, hExact⟩ := scan_exact hProper hRoot hStart hOpen rfl hClear
  obtain ⟨x, w'', hRun', hFound⟩ := exists_of_passes tree_scanned
  rw [hRun] at hRun'
  obtain ⟨hSame, rfl⟩ := Prod.mk.inj hRun'
  obtain rfl := Except.ok.inj hSame
  obtain ⟨-, rfl⟩ := Prod.mk.inj (of_decide_eq_true hFound)
  exact ⟨w', hRun, hExact⟩

end Sample

end Scan

end SourceAtlas
