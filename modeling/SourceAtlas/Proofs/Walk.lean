import SourceAtlas.Proofs.Scan

/-!
How far a scan comes. It walks down from its root by the directories that it enters, and it gives
its files unless one of the paths on the way is too long or an ignore rule cannot be applied.
-/
namespace SourceAtlas.Scan

open SourceAtlas.Action

variable {d : Disk} {here : Standpoint} {o : ScanOptions} {ignoring : List IgnoreFile} {start p : Path}
  {place : Place} {n : Text}

/-- A directory that a scan enters: its name is not passed over,
and it is no link. -/
structure Enters (d : Disk) (o : ScanOptions) (p : Path) (place : Place) : Prop where
  directory : d.locate true p = .ok (.found place .directory)
  name : entersName o p.name = true
  noLink : d.isLink p = .ok false

/-- The paths that a scan looks at: the entries of its root and of the
directories it enters. -/
inductive Walked (d : Disk) (o : ScanOptions) (start : Path) : Path → Prop where
  | top {place : Place} {n : Text} (hStart : d.locate true start = .ok (.found place .directory))
      (hName : n ∈ d.names place) : Walked d o start (child start n)
  | down {p : Path} {place : Place} {n : Text} (hWalked : Walked d o start p)
      (hEnters : Enters d o p place) (hName : n ∈ d.names place) : Walked d o start (child p n)

/-- A path at which a scan stops: it is too long to be followed, or it is
that of a source file and an ignore rule cannot be applied to it. -/
def Stuck (d : Disk) (o : ScanOptions) (ignoring : List IgnoreFile) (p : Path) : Prop :=
  d.locate true p = .error (.errno .nameTooLong) ∨
    isSourceName o p.name = true ∧ d.isLink p = .ok false ∧ d.isFile p = .ok true ∧
      ∃ e, IgnoreFile.anyIgnores p ignoring = .error e

theorem Walked.anchor (hWalked : Walked d o start p) : p.anchor = start.anchor := by
  induction hWalked with
  | top => rfl
  | down _ _ _ ih => exact ih

/-- An entry that is reached from a directory by a name, and is no link, has
its place there. -/
theorem place_of_child {parent : Place} {q : Path} {found : Item} (hProper : d.Proper)
    (hParent : d.locate true q = .ok (.found parent .directory)) (hName : n ∈ d.names parent)
    (hChild : d.locate true (child q n) = .ok (.found place found))
    (hNoLink : d.isLink (child q n) = .ok false) : place = parent ++ [n] := by
  have hIs := Disk.isName_of_mem_names hProper hName
  obtain ⟨e, he, hKey⟩ := Disk.mem_names hName
  have hFind : d.find? (parent ++ [n]) = some e.2 := by
    rw [Disk.find?, if_neg (by simp), ← hKey, Assoc.get?_eq_some_iff hProper.keys]
    exact he
  obtain ⟨hNul, hSize, hLeads⟩ := Disk.locate_eq_ok_iff.mp hChild
  obtain ⟨-, -, hLeads'⟩ := Disk.locate_eq_ok_iff.mp hParent
  have hShort := (hLeads.size_of_mem n (by simp [child])).resolve_left hIs.2
  have hLocate : d.locate false (child q n) = .ok (.found (parent ++ [n]) e.2) :=
    Disk.locate_eq_ok_iff.mpr ⟨hNul, hSize, hLeads'.snoc hIs.2 hShort hFind⟩
  obtain ⟨place', item, hSame, hPlace⟩ := Disk.locate_unfollowed hChild
  obtain ⟨rfl, rfl⟩ : parent ++ [n] = place' ∧ e.2 = item := by
    simpa using hLocate.symm.trans hSame
  rcases hPlace with hPlace | ⟨target, hTarget⟩
  · exact hPlace.symm
  · rw [Disk.isLink, Disk.test_of_locate hLocate, hTarget] at hNoLink
    cases hNoLink

/-- Every level of a walk has an entry of its own on the disk. -/
theorem Walked.levels {base : Place} (hProper : d.Proper)
    (hStart : d.locate true start = .ok (.found base .directory)) (hWalked : Walked d o start p) :
    ∃ q parent n, p = child q n ∧ d.locate true q = .ok (.found parent .directory) ∧
      n ∈ d.names parent ∧ p.parts.length + base.length = start.parts.length + (parent.length + 1) ∧
      ∀ level, base.length < level → level ≤ parent.length + 1 →
        level ∈ d.entries.map fun e => e.1.length := by
  have hLevel {parent : Place} {n : Text} (hName : n ∈ d.names parent) :
      parent.length + 1 ∈ d.entries.map fun e => e.1.length := by
    obtain ⟨e, he, hKey⟩ := Disk.mem_names hName
    exact List.mem_map.mpr ⟨e, he, by simp [hKey]⟩
  induction hWalked with
  | @top place n hStart' hName =>
      obtain rfl : base = place := by simpa using hStart.symm.trans hStart'
      refine ⟨start, base, n, rfl, hStart, hName, ?_, fun level hLow hHigh => ?_⟩
      · simp only [child, List.length_append, List.length_singleton]
        omega
      · obtain rfl : level = base.length + 1 := by omega
        exact hLevel hName
  | @down p place m hWalked hEnters hName ih =>
      obtain ⟨q, parent, n, rfl, hParent, hn, hLength, hLevels⟩ := ih
      obtain rfl := place_of_child hProper hParent hn hEnters.directory hEnters.noLink
      refine ⟨child q n, parent ++ [n], m, rfl, hEnters.directory, hName, ?_, fun level hLow hHigh => ?_⟩
      · simp only [child, List.length_append, List.length_singleton] at hLength ⊢
        omega
      · rw [List.length_append, List.length_singleton] at hHigh
        rcases Nat.lt_or_ge (parent.length + 1) level with hLast | hBefore
        · obtain rfl : level = (parent ++ [n]).length + 1 := by simp; omega
          exact hLevel hName
        · exact hLevels level hLow hBefore

/-- A walk is no deeper than there are entries on the disk, since each level
of it has an entry of its own. -/
theorem Walked.depth_le {base : Place} (hProper : d.Proper)
    (hStart : d.locate true start = .ok (.found base .directory)) (hWalked : Walked d o start p) :
    p.parts.length ≤ start.parts.length + d.entries.length := by
  obtain ⟨_, parent, _, -, -, -, hLength, hLevels⟩ := hWalked.levels hProper hStart
  have hSubset : Finset.Ioc base.length (parent.length + 1) ⊆
      (d.entries.map fun e => e.1.length).toFinset := by
    intro level hLevel
    rw [Finset.mem_Ioc] at hLevel
    exact List.mem_toFinset.mpr (hLevels level hLevel.1 hLevel.2)
  have hCard := (Finset.card_le_card hSubset).trans (List.toFinset_card_le _)
  rw [Nat.card_Ioc, List.length_map] at hCard
  omega

theorem Walked.start_found (hWalked : Walked d o start p) :
    ∃ base, d.locate true start = .ok (.found base .directory) := by
  induction hWalked with
  | top hStart _ => exact ⟨_, hStart⟩
  | down _ _ _ ih => exact ih

/-- What is walked and is no link has its place below that of the start. -/
theorem Walked.within {base : Place} {item : Item} (hProper : d.Proper) (hWalked : Walked d o start p)
    (hStart : d.locate true start = .ok (.found base .directory)) (hNoLink : d.isLink p = .ok false)
    (hLocate : d.locate true p = .ok (.found place item)) : base <+: place := by
  induction hWalked generalizing place item with
  | top hStart' hName =>
      obtain rfl : base = _ := by simpa using hStart.symm.trans hStart'
      exact place_of_child hProper hStart hName hLocate hNoLink ▸ List.prefix_append _ _
  | down _ hEnters hName ih =>
      have hParent := ih hEnters.noLink hEnters.directory
      exact place_of_child hProper hEnters.directory hName hLocate hNoLink ▸ hParent.trans (List.prefix_append _ _)

theorem join_walked (hStart : start.isAbsolute = true) (hWalked : Walked d o start p) (here : Standpoint) :
    here.join p = p := by
  have hAbsolute : p.isAbsolute = true := by
    rw [Path.isAbsolute, hWalked.anchor]
    exact hStart
  exact Path.join_of_absolute hAbsolute here

theorem answers_listing (hNul : d.locate true (here.join p) ≠ .error .nul) :
    Answers d here (listing p) := by
  refine (refusable_listNames hNul).attempt.bind (looks_listNames p).attempt (gives_true _) fun names _ => ?_
  split <;> exact answers_pure _

/-- Whether a file lies below the start can be said if the start leads
somewhere, as it does on a walk. -/
theorem answers_isWithin (hStart : start.isAbsolute = true) (hWalked : Walked d o start p)
    (hFile : d.isFile p = .ok true) : Answers d here (isWithin start p) := by
  rintro w rfl rfl
  obtain ⟨base, hRoot⟩ := hWalked.start_found
  obtain ⟨place, bytes, mtime, hLocate⟩ := Disk.found_of_isFile hFile
  rw [← Path.join_of_absolute hStart w.here] at hRoot
  rw [← join_walked hStart hWalked w.here] at hLocate
  exact ⟨_, w, isWithin_on hRoot hLocate⟩

/-- A file that is walked and is no link lies below the start. -/
theorem isWithin_walked {w : World} {item : Item} (hProper : w.disk.Proper) (hStart : start.isAbsolute = true)
    (hWalked : Walked w.disk o start p) (hNoLink : w.disk.isLink p = .ok false)
    (hLocate : w.disk.locate true p = .ok (.found place item)) : (isWithin start p).on w = (.ok true, w) := by
  obtain ⟨base, hRoot⟩ := hWalked.start_found
  have hBelow := hWalked.within hProper hRoot hNoLink hLocate
  rw [← Path.join_of_absolute hStart w.here] at hRoot
  rw [← join_walked hStart hWalked w.here] at hLocate
  rw [isWithin_on hRoot hLocate]
  exact congrArg (fun b => (Except.ok b, w)) (decide_eq_true hBelow)

/-- Whether a file belongs to the scan can be said unless the
scan is stuck there. -/
theorem answers_isSource (hStart : start.isAbsolute = true) (hWalked : Walked d o start p)
    (hClear : ¬ Stuck d o ignoring p) : Answers d here (isSource o ignoring start p) := by
  have hAbsolute := join_walked hStart hWalked here
  have hShort : d.locate true p ≠ .error (.errno .nameTooLong) := fun hLong => hClear (.inl hLong)
  rw [isSource]
  split
  · exact answers_pure _
  · next hName =>
    have hLinkTest : ∃ b, d.isLink (here.join p) = .ok b := by
      rw [hAbsolute]
      exact Disk.exists_test hShort false _
    refine (answers_ask hLinkTest).bind (looks_ask _ _) (gives_ask _ _) fun link hLink => ?_
    split
    · exact answers_pure _
    · next hNoLink =>
      have hFileTest : ∃ b, d.isFile (here.join p) = .ok b := by
        rw [hAbsolute]
        exact Disk.exists_test hShort true _
      refine (answers_ask hFileTest).bind (looks_ask _ _) (gives_ask _ _) fun file hFile => ?_
      split
      · exact answers_pure _
      · next hIsFile =>
        rw [hAbsolute] at hLink hFile
        obtain rfl : link = false := by simpa using hNoLink
        obtain rfl : file = true := by simpa using hIsFile
        refine (answers_isWithin hStart hWalked hFile).bind (looks_isWithin _ _) (gives_true _) fun isWithin _ => ?_
        split
        · exact answers_pure _
        · split
          · next e hError => exact absurd (.inr ⟨by simpa using hName, hLink, hFile, e, hError⟩) hClear
          · exact answers_pure _
          · exact answers_pure _

/-- A scan gets through all that it walks if it is stuck nowhere: every
question on the way has an answer. -/
theorem answers_entry (hStart : start.isAbsolute = true)
    (hClear : ∀ p, Walked d o start p → ¬ Stuck d o ignoring p) (depth : Nat)
    (hWalked : Walked d o start p) : Answers d here (entry o ignoring start depth p) := by
  induction depth generalizing p with
  | zero => exact answers_pure _
  | succ depth ih =>
      have hAbsolute := join_walked hStart hWalked here
      have hShort : d.locate true p ≠ .error (.errno .nameTooLong) :=
        fun hLong => hClear p hWalked (.inl hLong)
      have hDirectoryTest : ∃ b, d.isDirectory (here.join p) = .ok b := by
        rw [hAbsolute]
        exact Disk.exists_test hShort true _
      rw [entry]
      refine (answers_ask hDirectoryTest).bind (looks_ask _ _) (gives_ask _ _) fun directory hDirectory => ?_
      rw [hAbsolute] at hDirectory
      split
      · next hIsDirectory =>
        obtain rfl : directory = true := hIsDirectory
        obtain ⟨place, item, hLocate, -⟩ := Disk.found_of_test hDirectory
        split
        · exact answers_pure _
        · next hName =>
          have hLinkTest : ∃ b, d.isLink (here.join p) = .ok b := by
            rw [hAbsolute]
            exact Disk.exists_test hShort false _
          refine (answers_ask hLinkTest).bind (looks_ask _ _) (gives_ask _ _) fun link hLink => ?_
          rw [hAbsolute] at hLink
          split
          · exact answers_pure _
          · next hNoLink =>
            have hListing : Answers d here (listing p) := answers_listing (by
              rw [hAbsolute, hLocate]
              simp)
            refine hListing.bind (looks_listing p) (gives_listing p) fun entries hEntries => ?_
            split
            · exact (answers_log _ _ _).bind (looks_log _ _ _) (gives_true _) fun _ _ => answers_pure _
            · next entries =>
              obtain ⟨place, hLocate, rfl⟩ := hEntries.1 entries rfl
              rw [hAbsolute] at hLocate
              have hEnters : Enters d o p place :=
                ⟨hLocate, by simpa using hName, by simpa [hNoLink] using hLink⟩
              refine Answers.bind (answers_mapM (looks_entry _ _ _ _) fun q hq => ?_)
                (looks_mapM (looks_entry _ _ _ _) _) (gives_true _) fun _ _ => answers_pure _
              obtain ⟨n, hn, rfl⟩ := List.mem_map.mp hq
              exact ih (hWalked.down hEnters hn)
      · refine (answers_isSource hStart hWalked (hClear p hWalked)).bind (looks_isSource _ _ _ _)
          (gives_true _) fun isSource _ => ?_
        split <;> exact answers_pure _

/-- What a scan knows before it walks: its root, the entries there and the
ignore files. -/
structure Opening where
  root : Path
  entries : List Path
  ignoring : List IgnoreFile

/-- Find and list the root of a scan, and read the ignore files. -/
def opening (o : ScanOptions) (root : Path) : Action Opening := do
  let root ← Action.resolve root
  if !(← Action.isDirectory root) then
    throw (.rootUnreadable ("Project root is not a readable directory: " ++ root.text) root.text)
  match ← listing root with
  | .error fault => throw (.rootUnreadable fault.message root.text)
  | .ok entries =>
    let ignoring ← if o.respectIgnore || o.nestedIgnore then IgnoreFile.collect root o.nestedIgnore
      else pure []
    return ⟨root, entries, ignoring⟩

def walk (o : ScanOptions) (x : Opening) : Action (Path × Scan) := do
  let depth := (← get).disk.entries.length
  let found := concat (← x.entries.mapM (entry o x.ignoring x.root depth))
  Action.log .debug .scanning ("Scanned " ++ x.root.text ++ ": " ++
    Number.Style.natText found.files.length ++ " source files")
  return (x.root, found)

theorem project_eq (o : ScanOptions) (root : Path) : project o root = opening o root >>= walk o := by
  rw [project, opening, bind_assoc]
  congr 1
  funext root
  rw [bind_assoc]
  congr 1
  funext isDirectory
  cases isDirectory with
  | false => rfl
  | true =>
      simp only [Bool.not_true, Bool.false_eq_true, if_false, bind_assoc]
      congr 1
      funext entries
      cases entries with
      | error fault => rfl
      | ok entries =>
          dsimp only
          split
          · rw [bind_assoc]
            rfl
          · rfl

theorem looks_opening (o : ScanOptions) (root : Path) : Looks (opening o root) := by
  refine (looks_resolve root).bind fun root => (looks_ask _ _).bind fun isDirectory => ?_
  refine Looks.unless ((looks_listing root).bind fun entries => ?_)
  split
  · exact looks_throw _
  · exact looks_choice (looks_ignoreFile_collect _ _) (looks_pure _) fun ignoring => looks_pure _

/-- The entries that a scan begins with are those of its root. -/
theorem gives_opening (d : Disk) (here : Standpoint) (o : ScanOptions) (root : Path) :
    Gives d here (opening o root) fun x => x.root.isAbsolute = true ∧
      ∀ p ∈ x.entries, Walked d o x.root p := by
  refine (gives_resolve root).bind (looks_resolve root) fun root hRoot => ?_
  have hAbsolute : root.isAbsolute = true := Standpoint.resolve_isAbsolute hRoot
  refine (gives_true _).bind (looks_ask _ _) fun isDirectory _ => Gives.unless fun _ => ?_
  refine (gives_listing root).bind (looks_listing root) fun entries hEntries => ?_
  split
  · exact gives_throw _
  · next entries =>
    obtain ⟨place, hLocate, rfl⟩ := hEntries.1 entries rfl
    rw [Path.join_of_absolute hAbsolute] at hLocate
    refine gives_choice (looks_ignoreFile_collect _ _) (looks_pure _) fun ignoring => ?_
    refine gives_pure ⟨hAbsolute, fun p hp => ?_⟩
    obtain ⟨n, hn, rfl⟩ := List.mem_map.mp hp
    exact .top hLocate hn

/-- A scan that was opened gives its files if it is stuck nowhere. -/
theorem project_of_opening {w w₁ : World} {root : Path} {x : Opening}
    (hOpening : (opening o root).on w = (.ok x, w₁))
    (hClear : ∀ p, Walked w.disk o x.root p → ¬ Stuck w.disk o x.ignoring p) :
    ∃ found w', (project o root).on w = (.ok (x.root, found), w') := by
  have hLooked := looks_opening o root w
  rw [hOpening] at hLooked
  obtain ⟨hAbsolute, hWalked⟩ := gives_opening w.disk w.here o root w x w₁ rfl rfl hOpening
  have hEach : ∀ p ∈ x.entries,
      Answers w.disk w.here (entry o x.ignoring x.root w₁.disk.entries.length p) :=
    fun p hp => answers_entry hAbsolute hClear _ (hWalked p hp)
  obtain ⟨parts, w₂, hParts⟩ :=
    answers_mapM (looks_entry _ _ _ _) hEach w₁ hLooked.disk hLooked.here
  rw [project_eq, on_bind_ok hOpening, walk, on_bind_ok (on_get w₁), on_bind_ok hParts]
  exact ⟨concat parts, _, rfl⟩

end SourceAtlas.Scan
