import SourceAtlas.Proofs.Disk.Resolving
import SourceAtlas.Proofs.World.Standpoint
import SourceAtlas.Scan.Basic

/-!
What a scan finds. Scanning only looks; the files it gives are made of names, lead to regular files
and are all different.
-/
namespace SourceAtlas

namespace Disk

variable {d : Disk}

/-- An entry directly below a directory is the directory's place
with its last name. -/
theorem eq_append_of_child {directory key : Place} {n : Text}
    (hChild : (if key.length = directory.length + 1 && directory.isPrefixOf key then key.getLast?
      else none) = some n) : key = directory ++ [n] := by
  split at hChild
  · next hBelow =>
    simp only [Bool.and_eq_true, decide_eq_true_eq, List.isPrefixOf_iff_prefix] at hBelow
    obtain ⟨rest, rfl⟩ := hBelow.2
    obtain ⟨m, rfl⟩ : ∃ m, rest = [m] := by
      rw [← List.length_eq_one_iff]
      have hLength := hBelow.1
      rw [List.length_append] at hLength
      omega
    rw [List.getLast?_append] at hChild
    obtain rfl : m = n := by simpa using hChild
    rfl
  · cases hChild

/-- A name that is listed is that of an entry of the disk. -/
theorem mem_names {directory : Place} {n : Text} (hn : n ∈ d.names directory) :
    ∃ e ∈ d.entries, e.1 = directory ++ [n] := by
  rw [names, Sorting.mem_sort, List.mem_filterMap] at hn
  obtain ⟨e, he, hLast⟩ := hn
  exact ⟨e, he, eq_append_of_child hLast⟩

theorem isName_of_mem_names (hProper : d.Proper) {directory : Place} {n : Text}
    (hn : n ∈ d.names directory) : IsName n := by
  obtain ⟨e, he, hKey⟩ := mem_names hn
  exact hProper.names e he n (by simp [hKey])

/-- No name is listed twice, even on a disk that is put together
from many entries. -/
theorem names_nodup (hProper : d.Proper) (directory : Place) : (d.names directory).Nodup := by
  have hNames : d.names directory = Sorting.sort (fun a b => !(decide (b < a)))
      ((d.entries.map Prod.fst).filterMap fun key =>
        if key.length = directory.length + 1 && directory.isPrefixOf key then key.getLast?
        else none) := by
    rw [names, List.filterMap_map]
    rfl
  rw [hNames, (Sorting.sort_perm _ _).nodup_iff]
  refine hProper.keys.filterMap fun a b n ha hb => ?_
  rw [eq_append_of_child ha, eq_append_of_child hb]

end Disk

namespace Scan

open SourceAtlas.Action

variable {d : Disk} {here : Standpoint}

theorem looks_listing (directory : Path) : Looks (listing directory) := by
  refine (looks_listNames directory).attempt.bind fun names => ?_
  split <;> exact looks_pure _

theorem looks_isWithin (root file : Path) : Looks (isWithin root file) :=
  (looks_canonical root).bind fun _ => (looks_canonical file).bind fun _ => looks_pure _

/-- Where both paths lead somewhere, one is within the other if
its place is below. -/
theorem isWithin_on {w : World} {root file : Path} {a b : Disk.Arrival}
    (hRoot : w.disk.locate true (w.here.join root) = .ok a) (hFile : w.disk.locate true (w.here.join file) = .ok b) :
    (isWithin root file).on w = (.ok (decide (a.place <+: b.place)), w) := by
  have hBase : (Action.canonical root).on w = (.ok ⟨.root, a.place⟩, w) := by
    rw [canonical_on, Disk.canonical_of_locate hRoot]
  have hPath : (Action.canonical file).on w = (.ok ⟨.root, b.place⟩, w) := by
    rw [canonical_on, Disk.canonical_of_locate hFile]
  rw [isWithin, on_bind_ok hBase, on_bind_ok hPath, on_pure]
  congr 2
  rw [Bool.eq_iff_iff, Option.isSome_iff_exists, decide_eq_true_eq]
  simp only [Path.relativeTo?_eq_some_iff]
  constructor
  · rintro ⟨q, -, -, hParts⟩
    exact ⟨q.parts, hParts.symm⟩
  · rintro ⟨rest, hParts⟩
    exact ⟨⟨.none, rest⟩, trivial, rfl, hParts.symm⟩

theorem looks_isSource (o : ScanOptions) (ignoring : List IgnoreFile) (root file : Path) :
    Looks (isSource o ignoring root file) := by
  rw [isSource]
  split
  · exact looks_pure _
  · refine (looks_ask _ _).bind fun isLink => ?_
    split
    · exact looks_pure _
    · refine (looks_ask _ _).bind fun isFile => ?_
      split
      · exact looks_pure _
      · refine (looks_isWithin _ _).bind fun isWithin => ?_
        split
        · exact looks_pure _
        · split
          · exact looks_throw _
          · exact looks_pure _
          · exact looks_pure _

theorem looks_entry (o : ScanOptions) (ignoring : List IgnoreFile) (root : Path) (depth : Nat)
    (path : Path) : Looks (entry o ignoring root depth path) := by
  induction depth generalizing path with
  | zero => exact looks_pure _
  | succ depth ih =>
      rw [entry]
      refine (looks_ask _ _).bind fun isDirectory => ?_
      split
      · split
        · exact looks_pure _
        · refine (looks_ask _ _).bind fun isLink => ?_
          split
          · exact looks_pure _
          · refine (looks_listing path).bind fun entries => ?_
            split
            · exact (looks_log _ _ _).bind fun _ => looks_pure _
            · exact (looks_mapM ih _).bind fun _ => looks_pure _
      · refine (looks_isSource _ _ _ _).bind fun isSource => ?_
        split <;> exact looks_pure _

section Ignoring

variable {R : World → World → Prop} [IsTrans World R]

/-- Loading an ignore file moves the world no further than looking at
entries and reading do. -/
theorem moves_ignoreFile_load (hRefl : ∀ w, R w w) (hEntry : ∀ p, Moves R (Action.entry p)) (path : Path) :
    Moves R (IgnoreFile.load path) := by
  apply (hEntry path).bind
  intro e
  split
  · split
    · exact hRefl
    · split
      · exact hRefl
      · exact hRefl
  · exact hRefl

/-- Reading the ignore files asks about paths and reads entries, and does
nothing else. -/
theorem moves_ignoreFile_collect (hRefl : ∀ w, R w w)
    (hAsk : ∀ question p, Moves R (ask question p)) (hEntry : ∀ p, Moves R (Action.entry p)) (root : Path)
    (nested : Bool) : Moves R (IgnoreFile.collect root nested) := by
  have hLoad (files : List Path) : Moves R (files.mapM IgnoreFile.load) :=
    Moves.mapM hRefl fun file _ => moves_ignoreFile_load hRefl hEntry file
  have hGet : Moves R (get : Action World) := hRefl
  rw [IgnoreFile.collect]
  split
  · refine Moves.bind ?_ hLoad
    exact hGet.bind fun w => (Moves.filterM hRefl (fun _ => hAsk _ _) _).bind fun _ => hRefl
  · exact (hAsk _ _).bind fun present => hLoad _

end Ignoring

theorem looks_ignoreFile_collect (root : Path) (nested : Bool) :
    Looks (IgnoreFile.collect root nested) :=
  moves_ignoreFile_collect World.Looked.refl looks_ask Action.looks_entry root nested

/-- A scan only looks. It may use up locks and say what it found, and
changes no entry. -/
theorem looks_project (o : ScanOptions) (root : Path) : Looks (project o root) := by
  refine (looks_resolve root).bind fun root => (looks_ask _ _).bind fun isDirectory => ?_
  refine Looks.unless ((looks_listing root).bind fun entries => ?_)
  split
  · exact looks_throw _
  · refine looks_choice (looks_ignoreFile_collect _ _) (looks_pure _) fun ignoring => ?_
    exact looks_get.bind fun w => (looks_mapM (looks_entry _ _ _ _) _).bind fun found =>
      (looks_log _ _ _).bind fun _ => looks_pure _

/-- A file that a scan may give: below where the scan began, made of
names, and there. -/
structure Found (d : Disk) (start p : Path) : Prop where
  anchor : p.anchor = .root
  named : p.Named
  below : start.parts <+: p.parts
  file : ∃ place bytes mtime, d.locate true p = .ok (.found place (.file bytes mtime))

/-- A fault names a directory and says why it cannot be listed. -/
def Unlisted (fault : ScanFault) : Prop :=
  ∃ (p : Path) (e : Errno), fault = ⟨"Cannot read directory " ++ p.text ++ ": " ++ e.words, p.text⟩

/-- The files of a scan are there and all different, and its faults are
directories that could not be listed. -/
structure Sound (d : Disk) (start : Path) (s : Scan) : Prop where
  nodup : s.files.Nodup
  found : ∀ p ∈ s.files, Found d start p
  said : ∀ fault ∈ s.faults, Unlisted fault

theorem sound_none (d : Disk) (start : Path) {faults : List ScanFault} (hSaid : ∀ fault ∈ faults, Unlisted fault) :
    Sound d start ⟨[], faults⟩ := ⟨List.nodup_nil, by simp, hSaid⟩

theorem sound_empty (d : Disk) (start : Path) : Sound d start ⟨[], []⟩ := sound_none d start (by simp)

/-- The files of scans one behind another are those of each in turn. -/
theorem concat_files (parts : List Scan) : (concat parts).files = parts.flatMap Scan.files := by
  induction parts with
  | nil => rfl
  | cons s parts ih =>
      rw [List.flatMap_cons, ← ih]
      rfl

theorem concat_faults (parts : List Scan) : (concat parts).faults = parts.flatMap Scan.faults := by
  induction parts with
  | nil => rfl
  | cons s parts ih =>
      rw [List.flatMap_cons, ← ih]
      rfl

/-- A file among the scans of entries was found below one of them. -/
theorem found_of_mem_concat {start : Path} {names : List Text} {parts : List Scan}
    (hParts : List.Forall₂ (fun n s => Sound d (child start n) s) names parts) {p : Path}
    (hp : p ∈ (concat parts).files) : ∃ n ∈ names, Found d (child start n) p := by
  rw [concat_files, List.mem_flatMap] at hp
  obtain ⟨s, hs, hp⟩ := hp
  obtain ⟨n, hn, hSound⟩ := exists_of_forall₂_right hParts hs
  exact ⟨n, hn, hSound.found p hp⟩

/-- No path lies below two entries of one directory, as it has only one name
at that level. -/
theorem name_unique {p q : Path} {m n : Text} (hFirst : (child p m).parts <+: q.parts)
    (hSecond : (child p n).parts <+: q.parts) : m = n := by
  have hSame : p.parts ++ [m] = p.parts ++ [n] := by
    apply (List.prefix_of_prefix_length_le hFirst hSecond _).eq_of_length
    · simp [child]
    · simp [child]
  simpa using hSame

/-- Scans of different entries of one directory have no file in common, so
that none is listed twice. -/
theorem sound_concat {start : Path} {names : List Text} (hNames : names.Nodup) {parts : List Scan}
    (hParts : List.Forall₂ (fun n s => Sound d (child start n) s) names parts) :
    Sound d start (concat parts) := by
  refine ⟨?_, fun p hp => ?_, fun fault hFault => ?_⟩
  · induction hParts with
    | nil => exact List.nodup_nil
    | @cons n s names parts hSound hRest ih =>
        rw [List.nodup_cons] at hNames
        refine List.nodup_append.mpr ⟨hSound.nodup, ih hNames.2, fun p hp q hq hEq => ?_⟩
        obtain ⟨m, hm, hFound⟩ := found_of_mem_concat hRest (hEq ▸ hq)
        exact hNames.1 (name_unique (hSound.found p hp).below hFound.below ▸ hm)
  · obtain ⟨n, -, hFound⟩ := found_of_mem_concat hParts hp
    exact ⟨hFound.anchor, hFound.named, (List.prefix_append _ _).trans hFound.below, hFound.file⟩
  · rw [concat_faults, List.mem_flatMap] at hFault
    obtain ⟨s, hs, hFault⟩ := hFault
    obtain ⟨n, -, hSound⟩ := exists_of_forall₂_right hParts hs
    exact hSound.said fault hFault

/-- What passes as a source is a regular file, links to it followed. -/
theorem gives_isSource (o : ScanOptions) (ignoring : List IgnoreFile) (root : Path) {file : Path}
    (hAbsolute : file.isAbsolute = true) :
    Gives d here (isSource o ignoring root file) fun isSource => isSource = true →
      ∃ place bytes mtime, d.locate true file = .ok (.found place (.file bytes mtime)) := by
  rw [isSource]
  split
  · exact gives_pure nofun
  · refine (gives_true _).bind (looks_ask _ _) fun isLink _ => ?_
    split
    · exact gives_pure nofun
    · refine (gives_ask Disk.isFile file).bind (looks_ask _ _) fun isFile hFile => ?_
      split
      · exact gives_pure nofun
      · next hIsFile =>
        obtain rfl : isFile = true := by simpa using hIsFile
        rw [Path.join, if_pos hAbsolute] at hFile
        refine Gives.mono (gives_true _) fun _ _ _ => ?_
        exact Disk.found_of_isFile hFile

/-- A listing gives the names on the disk as paths below the directory, or
the fault that names it. -/
theorem gives_listing (directory : Path) :
    Gives d here (listing directory) fun entries =>
      (∀ found, entries = .ok found →
        ∃ place, d.locate true (here.join directory) = .ok (.found place .directory) ∧
          found = (d.names place).map (child directory)) ∧
      ∀ fault, entries = .error fault → Unlisted fault := by
  refine (gives_listNames directory).attempt.bind (looks_listNames directory).attempt fun names hNames => ?_
  split
  · next names =>
    obtain ⟨place, hLocate, rfl⟩ := hNames names rfl
    exact gives_pure ⟨fun found hFound => ⟨place, hLocate, (Except.ok.inj hFound).symm⟩, nofun⟩
  · next e =>
    exact gives_pure ⟨nofun, fun fault hFault => ⟨directory, e.errno, (Except.error.inj hFault).symm⟩⟩

theorem child_named {path : Path} (hNamed : path.Named) {n : Text} (hn : IsName n) :
    (child path n).Named := by
  intro m hm
  rcases List.mem_append.mp hm with hm | hm
  · exact hNamed m hm
  · exact List.mem_singleton.mp hm ▸ hn

/-- The scan of an entry gives files that are there below it, each once, and
faults of directories. -/
theorem gives_entry (hProper : d.Proper) (o : ScanOptions) (ignoring : List IgnoreFile) (root : Path)
    (depth : Nat) {path : Path} (hAnchor : path.anchor = .root) (hNamed : path.Named) :
    Gives d here (entry o ignoring root depth path) (Sound d path) := by
  induction depth generalizing path with
  | zero => exact gives_pure (sound_empty _ _)
  | succ depth ih =>
      rw [entry]
      refine (gives_true _).bind (looks_ask _ _) fun isDirectory _ => ?_
      split
      · split
        · exact gives_pure (sound_empty _ _)
        · refine (gives_true _).bind (looks_ask _ _) fun isLink _ => ?_
          split
          · exact gives_pure (sound_empty _ _)
          · refine (gives_listing path).bind (looks_listing path) fun entries hEntries => ?_
            split
            · next fault =>
              refine (gives_true _).bind (looks_log _ _ _) fun _ _ => gives_pure (sound_none _ _ ?_)
              exact List.forall_mem_singleton.mpr (hEntries.2 fault rfl)
            · next entries =>
              obtain ⟨place, -, rfl⟩ := hEntries.1 entries rfl
              have hEach : ∀ p ∈ (d.names place).map (child path),
                  Gives d here (entry o ignoring root depth p) (Sound d p) := by
                intro p hp
                obtain ⟨n, hn, rfl⟩ := List.mem_map.mp hp
                exact ih hAnchor (child_named hNamed (Disk.isName_of_mem_names hProper hn))
              refine (gives_mapM (looks_entry _ _ _ _) hEach).bind
                (looks_mapM (looks_entry _ _ _ _) _) fun parts hParts => ?_
              rw [List.forall₂_map_left_iff] at hParts
              exact gives_pure (sound_concat (Disk.names_nodup hProper place) hParts)
      · have hAbsolute : path.isAbsolute = true := by simp [Path.isAbsolute, hAnchor]
        refine (gives_isSource o ignoring root hAbsolute).bind (looks_isSource _ _ _ _)
          fun isSource hSource => ?_
        split
        · next hIsSource =>
          refine gives_pure ⟨List.nodup_singleton _, fun p hp => ?_, by simp⟩
          obtain rfl := List.mem_singleton.mp hp
          exact ⟨hAnchor, hNamed, List.prefix_rfl, hSource hIsSource⟩
        · exact gives_pure (sound_empty _ _)

/-- A scan that succeeds began at a directory made of names and
gives files below it. -/
theorem gives_project (hProper : d.Proper) (o : ScanOptions) (root : Path) :
    Gives d here (project o root) fun found => here.resolve d root = .ok found.1 ∧
      found.1.Named ∧ Sound d found.1 found.2 := by
  refine (gives_resolve root).bind (looks_resolve root) fun root hRoot => ?_
  refine (gives_ask Disk.isDirectory root).bind (looks_ask _ _) fun isDirectory hDirectory => ?_
  refine Gives.unless fun hIs => ?_
  obtain rfl : isDirectory = true := by simpa using hIs
  have hAnchor := Standpoint.resolve_anchor hRoot
  have hAbsolute : root.isAbsolute = true := by simp [Path.isAbsolute, hAnchor]
  rw [Path.join, if_pos hAbsolute] at hDirectory
  have hNamed : root.Named := by
    obtain ⟨place, item, hLocate, -⟩ := Disk.found_of_test hDirectory
    exact Standpoint.resolve_named hProper hRoot hLocate
  refine (gives_listing root).bind (looks_listing root) fun entries hEntries => ?_
  split
  · exact gives_throw _
  · next entries =>
    obtain ⟨place, -, rfl⟩ := hEntries.1 entries rfl
    refine gives_choice (looks_ignoreFile_collect _ _) (looks_pure _) fun ignoring => ?_
    refine (gives_true _).bind looks_get fun w _ => ?_
    have hEach : ∀ p ∈ (d.names place).map (child root),
        Gives d here (entry o ignoring root w.disk.entries.length p) (Sound d p) := by
      intro p hp
      obtain ⟨n, hn, rfl⟩ := List.mem_map.mp hp
      exact gives_entry hProper _ _ _ _ hAnchor
        (child_named hNamed (Disk.isName_of_mem_names hProper hn))
    refine (gives_mapM (looks_entry _ _ _ _) hEach).bind
      (looks_mapM (looks_entry _ _ _ _) _) fun parts hParts => ?_
    rw [List.forall₂_map_left_iff] at hParts
    refine (gives_true _).bind (looks_log _ _ _) fun _ _ => ?_
    exact gives_pure ⟨hRoot, hNamed, sound_concat (Disk.names_nodup hProper place) hParts⟩

end Scan

end SourceAtlas
