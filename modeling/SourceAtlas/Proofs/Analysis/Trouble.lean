import SourceAtlas.Proofs.Analysis.Confinement
import SourceAtlas.Proofs.Analysis.Ending
import SourceAtlas.Proofs.Walk

/-!
What keeps an analysis from ending in a way that is reported. It is the fault of the tree or of the
names that are given: a configuration or an ignore file that is no text, an integer of too many digits,
an ignore file with a broken rule, links that lead in a circle, a path with a character that no name
has, or a home that nobody has.
-/
namespace SourceAtlas

open SourceAtlas.Action

/-- A configuration that a directory of this tree gives. Locks may have worn
off before. -/
def World.Loads (w : World) (root : Path) (config : Config) : Prop :=
  ∃ v v', v.disk = w.disk ∧ v.here = w.here ∧ (Config.load root).on v = (.ok config, v')

/-- Paths that are asked for their canonical form: those that texts name,
canonical forms again, and the directory of the cache as the configuration
in a directory names it. -/
inductive World.Asked (w : World) (texts : List Text) : Path → Prop where
  | named {text : Text} {p : Path} (hText : text ∈ texts) (hExpand : w.here.expand (Path.parse text) = .ok p) :
      Asked w texts (w.here.join p)
  | again {p q : Path} (hAsked : Asked w texts p) (hCanonical : w.disk.canonical p = .ok q) : Asked w texts q
  | cacheDir {base start : Path} {config : Config} (hAsked : Asked w texts base) (hLoads : w.Loads base config)
      (hCanonical : w.disk.canonical base = .ok start) :
      Asked w texts (start.join (Path.parse config.cacheDir))

/-- Paths that are resolved: those that texts name, and paths from the root
that are asked about. -/
inductive World.Sought (w : World) (texts : List Text) : Path → Prop where
  | named {text : Text} (hText : text ∈ texts) : Sought w texts (Path.parse text)
  | asked {p : Path} (hAbsolute : p.isAbsolute = true) (hAsked : w.Asked texts p) : Sought w texts p

/-- The directories of configurations: paths that are asked about, and what
is above one. -/
inductive World.Based (w : World) (texts : List Text) : Path → Prop where
  | asked {p : Path} (hAsked : w.Asked texts p) : Based w texts p
  | parent {p : Path} (hAsked : w.Asked texts p) : Based w texts p.parent

/-- The path of an ignore file below a path that is asked about. -/
structure World.IgnoreAt (w : World) (texts : List Text) (path : Path) : Prop where
  name : path.name = IgnoreFile.fileName
  below : ∃ root, w.Asked texts root ∧ root.parts <+: path.parts

/-- An ignore file with its text. -/
structure World.Rules (w : World) (texts : List Text) (path : Path) (cs : List Char) : Prop where
  place : w.IgnoreAt texts path
  content : ∃ bytes, w.content? path = some bytes ∧ Text.Utf8.decode bytes = .ok cs

/-- What the tree and the texts that name paths in it make an action stop
for without a report. -/
inductive World.Trouble (w : World) (texts : List Text) : Failure → Prop where
  /-- A configuration is no text. -/
  | garbledConfig {root : Path} {bytes : List UInt8} {fault : Text.Utf8.Fault} (hBased : w.Based texts root)
      (hContent : w.content? (Config.filePath root) = some bytes) (hDecode : Text.Utf8.decode bytes = .error fault) :
      Trouble w texts .notUtf8
  /-- A configuration has an integer of too many digits. -/
  | hugeNumber {root : Path} {bytes : List UInt8} (hBased : w.Based texts root)
      (hContent : w.content? (Config.filePath root) = some bytes) (hOversized : Config.Oversized bytes) :
      Trouble w texts .digitLimit
  /-- An ignore file is no text. -/
  | garbledRules {path : Path} {bytes : List UInt8} {fault : Text.Utf8.Fault} (hPlace : w.IgnoreAt texts path)
      (hContent : w.content? path = some bytes) (hDecode : Text.Utf8.decode bytes = .error fault) :
      Trouble w texts .notUtf8
  | emptyRule {path : Path} {cs : List Char} {e : Pattern.Ignore.Emptied} (hRules : w.Rules texts path cs)
      (hParse : Pattern.Ignore.parse cs = .error e) : Trouble w texts .emptyIgnoreRule
  | badRange {path : Path} {cs : List Char} {rules : List Pattern.Ignore.Rule} {relative : Text}
      {e : Pattern.Ignore.Broken} (hRules : w.Rules texts path cs) (hParse : Pattern.Ignore.parse cs = .ok rules)
      (hIgnores : Pattern.Ignore.ignores rules relative = .error e) : Trouble w texts .badIgnoreRange
  /-- Links lead in a circle. -/
  | circle {path : Path} (hAsked : w.Asked texts path) (hCircle : w.disk.canonical path = .error .circle) :
      Trouble w texts .linkCircle
  /-- A path has a character that no name has. -/
  | nul {path : Path} (hAsked : w.Asked texts path) (hUnclean : ¬ path.Clean) : Trouble w texts .nulInPath
  /-- A text names a home that there is not. -/
  | astray {text : Text} {f : Failure} (hText : text ∈ texts) (hExpand : w.here.expand (Path.parse text) = .error f) :
      Trouble w texts f

/-- Failures among which are all that are reported and all that the tree is
to blame for. -/
structure World.Covers (w : World) (texts : List Text) (P : Failure → Prop) : Prop where
  refusal : ∀ e, P (.system e)
  root : ∀ message path, P (.rootUnreadable message path)
  config : ∀ fault, P (.config fault)
  trouble : ∀ f, w.Trouble texts f → P f

variable {w : World} {texts : List Text} {P : Failure → Prop} (hCovers : w.Covers texts P)

/-- What is resolved is asked about. -/
theorem World.Sought.asked_of_resolve {w : World} {texts : List Text} {p q : Path} (hSought : w.Sought texts p)
    (hResolve : w.here.resolve w.disk p = .ok q) : w.Asked texts q := by
  cases hSought with
  | named hText =>
      obtain ⟨e, hExpand, hCanonical⟩ := Standpoint.resolve_eq_ok_iff.mp hResolve
      exact (World.Asked.named hText hExpand).again hCanonical
  | asked hAbsolute hAsked => exact hAsked.again ((Standpoint.resolve_of_absolute hAbsolute).mp hResolve)

/-- What was resolved can be resolved again. -/
theorem World.Sought.again {w : World} {texts : List Text} {p q : Path} (hSought : w.Sought texts p)
    (hResolve : w.here.resolve w.disk p = .ok q) : w.Sought texts q :=
  .asked (Standpoint.resolve_isAbsolute hResolve) (hSought.asked_of_resolve hResolve)

include hCovers

/-- Asking for a canonical form stops for a null character in what
was asked, a circle of links, or a name that is too long, and all of
these are covered. -/
theorem World.Covers.fails_canonical {p : Path} (hAsked : w.Asked texts (w.here.join p)) :
    Fails w.disk w.here (Action.canonical p) P :=
  Action.fails_canonical (fun hCircle => hCovers.trouble _ (.circle hAsked hCircle))
    fun hNul => hCovers.trouble _ (.nul hAsked fun hClean => hClean.canonical_ne_nul _ hNul)

/-- A path is resolved unless it names a home that there is not, leads in a
circle or has a character that no name has. -/
theorem World.Covers.fails_resolve {p : Path} (hSought : w.Sought texts p) :
    Fails w.disk w.here (Action.resolve p) P := by
  refine Action.fails_resolve fun f hError => ?_
  have hFound {q : Path} (hAsked : w.Asked texts q) (hCanonical : w.disk.canonical q = .error .circle ∧ f = .linkCircle ∨
      w.disk.canonical q = .error .nul ∧ f = .nulInPath) : P f := by
    rcases hCanonical with ⟨hCircle, rfl⟩ | ⟨hNul, rfl⟩
    · exact hCovers.trouble _ (.circle hAsked hCircle)
    · exact hCovers.trouble _ (.nul hAsked fun hClean => hClean.canonical_ne_nul _ hNul)
  rcases Standpoint.resolve_eq_error_iff.mp hError with hExpand | ⟨e, hExpand, hCanonical⟩
  · cases hSought with
    | named hText => exact hCovers.trouble _ (.astray hText hExpand)
    | asked hAbsolute hAsked =>
        rw [Standpoint.expand_of_absolute hAbsolute] at hExpand
        cases hExpand
  · cases hSought with
    | named hText => exact hFound (.named hText hExpand) hCanonical
    | asked hAbsolute hAsked =>
        rw [Standpoint.expand_of_absolute hAbsolute] at hExpand
        obtain rfl := Except.ok.inj hExpand
        rw [Path.join_of_absolute hAbsolute] at hCanonical
        exact hFound hAsked hCanonical

theorem fails_load {root : Path} (hBased : w.Based texts root) : Fails w.disk w.here (Config.load root) P := by
  rw [Config.load]
  refine (fails_ask hCovers.refusal _ _).bind (looks_ask _ _) (gives_ask _ _) fun present hPresent => ?_
  split
  · next hThere =>
    obtain rfl : present = true := hThere
    obtain ⟨place, bytes, mtime, hLocate⟩ := Disk.found_of_isFile hPresent
    have hRead : Fails w.disk w.here (Action.readBytes (Config.filePath root)) P :=
      fails_of_refusable (refusable_readBytes (Disk.ne_nul_of_locate hLocate)) hCovers.refusal
    refine hRead.attempt.bind (looks_readBytes _).attempt (Analysis.gives_readBytes w _).attempt
      fun content hContent => ?_
    split
    · exact fails_throw (hCovers.config _)
    · next bytes =>
      split
      · exact fails_pure _
      · next f hError =>
        refine fails_throw ?_
        rcases Config.ofBytes_error hError with ⟨rfl, fault, hDecode⟩ | ⟨rfl, hOversized⟩ | ⟨fault, rfl⟩
        · exact hCovers.trouble _ (.garbledConfig hBased (hContent bytes rfl) hDecode)
        · exact hCovers.trouble _ (.hugeNumber hBased (hContent bytes rfl) hOversized)
        · exact hCovers.config fault
  · exact fails_pure _

namespace IgnoreFile

omit hCovers in
/-- An ignore file that is loaded has the rules that its text is parsed to. -/
theorem gives_load {path : Path} (hPlace : w.IgnoreAt texts path) : Gives w.disk w.here (load path) fun file =>
    ∃ cs, w.Rules texts path cs ∧ Pattern.Ignore.parse cs = .ok file.rules := by
  rw [load]
  refine (gives_entry path).bind (Action.looks_entry path) fun e hEntry => ?_
  split
  · next bytes mtime hItem =>
    rw [hItem] at hEntry
    have hContent : w.content? path = some bytes := World.content?_eq_some_iff.mpr ⟨_, _, hEntry⟩
    split
    · exact gives_throw _
    · next cs hDecode =>
      split
      · exact gives_throw _
      · next rules hParse => exact gives_pure ⟨cs, ⟨hPlace, bytes, hContent, hDecode⟩, hParse⟩
  · exact gives_throw _

theorem fails_load {path : Path} (hPlace : w.IgnoreAt texts path)
    (hFile : w.disk.isFile (w.here.join path) = .ok true) : Fails w.disk w.here (load path) P := by
  obtain ⟨place, bytes, mtime, hLocate⟩ := Disk.found_of_isFile hFile
  have hEntry : Fails w.disk w.here (Action.entry path) P :=
    fails_of_refusable (refusable_entry (Disk.ne_nul_of_locate hLocate)) hCovers.refusal
  rw [load]
  refine hEntry.bind (Action.looks_entry path) (gives_entry path) fun e hFound => ?_
  split
  · next bytes mtime hItem =>
    rw [hItem] at hFound
    have hContent : w.content? path = some bytes := World.content?_eq_some_iff.mpr ⟨_, _, hFound⟩
    split
    · next fault hDecode => exact fails_throw (hCovers.trouble _ (.garbledRules hPlace hContent hDecode))
    · next cs hDecode =>
      split
      · next e hParse =>
        exact fails_throw (hCovers.trouble _ (.emptyRule ⟨hPlace, bytes, hContent, hDecode⟩ hParse))
      · exact fails_pure _
  · exact fails_throw (hCovers.refusal _)

omit hCovers in
theorem looks_present (files : List Path) : Looks (files.filterM Action.isFile) :=
  Moves.filterM World.Looked.refl (fun _ => looks_ask _ _) files

omit hCovers in
/-- The files that are present were asked for and pass the test for files. -/
theorem gives_present (w : World) (files : List Path) : Gives w.disk w.here (files.filterM Action.isFile)
    fun present => ∀ file ∈ present, file ∈ files ∧ w.disk.isFile (w.here.join file) = .ok true := by
  refine gives_filterM (fun _ => looks_ask _ _) (fun file => ?_) files
  exact (gives_ask Disk.isFile file).mono fun b hb hTrue => hTrue ▸ hb

/-- The paths of the ignore files of a project that are there. -/
def paths (root : Path) (nested : Bool) : Action (List Path) :=
  if nested then allBelow root
  else do
    let file := root.join (Path.parse fileName)
    return if ← Action.isFile file then [file] else []

omit hCovers in
/-- Collecting ignore files is finding their paths and loading each. -/
theorem collect_eq (root : Path) (nested : Bool) : collect root nested =
    paths root nested >>= fun files => files.mapM load := by
  rw [collect, paths]
  split
  · rfl
  · rw [bind_assoc]

omit hCovers in
theorem looks_paths (root : Path) (nested : Bool) : Looks (paths root nested) := by
  rw [paths]
  split
  · exact looks_get.bind fun v => (looks_present _).bind fun _ => looks_pure _
  · exact (looks_ask _ _).bind fun _ => looks_pure _

omit hCovers in
/-- A directory below a root starts with the root. -/
theorem prefix_of_mem_directoriesBelow {d : Disk} {root place : Place} (hPlace : place ∈ directoriesBelow d root) :
    root <+: place := by
  simp only [directoriesBelow, List.mem_map, List.mem_filter, Bool.and_eq_true] at hPlace
  obtain ⟨e, ⟨-, ⟨-, hPrefix⟩, -⟩, rfl⟩ := hPlace
  exact List.isPrefixOf_iff_prefix.mp hPrefix

omit hCovers in
/-- The paths are those of ignore files below the root, which are there. -/
theorem gives_paths {root : Path} (hAsked : w.Asked texts root) (nested : Bool) :
    Gives w.disk w.here (paths root nested) fun files =>
      ∀ file ∈ files, w.IgnoreAt texts file ∧ w.disk.isFile (w.here.join file) = .ok true := by
  rw [paths]
  split
  · refine (gives_true _).bind looks_get fun v _ => ?_
    refine (gives_present w _).bind (looks_present _) fun present hPresent => gives_pure fun file hFile => ?_
    obtain ⟨hMem, hThere⟩ := hPresent file (Sorting.mem_sort.mp hFile)
    obtain ⟨place, hPlace, rfl⟩ := List.mem_map.mp hMem
    refine ⟨⟨by simp [Path.name], root, hAsked, ?_⟩, hThere⟩
    rcases List.mem_cons.mp hPlace with rfl | hPlace
    · exact List.prefix_append _ _
    · exact (prefix_of_mem_directoriesBelow hPlace).trans (List.prefix_append _ _)
  · refine (gives_ask _ _).bind (looks_ask _ _) fun present hPresent => gives_pure fun file hFile => ?_
    split at hFile
    · next hThere =>
      obtain rfl := List.mem_singleton.mp hFile
      have hParse : Path.parse fileName = ⟨.none, [fileName]⟩ := by decide
      refine ⟨⟨?_, root, hAsked, ?_⟩, hThere ▸ hPresent⟩
      · simp [hParse, Path.join, Path.isAbsolute, Path.name]
      · rw [hParse]
        exact List.prefix_append _ _
    · cases hFile

theorem fails_paths (root : Path) (nested : Bool) : Fails w.disk w.here (paths root nested) P := by
  rw [paths]
  split
  · refine (fails_of_answers answers_get).next looks_get fun v => ?_
    refine (fails_filterM (fun _ => looks_ask _ _) (fun file => ?_) _).next (looks_present _) fun _ => fails_pure _
    exact fails_ask hCovers.refusal _ file
  · exact (fails_ask hCovers.refusal _ _).next (looks_ask _ _) fun _ => fails_pure _

omit hCovers in
theorem looks_load (file : Path) : Looks (load file) :=
  Scan.moves_ignoreFile_load World.Looked.refl Action.looks_entry file

/-- Collecting the ignore files of a root stops only for what is covered. -/
theorem fails_collect {root : Path} (hAsked : w.Asked texts root) (nested : Bool) :
    Fails w.disk w.here (collect root nested) P := by
  rw [collect_eq]
  refine (fails_paths hCovers root nested).bind (looks_paths root nested) (gives_paths hAsked nested) ?_
  exact fun files hFiles => fails_mapM looks_load fun file hFile =>
    fails_load hCovers (hFiles file hFile).1 (hFiles file hFile).2

omit hCovers in
/-- The rules that a scan goes by are those of ignore files. -/
theorem gives_collect {root : Path} (hAsked : w.Asked texts root) (nested : Bool) :
    Gives w.disk w.here (collect root nested) fun ignoring => ∀ file ∈ ignoring,
      ∃ path cs, w.Rules texts path cs ∧ Pattern.Ignore.parse cs = .ok file.rules := by
  rw [collect_eq]
  refine (gives_paths hAsked nested).bind (looks_paths root nested) fun files hFiles => ?_
  refine (gives_mapM looks_load fun file hFile => gives_load (hFiles file hFile).1).mono ?_
  intro ignoring hAll file hFile
  obtain ⟨path, -, hRules⟩ := exists_of_forall₂_right hAll hFile
  exact ⟨path, hRules⟩

omit hCovers in
/-- If ignore files fail on a path, one of them has a pattern
that is broken there. -/
theorem anyIgnores_error {path : Path} {ignoring : List IgnoreFile} {e : Pattern.Ignore.Broken}
    (hError : anyIgnores path ignoring = .error e) :
    ∃ file ∈ ignoring, ∃ relative, Pattern.Ignore.ignores file.rules relative = .error e := by
  induction ignoring with
  | nil => cases hError
  | cons file rest ih =>
      have hRest (hError : anyIgnores path rest = .error e) : ∃ f ∈ file :: rest, ∃ relative,
          Pattern.Ignore.ignores f.rules relative = .error e := by
        obtain ⟨f, hf, hIgnores⟩ := ih hError
        exact ⟨f, List.mem_cons_of_mem _ hf, hIgnores⟩
      rw [anyIgnores] at hError
      split at hError
      · exact hRest hError
      · next relative _ =>
        split at hError
        · next e' hIgnores =>
          obtain rfl := Except.error.inj hError
          exact ⟨file, List.mem_cons_self .., relative.text, hIgnores⟩
        · cases hError
        · exact hRest hError

end IgnoreFile

namespace Scan

variable {o : ScanOptions} {ignoring : List IgnoreFile}

omit hCovers in
/-- Listing a directory that is there stops for nothing but what is covered:
a lock gives a fault, and no failure. -/
theorem fails_listing {p : Path} (hDirectory : w.disk.isDirectory (w.here.join p) = .ok true) :
    Fails w.disk w.here (listing p) P := by
  obtain ⟨place, item, hLocate, -⟩ := Disk.found_of_test hDirectory
  exact fails_of_answers (answers_listing (Disk.ne_nul_of_locate hLocate))

section

variable {root : Path} (hIgnoring : ∀ p e, IgnoreFile.anyIgnores p ignoring = .error e → P .badIgnoreRange)
  (hRoot : w.disk.isDirectory (w.here.join root) = .ok true)

include hIgnoring hRoot

theorem fails_isSource (file : Path) : Fails w.disk w.here (isSource o ignoring root file) P := by
  rw [isSource]
  split
  · exact fails_pure _
  · refine (fails_ask hCovers.refusal _ _).next (looks_ask _ _) fun link => ?_
    split
    · exact fails_pure _
    · refine (fails_ask hCovers.refusal _ _).bind (looks_ask _ _) (gives_ask _ _) fun isFile hFile => ?_
      split
      · exact fails_pure _
      · next hThere =>
        obtain rfl : isFile = true := by simpa using hThere
        -- both lead somewhere, so both have canonical forms
        have hWithin : Fails w.disk w.here (isWithin root file) P := by
          obtain ⟨base, item, hBase, -⟩ := Disk.found_of_test hRoot
          obtain ⟨place, bytes, mtime, hLocate⟩ := Disk.found_of_isFile hFile
          refine fails_of_answers fun v hDisk hHere => ?_
          rw [← hDisk, ← hHere] at hBase hLocate
          exact ⟨_, v, isWithin_on hBase hLocate⟩
        refine hWithin.next (looks_isWithin _ _) fun within => ?_
        split
        · exact fails_pure _
        · split
          · next e hError => exact fails_throw (hIgnoring _ _ hError)
          · exact fails_pure _
          · exact fails_pure _

/-- Scanning an entry to any depth stops only for what is covered. -/
theorem fails_entry (depth : Nat) (p : Path) :
    Fails w.disk w.here (entry o ignoring root depth p) P := by
  induction depth generalizing p with
  | zero => exact fails_pure _
  | succ depth ih =>
      rw [entry]
      refine (fails_ask hCovers.refusal _ _).bind (looks_ask _ _) (gives_ask _ _) fun directory hDirectory => ?_
      split
      · next hThere =>
        obtain rfl : directory = true := hThere
        split
        · exact fails_pure _
        · refine (fails_ask hCovers.refusal _ _).next (looks_ask _ _) fun link => ?_
          split
          · exact fails_pure _
          · refine (fails_listing hDirectory).next (looks_listing p) fun entries => ?_
            split
            · exact fails_of_stopsBy ((stopsBy_log _ _ _).bind fun _ => stopsBy_pure _)
            · exact (fails_mapM (looks_entry _ _ _ _) fun q _ => ih q).next
                (looks_mapM (looks_entry _ _ _ _) _) fun _ => fails_pure _
      · refine (fails_isSource hCovers hIgnoring hRoot p).next (looks_isSource _ _ _ _) fun isSource => ?_
        split <;> exact fails_pure _

end

/-- A walk from a directory stops only for what is covered, if a broken
pattern is. -/
theorem fails_walk {x : Opening}
    (hIgnoring : ∀ p e, IgnoreFile.anyIgnores p x.ignoring = .error e → P .badIgnoreRange)
    (hRoot : w.disk.isDirectory (w.here.join x.root) = .ok true) :
    Fails w.disk w.here (walk o x) P := by
  refine (fails_of_answers answers_get).next looks_get fun v => ?_
  refine (fails_mapM (looks_entry _ _ _ _) fun p _ => fails_entry hCovers hIgnoring hRoot _ p).next
    (looks_mapM (looks_entry _ _ _ _) _) fun parts => ?_
  exact fails_of_stopsBy ((stopsBy_log _ _ _).bind fun _ => stopsBy_pure _)

/-- Opening a scan stops only for what is covered. -/
theorem fails_opening (o : ScanOptions) {root : Path} (hSought : w.Sought texts root) :
    Fails w.disk w.here (opening o root) P := by
  refine (hCovers.fails_resolve hSought).bind (looks_resolve root) (gives_resolve root) fun root hRoot => ?_
  refine (fails_ask hCovers.refusal _ _).bind (looks_ask _ _) (gives_ask _ _) fun directory hDirectory => ?_
  refine Fails.unless (fun _ => hCovers.root _ _) fun hThere => ?_
  obtain rfl : directory = true := by simpa using hThere
  refine (fails_listing hDirectory).next (looks_listing root) fun entries => ?_
  split
  · exact fails_throw (hCovers.root _ _)
  · exact fails_choice ((IgnoreFile.fails_collect hCovers (hSought.asked_of_resolve hRoot) _).next (looks_ignoreFile_collect _ _)
      fun _ => fails_pure _) ((fails_pure _).next (looks_pure _) fun _ => fails_pure _)

omit hCovers in
/-- A scan that is opened has a directory for its root, and rules that come
from texts of ignore files in the tree. -/
theorem gives_opening_rules (o : ScanOptions) {root : Path} (hSought : w.Sought texts root) :
    Gives w.disk w.here (opening o root) fun x => w.disk.isDirectory (w.here.join x.root) = .ok true ∧
      ∀ file ∈ x.ignoring, ∃ path cs, w.Rules texts path cs ∧ Pattern.Ignore.parse cs = .ok file.rules := by
  refine (gives_resolve root).bind (looks_resolve root) fun root hRoot => ?_
  refine (gives_ask _ _).bind (looks_ask _ _) fun directory hDirectory => Gives.unless fun hThere => ?_
  obtain rfl : directory = true := by simpa using hThere
  refine (gives_true _).bind (looks_listing root) fun entries _ => ?_
  split
  · exact gives_throw _
  · split
    · refine (IgnoreFile.gives_collect (hSought.asked_of_resolve hRoot) _).bind (looks_ignoreFile_collect _ _) ?_
      exact fun _ hRules => gives_pure ⟨hDirectory, hRules⟩
    · refine (gives_pure (P := fun ignoring => ignoring = []) rfl).bind (looks_pure _) ?_
      rintro ignoring rfl
      exact gives_pure ⟨hDirectory, by simp⟩

/-- A scan stops for what is reported or what the tree is to blame for. -/
theorem fails_project (o : ScanOptions) {root : Path} (hSought : w.Sought texts root) :
    Fails w.disk w.here (project o root) P := by
  rw [project_eq]
  refine (fails_opening hCovers o hSought).bind (looks_opening o root) (gives_opening_rules o hSought) fun x hx => ?_
  obtain ⟨hRoot, hRules⟩ := hx
  refine fails_walk hCovers (fun p e hError => ?_) hRoot
  obtain ⟨file, hFile, relative, hIgnores⟩ := IgnoreFile.anyIgnores_error hError
  obtain ⟨path, cs, hText, hParse⟩ := hRules file hFile
  exact hCovers.trouble _ (.badRange hText hParse hIgnores)

end Scan

end SourceAtlas
