import SourceAtlas.Disk.Canonical
import SourceAtlas.Proofs.Extraction

/-!
Where an import leads on a disk without links. Its source names a place, read piece by piece from
the directory of the file; the paths that are tried stand for that place, with an extension or as a
directory with an index file. The import leads to the first of them that has a regular file.
-/
namespace SourceAtlas

namespace Disk

variable {d : Disk} {links : Nat} {here place : Place} {names : List Text} {item : Item}

/-- Whether there is a regular file at a place. -/
def isFileAt (d : Disk) (place : Place) : Bool :=
  match d.find? place with
  | some (.file _ _) => true
  | _ => false

/-- There is a file at a place if the disk has one there, with whatever
bytes and time. -/
theorem isFileAt_iff : d.isFileAt place = true ↔ ∃ bytes mtime, d.find? place = some (.file bytes mtime) := by
  rw [isFileAt]
  split
  · next bytes mtime hFind => exact ⟨fun _ => ⟨bytes, mtime, hFind⟩, fun _ => rfl⟩
  · next hOther =>
    constructor
    · nofun
    · rintro ⟨bytes, mtime, hFind⟩
      exact absurd hFind (hOther bytes mtime)

/-- A disk as it is kept: every entry stands in a directory, under names
that can be asked for. -/
structure Tree (d : Disk) : Prop extends d.Proper where
  parents : ∀ e ∈ d.entries, d.isDirectoryAt e.1.dropLast = true
  fit : ∀ e ∈ d.entries, ∀ n ∈ e.1, Sign.char (Char.ofNat 0) ∉ n.toList ∧ Text.Utf8.size n ≤ longestName

instance (d : Disk) : Decidable d.Tree :=
  decidable_of_iff (d.Proper ∧ (∀ e ∈ d.entries, d.isDirectoryAt e.1.dropLast = true) ∧
      ∀ e ∈ d.entries, ∀ n ∈ e.1, Sign.char (Char.ofNat 0) ∉ n.toList ∧ Text.Utf8.size n ≤ longestName)
    ⟨fun h => ⟨h.1, h.2.1, h.2.2⟩, fun h => ⟨h.toProper, h.parents, h.fit⟩⟩

theorem find?_ne_link (hFree : d.linkCount = 0) (place : Place) (target : Text) :
    d.find? place ≠ some (.link target) := by
  intro hFind
  rw [find?] at hFind
  split at hFind
  · cases hFind
  · rw [linkCount, List.length_eq_zero_iff, List.filter_eq_nil_iff] at hFree
    exact hFree _ (Assoc.mem_of_get? hFind) rfl

/-- The names of a place where something stands can be asked for: they have
no null character and are not too long. -/
theorem Tree.fit_of_find? (hTree : d.Tree) (hFind : d.find? place = some item) :
    ∀ n ∈ place, Sign.char (Char.ofNat 0) ∉ n.toList ∧ Text.Utf8.size n ≤ longestName := by
  rw [find?] at hFind
  split at hFind
  · next hRoot => simp [List.isEmpty_iff.mp hRoot]
  · exact hTree.fit _ (Assoc.mem_of_get? hFind)

/-- The names of a place lead to what stands there. -/
theorem Tree.leads (hTree : d.Tree) (hFree : d.linkCount = 0) (links : Nat) (hFind : d.find? place = some item) :
    Leads d true links [] place (.found place item) := by
  induction place using List.reverseRecOn generalizing item with
  | nil => exact .here hFind
  | append_singleton before n ih =>
      have hEntry : (before ++ [n], item) ∈ d.entries := by
        rw [find?, if_neg (by simp)] at hFind
        exact Assoc.mem_of_get? hFind
      have hDirectory : d.find? before = some .directory := by
        have hParent := hTree.parents _ hEntry
        rw [List.dropLast_concat, isDirectoryAt, decide_eq_true_eq] at hParent
        exact hParent
      have hName := hTree.names _ hEntry n (by simp)
      have hSize := (hTree.fit _ hEntry n (by simp)).2
      apply ((ih hDirectory).snoc hName.notUp hSize hFind).followed
      intro target hLink
      exact find?_ne_link hFree _ target (hLink ▸ hFind)

/-- Without links and steps up, names lead to the place that they spell. -/
theorem Leads.place_eq (hLeads : Leads d true links here names (.found place item)) (hFree : d.linkCount = 0)
    (hNames : (".." : Text) ∉ names) : place = here ++ names := by
  generalize hArrival : Arrival.found place item = a at hLeads
  induction hLeads with
  | here _ => simpa using (Arrival.found.inj hArrival).1
  | absent => cases hArrival
  | up => simp at hNames
  | last _ _ _ hFind _ => exact absurd hFind (find?_ne_link hFree _ _)
  | link _ _ _ hFind _ _ _ => exact absurd hFind (find?_ne_link hFree _ _)
  | down _ _ _ _ _ _ ih => simpa using ih (by simp_all) hArrival

/-- Without links, a path of names leads to the place that its parts name. -/
theorem place_of_locate {p : Path} (hFree : d.linkCount = 0) (hNamed : p.Named)
    (hLocate : d.locate true p = .ok (.found place item)) : place = p.parts := by
  have hLeads := (locate_eq_ok_iff.mp hLocate).2.2
  simpa using hLeads.place_eq hFree fun hUp => (hNamed _ hUp).notUp rfl

/-- Where no link is on the way, a path of names is asked about the place
that it spells. -/
theorem Tree.isFile_eq (hTree : d.Tree) (hFree : d.linkCount = 0) {p : Path} (hNamed : p.Named) {b : Bool}
    (hFile : d.isFile p = .ok b) : b = d.isFileAt p.parts := by
  cases b with
  | true =>
      obtain ⟨place, bytes, mtime, hLocate⟩ := found_of_isFile hFile
      symm
      apply isFileAt_iff.mpr
      exact ⟨bytes, mtime, place_of_locate hFree hNamed hLocate ▸ find?_of_locate hLocate⟩
  | false =>
      symm
      apply Bool.eq_false_iff.mpr
      intro hThere
      obtain ⟨bytes, mtime, hFind⟩ := isFileAt_iff.mp hThere
      have hNul : (p.parts.any fun part => part.toList.contains (Char.ofNat 0)) = false := by
        simp only [List.any_eq_false, List.contains_iff_mem]
        exact fun n hn => (hTree.fit_of_find? hFind n hn).1
      -- a path that is too long would have been refused
      have hShort : Text.Utf8.size p.text < pathLimit := by
        by_contra hLong
        have hRefused : d.locate true p = .error (.errno .nameTooLong) := by
          rw [locate, if_neg (Bool.eq_false_iff.mp hNul), if_pos (Nat.le_of_not_lt hLong)]
        cases hFile.symm.trans (test_eq_error_iff.mpr ⟨rfl, hRefused⟩)
      have hLocate := locate_eq_ok_iff.mpr ⟨hNul, hShort, hTree.leads hFree mostLinks hFind⟩
      cases hFile.symm.trans (test_of_locate hLocate _)

end Disk

namespace Resolution

open Text

/-- One piece of a source as a step from a place. -/
def stepTo (here : Place) (piece : Text) : Place :=
  if piece = "" ∨ piece = "." then here else if piece = ".." then here.dropLast else here ++ [piece]

/-- The place that a source names, seen from a directory. -/
def target (dir : Place) (source : Text) : Place := (Path.pieces source.toList).foldl stepTo dir

/-- The place with a text written after its last name. -/
def extended (place : Place) (ext : Text) : Place := place.dropLast ++ [place.getLast?.getD "" ++ ext]

/-- The places that an import may lead to, in order: what its source names,
that with each extension, and an index file of each extension there. -/
def destinations (dir : Place) (source : Text) (extensions : List Text) : List Place :=
  target dir source :: extensions.map (extended (target dir source)) ++
    extensions.map fun ext => target dir source ++ [("index" : Text) ++ ext]

/-- An import of a file leads to a place: its source begins with a point,
and of the places that it may lead to this is the first with a regular file. -/
structure Reaches (d : Disk) (extensions : List Text) (importer : Path) (source : Text) (place : Place) :
    Prop where
  relative : [Sign.char '.'] <+: source.toList
  first : (destinations importer.parent.parts source extensions).find? d.isFileAt = some place

/-- The place that an import leads to is made of names. -/
theorem Reaches.named {d : Disk} {extensions : List Text} {importer : Path} {source : Text} {place : Place}
    (hReaches : Reaches d extensions importer source place) (hProper : d.Proper) : ∀ n ∈ place, IsName n := by
  obtain ⟨bytes, mtime, hFind⟩ := Disk.isFileAt_iff.mp (List.find?_some hReaches.first)
  exact hProper.of_find? hFind

/-- A source is relative if its first sign is a point. -/
theorem isRelative_iff {source : Text} : isRelative source = true ↔ [Sign.char '.'] <+: source.toList := by
  rw [isRelative, startsWith, List.isPrefixOf_iff_prefix]
  rfl

/-- Collapsing the ways up in a path is taking its pieces as steps, one
after the other. -/
theorem collapse_eq_foldl {parts done : List Text} (hParts : ∀ n ∈ parts, IsPart n) (hDone : (".." : Text) ∉ done) :
    Path.collapse true done parts = parts.foldl stepTo done.reverse := by
  induction parts generalizing done with
  | nil => rfl
  | cons part parts ih =>
      have hPart := hParts part (List.mem_cons_self ..)
      have hRest : ∀ n ∈ parts, IsPart n := fun n hn => hParts n (List.mem_cons_of_mem _ hn)
      rw [List.foldl_cons, Path.collapse.eq_def, stepTo, if_neg (by simp [hPart.nonempty, hPart.notPoint])]
      by_cases hUp : part = ".."
      · simp only [hUp, ne_eq, not_true_eq_false, if_false, if_true]
        split
        · rw [ih hRest List.not_mem_nil]
          rfl
        · rw [List.mem_cons, not_or] at hDone
          rw [if_neg (Ne.symm hDone.1), ih hRest hDone.2]
          simp
      · simp only [hUp, ne_eq, not_false_eq_true, if_true, if_false]
        rw [ih hRest (by simp [hDone, Ne.symm hUp])]
        simp

/-- Steps that are names go further down, one directory each. -/
theorem foldl_stepTo_names {names : List Text} (hNames : ∀ n ∈ names, IsName n) (here : Place) :
    names.foldl stepTo here = here ++ names := by
  induction names generalizing here with
  | nil => simp
  | cons n names ih =>
      have hName := hNames n (List.mem_cons_self ..)
      rw [List.foldl_cons, ih fun m hm => hNames m (List.mem_cons_of_mem _ hm), stepTo,
        if_neg (by simp [hName.nonempty, hName.notPoint]), if_neg hName.notUp]
      simp

/-- Empty pieces and single points are no steps. -/
theorem foldl_stepTo_filter (pieces : List Text) (here : Place) :
    (pieces.filter fun p : Text => p ≠ "" && p ≠ ".").foldl stepTo here = pieces.foldl stepTo here := by
  rw [List.foldl_filter]
  congr 1
  funext here piece
  simp only [stepTo]
  split <;> simp_all

variable {importer : Path} {source : Text}

theorem parse_anchor (hRelative : [Sign.char '.'] <+: source.toList) : (Path.parse source).anchor = .none := by
  obtain ⟨rest, hRest⟩ := hRelative
  simp [Path.parse, ← hRest, Path.anchorOf]

/-- A relative source is joined to the directory of its
importer part by part. -/
theorem join_parse (hAnchor : importer.anchor = .root) (hRelative : [Sign.char '.'] <+: source.toList) :
    importer.parent.join (Path.parse source) = ⟨.root, importer.parent.parts ++ (Path.parse source).parts⟩ := by
  rw [Path.join, if_neg (by simp [Path.isAbsolute, parse_anchor hRelative]), Path.parent, hAnchor]

theorem parent_named (hNamed : importer.Named) : ∀ n ∈ importer.parent.parts, IsName n :=
  fun n hn => hNamed n (List.mem_of_mem_dropLast hn)

/-- The path that a source denotes is that of the place which it names. -/
theorem base_eq (hAnchor : importer.anchor = .root) (hNamed : importer.Named)
    (hRelative : [Sign.char '.'] <+: source.toList) :
    base importer source = ⟨.root, target importer.parent.parts source⟩ := by
  have hParts : ∀ n ∈ importer.parent.parts ++ (Path.parse source).parts, IsPart n := by
    intro n hn
    cases List.mem_append.mp hn with
    | inl hn => exact (parent_named hNamed n hn).toIsPart
    | inr hn => exact Path.parse_readable source n hn
  rw [base, join_parse hAnchor hRelative, Path.normalize]
  show Path.mk .root (Path.collapse true [] _) = _
  rw [collapse_eq_foldl hParts List.not_mem_nil, List.foldl_append, List.reverse_nil,
    foldl_stepTo_names (parent_named hNamed), List.nil_append, target,
    ← foldl_stepTo_filter (Path.pieces source.toList)]
  rfl

example : target ["p", "q"] "..//x/./../lib/" = (["p", "lib"] : List Text) := by decide

/-- A relative source in a file of names leads to a place of names: each way
up takes a name off, or stays at the root. -/
theorem target_named (hAnchor : importer.anchor = .root) (hNamed : importer.Named)
    (hRelative : [Sign.char '.'] <+: source.toList) : ∀ n ∈ target importer.parent.parts source, IsName n := by
  have hBase : (base importer source).Named := by
    apply Path.normalize_named
    · rw [join_parse hAnchor hRelative]
      rfl
    · apply Path.join_readable
      · exact fun n hn => (parent_named hNamed n hn).toIsPart
      · exact Path.parse_readable source
  rw [base_eq hAnchor hNamed hRelative] at hBase
  exact hBase

/-- A name with an extension behind it is a name. -/
theorem isName_append {n ext : Text} (hName : IsName n) (hExt : Sign.char '/' ∉ ext.toList) : IsName (n ++ ext) := by
  -- a name is no beginning of two points
  have hPoints {points : List Sign} (hFew : points <+: [.char '.', .char '.']) : (n ++ ext).toList ≠ points := by
    intro hSame
    rw [Text.toList_append] at hSame
    have hPrefix : n.toList <+: [Sign.char '.', .char '.'] := (hSame ▸ List.prefix_append ..).trans hFew
    have hMem : n.toList ∈ [("" : Text).toList, ("." : Text).toList, (".." : Text).toList] := (List.mem_inits _ _).mpr hPrefix
    simp only [List.mem_cons, List.not_mem_nil, or_false, Text.toList_inj] at hMem
    rcases hMem with rfl | rfl | rfl
    · exact hName.nonempty rfl
    · exact hName.notPoint rfl
    · exact hName.notUp rfl
  refine ⟨⟨fun hEmpty => ?_, fun hPoint => ?_, ?_⟩, fun hUp => ?_⟩
  · exact hPoints List.nil_prefix (congrArg Text.toList hEmpty)
  · exact hPoints (by decide) (congrArg Text.toList hPoint)
  · simp [hName.noSlash, hExt]
  · exact hPoints List.prefix_rfl (congrArg Text.toList hUp)

theorem intercalate_append (before : List (List Sign)) (last extra : List Sign) :
    List.intercalate [Sign.char '/'] (before ++ [last ++ extra]) = List.intercalate [Sign.char '/'] (before ++ [last]) ++ extra := by
  induction before with
  | nil => simp
  | cons first before ih =>
      rw [List.cons_append, List.cons_append]
      cases before with
      | nil => simp
      | cons second before =>
          rw [List.cons_append, List.cons_append] at ih ⊢
          rw [List.intercalate_cons_cons, List.intercalate_cons_cons, ih, ← List.append_assoc]

/-- An extension is written after the last name of a place. -/
theorem extended_concat (before : Place) (n ext : Text) :
    extended (before ++ [n]) ext = before ++ [n ++ ext] := by
  simp [extended]

/-- A text written after the path of a place is written after its last name. -/
theorem append_eq {place : Place} {ext : Text} (hNames : ∀ n ∈ extended place ext, IsName n)
    (hPlace : ∀ n ∈ place, IsName n) : (Path.mk .root place).append ext = ⟨.root, extended place ext⟩ := by
  have hText : (Path.mk .root place).text ++ ext = (Path.mk .root (extended place ext)).text := by
    rw [← Text.toList_inj, Text.toList_append,
      Path.text_toList (p := ⟨.root, extended place ext⟩) (fun n hn => (hNames n hn).toIsPart) (by simp [extended])]
    induction place using List.reverseRecOn with
    | nil => simp [Path.text, extended, Anchor.text, Path.slashes]
    | append_singleton before n _ =>
        rw [Path.text_toList (p := ⟨.root, before ++ [n]⟩) (fun n hn => (hPlace n hn).toIsPart) (by simp),
          extended_concat]
        simp only [List.map_append, List.map_cons, List.map_nil, Text.toList_append, intercalate_append,
          List.append_assoc]
  rw [Path.append, hText, Path.parse_text fun n hn => (hNames n hn).toIsPart]

/-- The index file of a place stands in it under its own name. -/
theorem join_index {place : Place} {ext : Text} (hExt : Sign.char '/' ∉ ext.toList) :
    (Path.mk .root place).join (Path.parse ("index" ++ ext)) = ⟨.root, place ++ [("index" : Text) ++ ext]⟩ := by
  have hName : IsName ("index" ++ ext) := isName_append (by decide) hExt
  have hParse : Path.parse ("index" ++ ext) = ⟨.none, ["index" ++ ext]⟩ := by
    have hText : (Path.mk .none ["index" ++ ext]).text = "index" ++ ext := by
      rw [← Text.toList_inj, Path.text_toList (by simpa [Path.Readable] using hName.toIsPart) (by simp)]
      simp [Path.slashes]
    have hReadable : (Path.mk .none ["index" ++ ext]).Readable := by simpa [Path.Readable] using hName.toIsPart
    rw [← Path.parse_text hReadable, hText]
  rw [hParse, Path.join]
  rfl

variable {w : World}

/-- A path stands for a place: asking about the path tells whether a file is
at the place, and if so it is the path of the place. -/
structure StandsFor (w : World) (p : Path) (place : Place) : Prop where
  answer : ∀ b, w.hasFile p = .ok b → b = w.disk.isFileAt place
  path : w.disk.isFileAt place = true → p = ⟨.root, place⟩

/-- The test for files says of an absolute path what looking for a file
there says. -/
theorem isFile_of_hasFile {p : Path} (hAnchor : p.anchor = .root) {b : Bool} (hFile : w.hasFile p = .ok b) :
    w.disk.isFile p = .ok b := by
  rw [World.hasFile, Path.join_of_absolute (by simp [Path.isAbsolute, hAnchor])] at hFile
  split at hFile
  · next hAnswer => rw [hAnswer, Except.ok.inj hFile]
  · cases hFile

section Tree

variable (hTree : w.disk.Tree) (hFree : w.disk.linkCount = 0)

include hTree hFree in
/-- A path of names stands for the place of its parts, on a
tree without links. -/
theorem standsFor_names {place : Place} (hNames : ∀ n ∈ place, IsName n) : StandsFor w ⟨.root, place⟩ place where
  answer _ hFile := hTree.isFile_eq hFree (p := ⟨.root, place⟩) hNames (isFile_of_hasFile rfl hFile)
  path _ := rfl

include hTree in
/-- A path that leads to no file stands for a place that is
not made of names. -/
theorem standsFor_nowhere {p : Path} {place : Place} {n : Text} (hPath : w.hasFile p ≠ .ok true)
    (hMem : n ∈ place) (hName : ¬ IsName n) : StandsFor w p place := by
  have hNone : w.disk.isFileAt place = false := by
    apply Bool.eq_false_iff.mpr
    intro hThere
    obtain ⟨bytes, mtime, hFind⟩ := Disk.isFileAt_iff.mp hThere
    exact hName (hTree.toProper.of_find? hFind n hMem)
  constructor
  · intro b hFile
    cases b with
    | true => exact absurd hFile hPath
    | false => exact hNone.symm
  · intro hThere
    cases hNone.symm.trans hThere

/-- The root is no file, and neither is what lies above it. -/
theorem hasFile_root_ne {parts : List Text} (hParts : parts = [] ∨ parts = [".."]) :
    w.hasFile ⟨.root, parts⟩ ≠ .ok true := by
  intro hFile
  obtain ⟨place, bytes, mtime, hLocate⟩ := Disk.found_of_isFile (isFile_of_hasFile rfl hFile)
  have hLeads := (Disk.locate_eq_ok_iff.mp hLocate).2.2
  rcases hParts with rfl | rfl
  · cases hLeads with
    | here hFind => cases hFind
  · cases hLeads with
    | up _ hRest =>
        cases hRest with
        | here hFind => cases hFind
    | link _ hName => exact hName rfl
    | down _ hName => exact hName rfl

include hTree hFree in
/-- With an extension behind its name a path stands for the extended place. -/
theorem standsFor_append {place : Place} {ext : Text} (hNames : ∀ n ∈ place, IsName n)
    (hExt : Sign.char '/' ∉ ext.toList) : StandsFor w ((Path.mk .root place).append ext) (extended place ext) := by
  by_cases hExtended : ∀ n ∈ extended place ext, IsName n
  · rw [append_eq hExtended hNames]
    exact standsFor_names hTree hFree hExtended
  · -- only at the root a text without slashes may make no name
    obtain rfl : place = [] := by
      induction place using List.reverseRecOn with
      | nil => rfl
      | append_singleton before n _ =>
          refine absurd (fun m hm => ?_) hExtended
          rw [extended_concat, List.mem_append, List.mem_singleton] at hm
          rcases hm with hm | rfl
          · exact hNames m (by simp [hm])
          · exact isName_append (hNames n (by simp)) hExt
    have hName : ¬ IsName ext := by simpa [extended] using hExtended
    apply standsFor_nowhere hTree _ (by simp [extended]) hName
    have hCases : ext = "" ∨ ext = "." ∨ ext = ".." := by
      by_contra hOther
      simp only [not_or] at hOther
      exact hName ⟨⟨hOther.1, hOther.2.1, hExt⟩, hOther.2.2⟩
    rcases hCases with rfl | rfl | rfl
    · exact hasFile_root_ne (.inl rfl)
    · exact hasFile_root_ne (.inl rfl)
    · exact hasFile_root_ne (.inr rfl)

include hTree hFree in
/-- The paths that are tried stand for the places that an import may lead
to. -/
theorem candidates_standFor {place : Place} {extensions : List Text} (hNames : ∀ n ∈ place, IsName n)
    (hExtensions : ∀ ext ∈ extensions, Sign.char '/' ∉ ext.toList) :
    List.Forall₂ (StandsFor w) (candidates ⟨.root, place⟩ extensions)
      (place :: extensions.map (extended place) ++ extensions.map fun ext => place ++ [("index" : Text) ++ ext]) := by
  apply List.rel_append
  · apply List.Forall₂.cons (standsFor_names hTree hFree hNames)
    rw [List.forall₂_map_left_iff, List.forall₂_map_right_iff, List.forall₂_same]
    exact fun ext hExt => standsFor_append hTree hFree hNames (hExtensions ext hExt)
  · rw [List.forall₂_map_left_iff, List.forall₂_map_right_iff, List.forall₂_same]
    intro ext hExt
    rw [join_index (hExtensions ext hExt)]
    apply standsFor_names hTree hFree
    intro n hn
    cases List.mem_append.mp hn with
    | inl hn => exact hNames n hn
    | inr hn =>
        rw [List.mem_singleton.mp hn]
        exact isName_append (by decide) (hExtensions ext hExt)

end Tree

/-- The first path that leads to a file stands for the first
place that has one. -/
theorem firstFile_eq_find? {ps : List Path} {places : List Place} (hAll : List.Forall₂ (StandsFor w) ps places)
    {found : Option Path} (hFirst : firstFile w ps = .ok found) :
    found = (places.find? w.disk.isFileAt).map (Path.mk .root) := by
  induction hAll with
  | nil => exact (Except.ok.inj hFirst).symm
  | @cons p place ps places hStands _ ih =>
      rw [firstFile] at hFirst
      split at hFirst
      · cases hFirst
      · next hFile =>
        have hThere := hStands.answer _ hFile
        rw [List.find?_cons_of_pos hThere.symm, Option.map_some, ← hStands.path hThere.symm]
        exact (Except.ok.inj hFirst).symm
      · next hFile =>
        rw [List.find?_cons_of_neg (by simp [← hStands.answer _ hFile])]
        exact ih hFirst

section Importer

variable {extensions : List Text} (hTree : w.disk.Tree) (hFree : w.disk.linkCount = 0)
  (hAnchor : importer.anchor = .root) (hNamed : importer.Named)
  (hExtensions : ∀ ext ∈ extensions, Sign.char '/' ∉ ext.toList)

include hTree hFree hAnchor hNamed hExtensions

/-- A relative source is resolved to the first place with a file
that it may lead to. -/
theorem resolve_eq_find? (hRelative : [Sign.char '.'] <+: source.toList) {found : Option Path}
    (hResolve : resolve w importer source extensions = .ok found) :
    found = ((destinations importer.parent.parts source extensions).find? w.disk.isFileAt).map
      (Path.mk .root) := by
  rw [resolve, base_eq hAnchor hNamed hRelative] at hResolve
  have hNames := target_named hAnchor hNamed hRelative
  exact firstFile_eq_find? (candidates_standFor hTree hFree hNames hExtensions) hResolve

/-- What is found out about an import of a file: it leads inside the project
exactly if a path is given, and that is the path of the place it leads to. -/
theorem classify_reaches {kind : ImportKind} {resolved : Option Text}
    (hClassify : classify w importer extensions source = .ok (kind, resolved)) :
    (kind = .inside ↔ resolved ≠ none) ∧ ∀ text, resolved = some text ↔
      ∃ place, Reaches w.disk extensions importer source place ∧ text = (Path.mk .root place).text := by
  rw [classify] at hClassify
  by_cases hRelative : isRelative source = true
  · rw [if_pos hRelative] at hClassify
    have hPoint := isRelative_iff.mp hRelative
    cases hResolve : resolve w importer source extensions with
    | error e =>
        rw [hResolve] at hClassify
        cases hClassify
    | ok found =>
        have hFound := resolve_eq_find? hTree hFree hAnchor hNamed hExtensions hPoint hResolve
        rw [hResolve, hFound] at hClassify
        cases hPlace : (destinations importer.parent.parts source extensions).find? w.disk.isFileAt with
        | none =>
            rw [hPlace] at hClassify
            obtain ⟨rfl, rfl⟩ := Prod.mk.inj (Except.ok.inj hClassify)
            refine ⟨by simp, fun text => ⟨by simp, ?_⟩⟩
            rintro ⟨place, hReaches, _⟩
            cases hPlace.symm.trans hReaches.first
        | some place =>
            rw [hPlace] at hClassify
            obtain ⟨rfl, rfl⟩ := Prod.mk.inj (Except.ok.inj hClassify)
            refine ⟨by simp, fun text => ⟨fun hText => ?_, ?_⟩⟩
            · exact ⟨place, ⟨hPoint, hPlace⟩, (Option.some.inj hText).symm⟩
            · rintro ⟨other, hReaches, hText⟩
              obtain rfl := Option.some.inj (hPlace.symm.trans hReaches.first)
              rw [hText]
  · rw [if_neg hRelative] at hClassify
    obtain ⟨rfl, rfl⟩ := Prod.mk.inj (Except.ok.inj hClassify)
    refine ⟨by simp, fun text => ⟨by simp, ?_⟩⟩
    rintro ⟨place, hReaches, _⟩
    exact absurd (isRelative_iff.mpr hReaches.relative) hRelative

end Importer

end Resolution

end SourceAtlas
