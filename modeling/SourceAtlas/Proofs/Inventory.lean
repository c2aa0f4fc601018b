import SourceAtlas.Classification
import SourceAtlas.Inventory
import SourceAtlas.Proofs.Extraction
import SourceAtlas.Proofs.Outline.Comments
import SourceAtlas.Proofs.Text.Utf8

/-!
The building blocks that an inventory lists. A class may carry several role decorators; it is listed by the
one that is written first, and by no other.
-/
namespace SourceAtlas

open Syntax Text

namespace Outline

/-- Whether a decorator has the name of a role decorator. -/
def isRole (src : Source) (d : Tree) : Bool := (decoratorName? src d).any roleDecorators.contains

theorem isRole_iff {src : Source} {d : Tree} :
    isRole src d = true ↔ ∃ name ∈ roleDecorators, decoratorName? src d = some name := by
  rw [isRole]
  cases decoratorName? src d <;> simp

/-- A class in a source with all its decorators in order: those written
before an export that declares it, then its own. -/
structure ClassSite where
  source : Source
  decorators : List Tree
  tree : Tree

namespace ClassSite

/-- The class at a tree that is looked at. One that an export declares is
looked at with the export. -/
def at? (src : Source) (t : Tree) : Option ClassSite :=
  if t.isKind .exportStatement then
    ((t.part? .declaration).filter (·.isOneOf classKinds)).map fun d => ⟨src, decoratorsOf t ++ decoratorsOf d, d⟩
  else if t.isOneOf classKinds then some ⟨src, decoratorsOf t, t⟩ else none

variable (c : ClassSite)

def name? : Option Text := (c.tree.part? .name).map c.source.text

/-- A class carries decorators of these names. -/
def Carries (name : Text) : Prop := ∃ d ∈ c.decorators, decoratorName? c.source d = some name

/-- The first role decorator of a class. -/
def leading? : Option Tree := c.decorators.find? (isRole c.source)

/-- The first role decorator of a class has this name. -/
def Leads (name : Text) : Prop := c.leading?.bind (decoratorName? c.source) = some name

instance (name : Text) : Decidable (c.Leads name) := inferInstanceAs (Decidable (_ = _))

/-- What the first role decorator says. -/
def decoration? : Option Decoration :=
  c.leading?.bind fun d => (decoratorName? c.source d).map (decorationOf c.source d)

/-- What an outline tells of a class with a name. -/
def info? : Option ClassInfo := c.name?.map fun name =>
  ⟨name, (heritage c.source c.tree).1, (heritage c.source c.tree).2,
    c.decorators.filterMap (decoratorName? c.source), c.decoration?, lineOf c.source c.tree⟩

variable {c}

/-- What an outline tells of a class has the class's own name, and lists
only decorators that the class carries. -/
theorem info?_eq_some {i : ClassInfo} (hInfo : c.info? = some i) :
    c.name? = some i.name ∧ ∀ name ∈ i.decorators, c.Carries name := by
  obtain ⟨name, hName, rfl⟩ := Option.map_eq_some_iff.mp hInfo
  exact ⟨hName, fun name hMember => List.mem_filterMap.mp hMember⟩

/-- A role decorator leads if the class carries no other. -/
theorem leads_of_alone {name : Text} (hRole : name ∈ roleDecorators) (hCarries : c.Carries name)
    (hAlone : ∀ name' ∈ roleDecorators, c.Carries name' → name' = name) : c.Leads name := by
  obtain ⟨d, hd, hName⟩ := hCarries
  rw [Leads, leading?]
  rcases hFind : c.decorators.find? (isRole c.source) with _ | d'
  · exact absurd (isRole_iff.mpr ⟨name, hRole, hName⟩) (List.find?_eq_none.mp hFind d hd)
  · obtain ⟨name', hRole', hName'⟩ := isRole_iff.mp (List.find?_some hFind)
    have hSame := hAlone name' hRole' ⟨d', List.mem_of_find?_eq_some hFind, hName'⟩
    rw [Option.bind_some, hName', hSame]

end ClassSite

variable {src : Source}

theorem findSome?_decoration (src : Source) (ds : List Tree) :
    (ds.findSome? fun d => do
      let name ← decoratorName? src d
      if roleDecorators.contains name then some (decorationOf src d name) else none) =
    (ds.find? (isRole src)).bind fun d => (decoratorName? src d).map (decorationOf src d) := by
  induction ds with
  | nil => rfl
  | cons d ds ih =>
      rw [List.findSome?_cons, ih]
      cases hName : decoratorName? src d with
      | none =>
          rw [List.find?_cons_of_neg (by simp [isRole, hName])]
          rfl
      | some name =>
          by_cases hRole : name ∈ roleDecorators
          · rw [List.find?_cons_of_pos (by simp [isRole, hName, hRole])]
            simp [hName, hRole]
          · rw [List.find?_cons_of_neg (by simp [isRole, hName, hRole])]
            simp [hRole]

def classInfos (fs : List Finding) : List ClassInfo := (ofFindings fs).classes

theorem classInfos_append (fs fs' : List Finding) : classInfos (fs ++ fs') = classInfos fs ++ classInfos fs' :=
  List.filterMap_append

theorem classInfos_decorated (names : List Text) : classInfos (names.map .decorated) = [] := by
  refine List.filterMap_eq_nil_iff.mpr fun f hf => ?_
  obtain ⟨name, -, rfl⟩ := List.mem_map.mp hf
  rfl

theorem classInfos_exporting (es : List Export) : classInfos (es.map .exporting) = [] := by
  refine List.filterMap_eq_nil_iff.mpr fun f hf => ?_
  obtain ⟨e, -, rfl⟩ := List.mem_map.mp hf
  rfl

/-- Looking at a class finds the class itself, with the decorators handed
down to it before its own. -/
theorem classInfos_lookClass (src : Source) (outer : List Tree) (t : Tree) :
    classInfos (lookClass src outer t).1 = (ClassSite.info? ⟨src, outer ++ decoratorsOf t, t⟩).toList := by
  simp only [lookClass]
  rw [classInfos_append, classInfos_decorated, List.nil_append, findSome?_decoration, ClassSite.info?,
    ClassSite.name?]
  cases hName : t.part? .name <;> rfl

/-- Looking at an export finds the class that it declares,
if it declares one. -/
theorem classInfos_lookExport {t : Tree} (hExport : t.isKind .exportStatement = true) :
    classInfos (lookExport src t).1 = ((ClassSite.at? src t).bind ClassSite.info?).toList := by
  rw [ClassSite.at?, if_pos hExport]
  cases hDeclaration : t.part? .declaration with
  | some d =>
      cases hClass : d.isOneOf classKinds with
      | true =>
          rw [lookExport_class hDeclaration hClass, classInfos_append, classInfos_exporting, classInfos_lookClass,
            Option.filter_some_pos hClass]
          rfl
      | false =>
          rw [lookExport_other hDeclaration hClass, flatMap_decoratorFinding, classInfos_append, classInfos_exporting,
            classInfos_decorated, Option.filter_some_neg (by simp [hClass])]
          rfl
  | none =>
      rw [lookExport, hDeclaration, flatMap_decoratorFinding]
      cases t.part? .value with
      | some v =>
          dsimp only
          rw [classInfos_append, classInfos_decorated]
          rfl
      | none =>
          dsimp only
          rw [classInfos_append, classInfos_decorated, classInfos_exporting]
          rfl

/-- A tree gives a class just if there is one at it that has a name. -/
theorem classInfos_look (src : Source) (s : Site) :
    classInfos (look src s).1 = ((ClassSite.at? src s.tree).bind ClassSite.info?).toList := by
  obtain ⟨t, inClassBody⟩ := s
  have hClassAt (hExport : t.isKind .exportStatement = false) (hClass : t.isOneOf classKinds = true) :
      ClassSite.at? src t = some ⟨src, decoratorsOf t, t⟩ := by
    rw [ClassSite.at?, if_neg (by simp [hExport]), if_pos hClass]
  have hOther (hExport : t.label ≠ .phrase .exportStatement) (hClass : ∀ k ∈ classKinds, t.label ≠ .phrase k) :
      ClassSite.at? src t = none := by
    rw [ClassSite.at?, if_neg (by simpa [Tree.isKind] using hExport), if_neg]
    rw [Tree.isOneOf, List.any_eq_true]
    rintro ⟨k, hk, hKind⟩
    exact hClass k hk (by simpa [Tree.isKind] using hKind)
  rw [look]
  dsimp only
  split
  case h_1 hLabel =>
    rw [hOther (by simp [hLabel]) (by simp [hLabel, classKinds]), lookImport]
    split <;> rfl
  case h_2 hLabel =>
    exact classInfos_lookExport (by simp [Tree.isKind, hLabel])
  case h_3 hLabel | h_4 hLabel | h_5 hLabel =>
    rw [hClassAt (by simp [Tree.isKind, hLabel]) (by simp [Tree.isOneOf, classKinds, Tree.isKind, hLabel]),
      classInfos_lookClass]
    rfl
  case h_6 hLabel | h_7 hLabel =>
    rw [hOther (by simp [hLabel]) (by simp [hLabel, classKinds]), lookFunction]
    split <;> rfl
  case h_8 hLabel =>
    rw [hOther (by simp [hLabel]) (by simp [hLabel, classKinds]), lookMethod]
    split <;> rfl
  case h_9 hLabel =>
    rw [hOther (by simp [hLabel]) (by simp [hLabel, classKinds]), lookVariable]
    split <;> [rfl; split] <;> [split; rfl] <;> [rfl; split] <;> rfl
  case h_10 hLabel =>
    rw [hOther (by simp [hLabel]) (by simp [hLabel, classKinds]), decoratorFinding]
    cases decoratorName? src t <;> rfl
  case h_11 _ hExport hClass hAbstract hExpression _ _ _ _ _ =>
    rw [hOther hExport (by simpa [classKinds] using ⟨hClass, hAbstract, hExpression⟩)]
    rfl

/-- The classes in a tree, in the order in which they are come upon. -/
def classSites (src : Source) (t : Tree) : List ClassSite :=
  (enteredTrees src ⟨t, false⟩).filterMap (ClassSite.at? src)

/-- The classes of an outline are those with a name that are come upon, in
this order. -/
theorem classes_eq (src : Source) (t : Tree) :
    (ofTree src t).classes = (classSites src t).filterMap ClassSite.info? := by
  rw [ofTree_eq, classSites, enteredTrees, List.filterMap_map, List.filterMap_filterMap]
  induction entered src ⟨t, false⟩ with
  | nil => rfl
  | cons s ss ih =>
      rw [List.flatMap_cons, ← classInfos, classInfos_append, classInfos_look, classInfos, ih]
      cases hClass : (ClassSite.at? src s.tree).bind ClassSite.info? <;> simp [hClass]

/-- The decorators that looking at a class notes. -/
theorem decorated_of_at? {s : Site} {c : ClassSite} (hClass : ClassSite.at? src s.tree = some c) {name : Text}
    (hCarries : c.Carries name) : .decorated name ∈ (look src s).1 := by
  have hFinding {src : Source} {ds : List Tree} {t : Tree} (hCarries : ClassSite.Carries ⟨src, ds, t⟩ name) :
      ∃ p ∈ ds.map (fun d => (d, decoratorFinding src d)), Finding.decorated name ∈ p.2 := by
    obtain ⟨d, hd, hName⟩ := hCarries
    exact ⟨_, List.mem_map_of_mem hd, by simp [decoratorFinding, hName]⟩
  rw [look_findings, List.mem_flatMap, credits]
  rw [ClassSite.at?] at hClass
  split at hClass
  · next hExport =>
    obtain ⟨d, hDeclared, rfl⟩ := Option.map_eq_some_iff.mp hClass
    obtain ⟨hDeclaration, hKind⟩ := Option.filter_eq_some_iff.mp hDeclared
    obtain ⟨p, hp, hDecorated⟩ := hFinding hCarries
    rw [if_pos hExport, exportCredits, hDeclaration]
    dsimp only
    rw [if_pos hKind, classCredits]
    exact ⟨p, List.mem_cons_of_mem _ (List.mem_append_left _ hp), hDecorated⟩
  · next hExport =>
    split at hClass
    · next hKind =>
      obtain rfl := Option.some.inj hClass
      obtain ⟨p, hp, hDecorated⟩ := hFinding hCarries
      rw [if_neg hExport, if_pos hKind, classCredits, List.nil_append]
      exact ⟨p, List.mem_append_left _ hp, hDecorated⟩
    · cases hClass

/-- A decorator that a class in a tree carries is among the annotations of
the whole outline. -/
theorem mem_annotations {t : Tree} {c : ClassSite} (hClass : c ∈ classSites src t) {name : Text}
    (hCarries : c.Carries name) : name ∈ (ofTree src t).annotations := by
  rw [classSites, enteredTrees, List.filterMap_map] at hClass
  obtain ⟨s, hEntered, hAt⟩ := List.mem_filterMap.mp hClass
  rw [ofTree_eq, ofFindings, mem_distinct, List.mem_filterMap]
  exact ⟨_, List.mem_flatMap.mpr ⟨s, hEntered, decorated_of_at? hAt hCarries⟩, rfl⟩

theorem not_export_of_class {t : Tree} (hClass : t.isOneOf classKinds = true) : t.isKind .exportStatement = false := by
  obtain ⟨k, hk, hKind⟩ := List.any_eq_true.mp hClass
  have hOther : ∀ k ∈ classKinds, k ≠ .exportStatement := by decide
  rw [Tree.isKind, beq_iff_eq] at hKind
  simpa [Tree.isKind, hKind] using hOther k hk

/-- Nothing within a class is exposed. -/
theorem Exposed.eq_of_class {u t : Tree} {before after : List Tree} (exposed : Exposed u t before after)
    (hClass : t.isOneOf classKinds = true) : u = t := by
  cases exposed with
  | here => rfl
  | inside hKind =>
      obtain ⟨k, hk, hIs⟩ := List.any_eq_true.mp hClass
      have hHandled : ∀ k ∈ classKinds, k ∈ handledKinds := by decide
      exact absurd hIs (List.any_eq_false.mp hKind k (hHandled k hk))
  | declared hKind =>
      rw [not_export_of_class hClass] at hKind
      cases hKind

/-- A class that stands exposed is come upon, with its own decorators after
those of an export. -/
theorem Exposed.mem_classSites {u t : Tree} {before after : List Tree} (exposed : Exposed u t before after)
    (hClass : u.isOneOf classKinds = true) : ∀ inClassBody, ∃ outer,
      ⟨src, outer ++ decoratorsOf u, u⟩ ∈ (enteredTrees src ⟨t, inClassBody⟩).filterMap (ClassSite.at? src) := by
  induction exposed with
  | here =>
      intro inClassBody
      refine ⟨[], List.mem_filterMap.mpr ⟨u, ?_, ?_⟩⟩
      · rw [enteredTrees_eq]
        exact List.mem_cons_self ..
      · rw [ClassSite.at?, if_neg (by simp [not_export_of_class hClass]), if_pos hClass, List.nil_append]
  | @inside t c left right before after hKind hChildren exposed ih =>
      intro inClassBody
      obtain ⟨outer, hInside⟩ := ih (t.isKind .classBody)
      refine ⟨outer, ?_⟩
      obtain ⟨v, hv, hAt⟩ := List.mem_filterMap.mp hInside
      refine List.mem_filterMap.mpr ⟨v, ?_, hAt⟩
      rw [enteredTrees_eq, look_unhandled hKind]
      refine List.mem_cons_of_mem _ (List.mem_flatMap.mpr ⟨⟨c, t.isKind .classBody⟩, ?_, hv⟩)
      exact List.mem_map.mpr ⟨c, by simp [hChildren], rfl⟩
  | @declared t d left right before after hKind hChildren hField hFirst exposed ih =>
      intro inClassBody
      have hDeclaration : t.part? .declaration = some d := Tree.part?_eq_some hChildren hField hFirst
      rw [enteredTrees_eq]
      by_cases hDeclared : d.isOneOf classKinds = true
      · obtain rfl := exposed.eq_of_class hDeclared
        refine ⟨decoratorsOf t, List.mem_filterMap.mpr ⟨t, List.mem_cons_self .., ?_⟩⟩
        rw [ClassSite.at?, if_pos hKind, hDeclaration, Option.filter_some_pos hDeclared]
        rfl
      · obtain ⟨outer, hInside⟩ := ih false
        refine ⟨outer, ?_⟩
        obtain ⟨v, hv, hAt⟩ := List.mem_filterMap.mp hInside
        have hLabel : t.label = .phrase .exportStatement := by simpa [Tree.isKind] using hKind
        refine List.mem_filterMap.mpr ⟨v, ?_, hAt⟩
        rw [look, hLabel]
        dsimp only
        rw [lookExport_other hDeclaration (by simpa using hDeclared)]
        simp [sites, hv]

theorem readProperty_decorator (src : Source) (d : Decoration) (pair : Tree) :
    (readProperty src d pair).decorator = d.decorator := by
  rw [readProperty]
  split
  · simp only [apply_ite Decoration.decorator, ite_self]
  · rfl

/-- What is read from a decorator keeps its name, whatever the properties of
its argument say. -/
theorem decorationOf_decorator (src : Source) (t : Tree) (name : Text) :
    (decorationOf src t name).decorator = name := by
  have hProperties (pairs : List Tree) (d : Decoration) :
      (pairs.foldl (readProperty src) d).decorator = d.decorator := by
    induction pairs generalizing d with
    | nil => rfl
    | cons pair pairs ih => rw [List.foldl_cons, ih, readProperty_decorator]
  rw [decorationOf_eq]
  split
  · split
    · exact hProperties ..
    · rfl
  · rfl

namespace ClassSite

variable {c : ClassSite}

/-- The decorator that leads a class is the one that its
decoration is read from. -/
theorem leads_iff {name : Text} : c.Leads name ↔ ∃ d, c.decoration? = some d ∧ d.decorator = name := by
  rw [Leads, decoration?]
  cases c.leading? with
  | none => simp
  | some d => cases hName : decoratorName? c.source d <;> simp [decorationOf_decorator]

/-- The entry of a class with a name which a role decorator
of this name leads. -/
def listed? {α : Type} (decorator : Text) (entry : Text → Decoration → α) (c : ClassSite) : Option α := do
  let name ← c.name?
  let d ← c.decoration?
  if c.Leads decorator then some (entry name d) else none

/-- The entry of a component in a file at a path. -/
def componentEntry (path name : Text) (d : Decoration) : ComponentEntry :=
  ⟨name, path, d.selector, d.templateUrl, d.styleUrls, d.standalone.getD false⟩

def moduleEntry (path name : Text) (d : Decoration) : ModuleEntry :=
  ⟨name, path, d.declarations, d.imports, d.exports, d.providers⟩

end ClassSite

end Outline

/-- A source file that is decoded and parsed without a fault. -/
structure ParsedFile where
  path : Path
  bytes : List UInt8
  chars : List Char
  tree : Tree
  decoded : Utf8.decode (Utf8.dropMark bytes) = .ok chars
  parsed : parse (Extraction.dialectOf path) chars = .ok tree

namespace ParsedFile

def source (f : ParsedFile) : Source := .ofList f.chars

/-- The classes of a file in the order in which they are come upon. -/
def classes (f : ParsedFile) : List Outline.ClassSite := Outline.classSites f.source f.tree

def relative (root : Path) (f : ParsedFile) : Text := f.path.relativeText root

def record (w : World) (root : Path) (extensions : List Text) (f : ParsedFile) : Except SystemError Record :=
  Extraction.record w f.path root extensions f.bytes

variable {w : World} {root : Path} {extensions : List Text}

/-- A record that tells of no failure is that of a file without a fault. -/
theorem exists_of_failure {path : Path} {bytes : List UInt8} {r : Record}
    (hRecord : Extraction.record w path root extensions bytes = .ok r) (hFailure : r.failure = none) :
    ∃ f : ParsedFile, f.path = path ∧ f.bytes = bytes := by
  have hOutline : ¬ ∃ fault, (Extraction.read (Extraction.dialectOf path) bytes).outline = .error fault := by
    rw [← (Extraction.record_eq_ok hRecord).2.2, hFailure]
    exact Bool.false_ne_true
  rw [Extraction.read_outline_error_iff] at hOutline
  rcases hDecode : Utf8.decode (Utf8.dropMark bytes) with fault | chars
  · exact absurd (.inl ⟨fault, hDecode⟩) hOutline
  · rcases hParse : parse (Extraction.dialectOf path) chars with line | tree
    · exact absurd (.inr ⟨chars, line, hDecode, hParse⟩) hOutline
    · exact ⟨⟨path, bytes, chars, tree, hDecode, hParse⟩, rfl, rfl⟩

/-- What the record of a file says of its classes and their decorators. -/
structure Described (root : Path) (f : ParsedFile) (r : Record) : Prop where
  relative : r.relativePath = f.relative root
  classes : r.classes = f.classes.filterMap Outline.ClassSite.info?
  annotations : ∀ c ∈ f.classes, ∀ name, c.Carries name → name ∈ r.annotations

/-- The record of a file that is parsed without a fault lists its classes
with their decorators, and no others. -/
theorem record_described {f : ParsedFile} {r : Record} (hRecord : f.record w root extensions = .ok r) :
    f.Described root r := by
  have hRecorded := Outline.record_recorded f.decoded f.parsed hRecord
  refine ⟨(Extraction.record_eq_ok hRecord).2.1, ?_, fun c hc name hCarries => ?_⟩
  · rw [hRecorded.classes, Outline.classes_eq]
    rfl
  · rw [hRecorded.annotations]
    exact Outline.mem_annotations hc hCarries

end ParsedFile

namespace Classification

/-- A component decorator decides, whatever else there is. -/
theorem decide_component {annotations : List Text} (fileName : Text) (exports : List Export)
    (hComponent : ("Component" : Text) ∈ annotations) : (decide annotations fileName exports).role = .component := by
  simp [decide, decoratorRules, hComponent]

/-- So does a module decorator if no other comes before it in precedence. -/
theorem decide_module {annotations : List Text} (fileName : Text) (exports : List Export)
    (hModule : ("NgModule" : Text) ∈ annotations) : (decide annotations fileName exports).role = .module ∨
      ("Component" : Text) ∈ annotations ∨ ("Injectable" : Text) ∈ annotations := by
  by_cases hComponent : ("Component" : Text) ∈ annotations
  · exact .inr (.inl hComponent)
  by_cases hInjectable : ("Injectable" : Text) ∈ annotations
  · exact .inr (.inr hInjectable)
  · simp [decide, decoratorRules, hComponent, hInjectable, hModule]

end Classification

namespace Inventory

open Outline

/-- Entries of records are found class by class. -/
theorem filterMap_decorated {α : Type} (entry : Record × ClassInfo × Decoration → Option α)
    (records : List Record) :
    (decorated records).filterMap entry = records.flatMap fun r => r.classes.filterMap fun c =>
      c.decoration.bind fun d => entry (r, c, d) := by
  rw [decorated, List.filterMap_flatMap]
  refine congrArg (List.flatMap · records) (funext fun r => ?_)
  rw [List.filterMap_filterMap]
  refine congrArg (List.filterMap · r.classes) (funext fun c => ?_)
  cases c.decoration <;> rfl

/-- The entries that one decorator gives are those of the
classes which it leads. -/
theorem entries_eq {α : Type} {decorator : Text} {entry : Record × ClassInfo × Decoration → Option α}
    {made : Text → Text → Decoration → α} {root : Path} {files : List ParsedFile} {records : List Record}
    (hEntry : ∀ r c d,
      entry (r, c, d) = if d.decorator = decorator then some (made r.relativePath c.name d) else none)
    (hRecords : List.Forall₂ (ParsedFile.Described root) files records) :
    (decorated records).filterMap entry =
      files.flatMap fun f => f.classes.filterMap (ClassSite.listed? decorator (made (f.relative root))) := by
  rw [filterMap_decorated, List.flatMap_def, List.flatMap_def]
  refine congrArg List.flatten (map_eq_of_forall₂ hRecords fun f r hRecord => ?_)
  rw [hRecord.classes, List.filterMap_filterMap]
  refine congrArg (List.filterMap · f.classes) (funext fun c => ?_)
  rw [ClassSite.listed?, ClassSite.info?]
  cases c.name? with
  | none => rfl
  | some name =>
      cases hDecoration : c.decoration? with
      | none => simp
      | some d => simp [hEntry, ClassSite.leads_iff, hDecoration, hRecord.relative]

/-- A class that a decorator leads has an entry under its name and its file. -/
theorem exists_listed {α : Type} {decorator name : Text} {made : Text → Text → Decoration → α} {root : Path}
    {files : List ParsedFile} {f : ParsedFile} (hf : f ∈ files) {c : ClassSite} (hc : c ∈ f.classes)
    (hName : c.name? = some name) (hLeads : c.Leads decorator) : ∃ d, made (f.relative root) name d ∈
      files.flatMap fun f => f.classes.filterMap (ClassSite.listed? decorator (made (f.relative root))) := by
  obtain ⟨d, hDecoration, -⟩ := ClassSite.leads_iff.mp hLeads
  refine ⟨d, List.mem_flatMap.mpr ⟨f, hf, List.mem_filterMap.mpr ⟨c, hc, ?_⟩⟩⟩
  simp [ClassSite.listed?, hName, hDecoration, hLeads]

/-- A decorated class is listed as a component just when its decoration
comes from a component decorator. -/
theorem componentOf_eq (r : Record) (c : ClassInfo) (d : Decoration) : componentOf (r, c, d) =
    if d.decorator = "Component" then some (ClassSite.componentEntry r.relativePath c.name d) else none := rfl

/-- A decorated class is listed as a module just when its decoration comes
from a module decorator. -/
theorem moduleOf_eq (r : Record) (c : ClassInfo) (d : Decoration) : moduleOf (r, c, d) =
    if d.decorator = "NgModule" then some (ClassSite.moduleEntry r.relativePath c.name d) else none := rfl

/-- What the inventory of files promises. -/
structure Listing (root : Path) (files : List ParsedFile) (records : List Record) : Prop where
  /-- It lists each class with a name that a component decorator leads as one component, -/
  components : (ofRecords (records.map Classification.classify)).components =
    files.flatMap fun f =>
      f.classes.filterMap (ClassSite.listed? "Component" (ClassSite.componentEntry (f.relative root)))
  /-- and each that a module decorator leads as one module, in the order of files and classes. -/
  modules : (ofRecords (records.map Classification.classify)).modules =
    files.flatMap fun f => f.classes.filterMap (ClassSite.listed? "NgModule" (ClassSite.moduleEntry (f.relative root)))
  /-- So whatever decorators follow, such a class is listed under its name and its file. -/
  leading : ∀ f ∈ files, ∀ c ∈ f.classes, ∀ name, c.name? = some name →
    (c.Leads "Component" → ∃ e ∈ (ofRecords (records.map Classification.classify)).components,
      e.name = name ∧ e.path = f.relative root) ∧
    (c.Leads "NgModule" → ∃ e ∈ (ofRecords (records.map Classification.classify)).modules,
      e.name = name ∧ e.path = f.relative root)
  /-- A role decorator leads if the class carries no other. -/
  alone : ∀ f ∈ files, ∀ c ∈ f.classes, ∀ name ∈ roleDecorators, c.Carries name →
    (∀ name' ∈ roleDecorators, c.Carries name' → name' = name) → c.Leads name
  /-- A component decorator decides the role of the file, and a module decorator where no other comes before it. -/
  roles : List.Forall₂ (fun f r => ∀ c ∈ f.classes,
    (c.Carries "Component" → (Classification.classify r).role = .component) ∧
    (c.Carries "NgModule" → (Classification.classify r).role = .module ∨
      (Classification.classify r).role = .component ∨ ("Injectable" : Text) ∈ r.annotations)) files records
  /-- Classes are come upon wherever they stand exposed. -/
  exposed : ∀ f ∈ files, ∀ (u : Tree) (before after : List Tree), Exposed u f.tree before after →
    u.isOneOf classKinds = true → ∃ outer, ⟨f.source, outer ++ decoratorsOf u, u⟩ ∈ f.classes

/-- A file of which a class carries the decorator of a component has that
role, whatever leads the class; it is the same with modules. -/
theorem role_of_described {root : Path} {f : ParsedFile} {r : Record} (hRecord : f.Described root r)
    {c : ClassSite} (hc : c ∈ f.classes) :
    (c.Carries "Component" → (Classification.classify r).role = .component) ∧
    (c.Carries "NgModule" → (Classification.classify r).role = .module ∨
      (Classification.classify r).role = .component ∨ ("Injectable" : Text) ∈ r.annotations) := by
  refine ⟨fun hCarries => ?_, fun hCarries => ?_⟩
  · exact Classification.decide_component _ _ (hRecord.annotations c hc _ hCarries)
  · rcases Classification.decide_module (baseName r.relativePath) r.exports
      (hRecord.annotations c hc _ hCarries) with hModule | hComponent | hInjectable
    · exact .inl hModule
    · exact .inr (.inl (Classification.decide_component _ _ hComponent))
    · exact .inr (.inr hInjectable)

/-- The inventory lists each class by the role decorator that
is written first. -/
theorem leading_listed {w : World} {root : Path} {extensions : List Text} {files : List ParsedFile}
    {records : List Record} (hRecords : files.mapM (ParsedFile.record w root extensions) = .ok records) :
    Listing root files records := by
  have hDescribed : List.Forall₂ (ParsedFile.Described root) files records :=
    (forall₂_of_mapM hRecords).imp fun _ _ => ParsedFile.record_described
  have hClassified : List.Forall₂ (ParsedFile.Described root) files (records.map Classification.classify) := by
    rw [List.forall₂_map_right_iff]
    exact hDescribed.imp fun _ _ hRecord => ⟨hRecord.relative, hRecord.classes, hRecord.annotations⟩
  have hComponents : (ofRecords (records.map Classification.classify)).components = _ :=
    entries_eq componentOf_eq hClassified
  have hModules : (ofRecords (records.map Classification.classify)).modules = _ := entries_eq moduleOf_eq hClassified
  refine ⟨hComponents, hModules, fun f hf c hc name hName => ⟨fun hLeads => ?_, fun hLeads => ?_⟩, ?_, ?_, ?_⟩
  · obtain ⟨d, hEntry⟩ := exists_listed hf hc hName hLeads
    rw [hComponents]
    exact ⟨_, hEntry, rfl, rfl⟩
  · obtain ⟨d, hEntry⟩ := exists_listed hf hc hName hLeads
    rw [hModules]
    exact ⟨_, hEntry, rfl, rfl⟩
  · exact fun f _ c _ name hRole hCarries hAlone => ClassSite.leads_of_alone hRole hCarries hAlone
  · exact hDescribed.imp fun f r hRecord c hc => role_of_described hRecord hc
  · exact fun f _ u before after exposed hClass => exposed.mem_classSites hClass false

namespace Sample

def nowhere : World where
  disk := ⟨[(["p"], .directory)]⟩
  here := ⟨⟨.root, []⟩, []⟩
  watch := ⟨0, 1⟩

def path : Path := ⟨.root, ["p", "a.component.ts"]⟩

def project : Path := ⟨.root, ["p"]⟩

/-- The record of a source, if it is parsed without a fault. -/
def recordOf? (text : String) : Option Record :=
  ((Extraction.record nowhere path project [".ts"] (Utf8.encode text)).toOption).filter (·.failure = none)

/-- A text that has a record is the content of a file that is
parsed without a fault. -/
theorem exists_of_recordOf? {text : String} {r : Record} (hRecord : recordOf? text = some r) :
    ∃ f : ParsedFile, f.path = path ∧ f.bytes = Utf8.encode text ∧
      [f].mapM (ParsedFile.record nowhere project [".ts"]) = .ok [r] := by
  rw [recordOf?, Option.filter_eq_some_iff] at hRecord
  obtain ⟨hResult, hFailure⟩ := hRecord
  have hMade := eq_ok_of_toOption hResult
  obtain ⟨f, hPath, hBytes⟩ := ParsedFile.exists_of_failure hMade (by simpa using hFailure)
  refine ⟨f, hPath, hBytes, ?_⟩
  rw [List.mapM_cons, ParsedFile.record, hPath, hBytes, hMade]
  rfl

/-- A component that is injectable too, with its module. -/
def declared : String :=
  "@Component(\x7b selector: 'app-a' \x7d) @Injectable() export class A \x7b\x7d\n" ++
    "@NgModule(\x7b declarations: [A] \x7d) export class M \x7b\x7d"

/-- The names in an inventory, and the role of the file. -/
def summary (r : Record) : Role × List Text × List Text :=
  let i := ofRecords [Classification.classify r]
  ((Classification.classify r).role, i.components.map (·.name), i.modules.map (·.name))

/-- The component is listed by its leading decorator, and so is the
module beside it. -/
theorem declared_summary : (recordOf? declared).map summary =
    (some (.component, ["A"], ["M"]) : Option (Role × List Text × List Text)) := by decide +kernel

/-- Both are listed. -/
theorem declared_listed : ∃ (f : ParsedFile) (r : Record), f.bytes = Utf8.encode declared ∧
    [f].mapM (ParsedFile.record nowhere project [".ts"]) = .ok [r] ∧ Listing project [f] [r] ∧
      summary r = ((.component, ["A"], ["M"]) : Role × List Text × List Text) := by
  obtain ⟨r, hRecord, hSummary⟩ := Option.map_eq_some_iff.mp declared_summary
  obtain ⟨f, -, hBytes, hRecords⟩ := exists_of_recordOf? hRecord
  exact ⟨f, r, hBytes, hRecords, leading_listed hRecords, hSummary⟩

/-- A component whose other decorator is written first. -/
def second : String := "@Injectable() @Component(\x7b selector: 'app-a' \x7d) export class A \x7b\x7d"

/-- A component within what another class extends. -/
def inherited : String := "class A extends (@Component(\x7b selector: 'app-b' \x7d) class B \x7b\x7d) \x7b\x7d"

/-- The names of classes anywhere in a tree that carry a
decorator of a name. -/
def carriers (decorator : Text) (src : Source) (t : Tree) : List Text :=
  (t.preorder.filter (·.isOneOf classKinds)).filterMap fun u =>
    if decorator ∈ (decoratorsOf u).filterMap (decoratorName? src) then (u.part? .name).map src.text else none

/-- A record in short, with its classes and their decorators. -/
def details (r : Record) : (Role × List Text × List Text) × List (Text × List Text) :=
  (summary r, r.classes.map fun c => (c.name, c.decorators))

/-- With the other decorator in front, the class is listed neither as a
component nor as a module, though the file has the role of a component. -/
theorem second_details : (recordOf? second).map details =
    some ((.component, [], []), [(("A" : Text), (["Injectable", "Component"] : List Text))]) := by
  decide +kernel

/-- Of a class within what another extends nothing is listed, and the file
has no role. -/
theorem inherited_details : (recordOf? inherited).map details =
    some ((.unknown, [], []), [(("A" : Text), ([] : List Text))]) := by
  decide +kernel

/-- The class that is extended carries the decorator all the same. -/
theorem inherited_carriers : (parse .plain inherited.toList).toOption.map
    (carriers "Component" (.ofList inherited.toList)) = some (["B"] : List Text) := by
  decide +kernel

theorem chars_eq {f : ParsedFile} {text : String} (hBytes : f.bytes = Utf8.encode text)
    (hMark : Utf8.dropMark (Utf8.encode text) = Utf8.encode text) : f.chars = text.toList := by
  have hDecoded := f.decoded
  rw [hBytes, hMark, Utf8.encode, Utf8.decode_encodeChars] at hDecoded
  exact (Except.ok.inj hDecoded).symm

/-- Whoever is named as a carrier is a class of the tree with the decorator. -/
theorem mem_carriers {decorator name : Text} {src : Source} {t : Tree} (hName : name ∈ carriers decorator src t) :
    ∃ u ∈ t.preorder, u.isOneOf classKinds = true ∧ (u.part? .name).map src.text = some name ∧
      ∃ d ∈ decoratorsOf u, decoratorName? src d = some decorator := by
  obtain ⟨u, hu, hSome⟩ := List.mem_filterMap.mp hName
  obtain ⟨hTree, hClass⟩ := List.mem_filter.mp hu
  split at hSome
  · next hDecorator => exact ⟨u, hTree, hClass, hSome, List.mem_filterMap.mp hDecorator⟩
  · cases hSome

/-- A class may carry a component decorator and be missing: if another role
decorator is written before it, although the file has the role of a
component, or if nothing looks at the place where the class stands. -/
theorem carried_unlisted :
    (∃ (f : ParsedFile) (r : Record), f.bytes = Utf8.encode second ∧
      [f].mapM (ParsedFile.record nowhere project [".ts"]) = .ok [r] ∧
      (∃ c ∈ f.classes, c.name? = some ("A" : Text) ∧ c.Carries "Component") ∧
      (Classification.classify r).role = .component ∧ (ofRecords [Classification.classify r]).components = []) ∧
    ∃ (f : ParsedFile) (r : Record), f.bytes = Utf8.encode inherited ∧
      [f].mapM (ParsedFile.record nowhere project [".ts"]) = .ok [r] ∧
      (∃ u ∈ f.tree.preorder, u.isOneOf classKinds = true ∧ (u.part? .name).map f.source.text = some ("B" : Text) ∧
        ∃ d ∈ decoratorsOf u, decoratorName? f.source d = some ("Component" : Text)) ∧
      (ofRecords [Classification.classify r]).components = [] := by
  constructor
  · obtain ⟨r, hRecord, hDetails⟩ := Option.map_eq_some_iff.mp second_details
    obtain ⟨f, -, hBytes, hRecords⟩ := exists_of_recordOf? hRecord
    obtain ⟨hSummary, hClasses⟩ := Prod.mk.inj hDetails
    obtain ⟨hRole, hEntries⟩ := Prod.mk.inj hSummary
    refine ⟨f, r, hBytes, hRecords, ?_, hRole, List.map_eq_nil_iff.mp (Prod.mk.inj hEntries).1⟩
    have hDescribed : f.Described project r := by
      cases forall₂_of_mapM hRecords with
      | cons hRecord _ => exact ParsedFile.record_described hRecord
    obtain ⟨i, hi, hInfo⟩ : ∃ i ∈ r.classes, (i.name, i.decorators) = (("A" : Text), (["Injectable", "Component"] : List Text)) := by
      rw [← List.mem_map, hClasses]
      exact List.mem_singleton_self _
    obtain ⟨hName, hDecorators⟩ := Prod.mk.inj hInfo
    rw [hDescribed.classes] at hi
    obtain ⟨c, hc, hSome⟩ := List.mem_filterMap.mp hi
    obtain ⟨hClassName, hCarries⟩ := ClassSite.info?_eq_some hSome
    exact ⟨c, hc, hName ▸ hClassName, hCarries _ (by simp [hDecorators])⟩
  · obtain ⟨r, hRecord, hDetails⟩ := Option.map_eq_some_iff.mp inherited_details
    obtain ⟨f, hPath, hBytes, hRecords⟩ := exists_of_recordOf? hRecord
    obtain ⟨hSummary, -⟩ := Prod.mk.inj hDetails
    refine ⟨f, r, hBytes, hRecords, ?_, List.map_eq_nil_iff.mp (Prod.mk.inj (Prod.mk.inj hSummary).2).1⟩
    have hChars := chars_eq hBytes (by decide +kernel)
    have hTree : parse .plain inherited.toList = .ok f.tree := by
      rw [← hChars, ← f.parsed, hPath]
      rfl
    have hCarriers := inherited_carriers
    rw [hTree, ← hChars] at hCarriers
    exact mem_carriers (by rw [ParsedFile.source, Option.some.inj hCarriers]; exact List.mem_singleton_self _)

end Sample

end Inventory

end SourceAtlas
