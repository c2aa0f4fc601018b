import SourceAtlas.Proofs.Figures
import SourceAtlas.Proofs.Outline.Legibility

/-!
Which records and reports have texts that a document can hold. All their texts are strings but for
the names of files, which are whatever the disk has.
-/
namespace SourceAtlas

open Text

theorem ImportKind.word_isString (k : ImportKind) : k.word.isString = true := by cases k <;> rfl

theorem ImportForm.word_isString (f : ImportForm) : f.word.isString = true := by cases f <;> rfl

theorem ImportGroup.word_isString (g : ImportGroup) : g.word.isString = true := by cases g <;> rfl

theorem ExportKind.word_isString (k : ExportKind) : k.word.isString = true := by cases k <;> rfl

theorem FunctionKind.word_isString (k : FunctionKind) : k.word.isString = true := by cases k <;> rfl

theorem Role.word_isString (r : Role) : r.word.isString = true := by cases r <;> rfl

theorem Confidence.word_isString (c : Confidence) : c.word.isString = true := by cases c <;> rfl

theorem Severity.word_isString (s : Severity) : s.word.isString = true := by cases s <;> rfl

theorem CycleKind.word_isString (k : CycleKind) : k.word.isString = true := by cases k <;> rfl

theorem WarningKind.word_isString (k : WarningKind) : k.word.isString = true := by cases k <;> rfl

structure Import.Legible (i : Import) : Prop where
  source : i.source.isString = true
  resolved : ∀ t ∈ i.resolved, t.isString = true
  names : ∀ t ∈ i.names, t.isString = true

structure Record.Legible (r : Record) : Prop where
  path : r.path.isString = true
  relativePath : r.relativePath.isString = true
  annotations : ∀ t ∈ r.annotations, t.isString = true
  imports : ∀ i ∈ r.imports, i.Legible
  exports : ∀ e ∈ r.exports, e.name.isString = true
  classes : ∀ c ∈ r.classes, c.Legible
  functions : ∀ f ∈ r.functions, f.name.isString = true
  roleLabel : r.roleLabel.isString = true
  failure : ∀ t ∈ r.failure, t.isString = true

/-- An import has a legible document exactly if its texts are strings. -/
theorem Import.toDatum_legible_iff {i : Import} : i.toDatum.legible = true ↔ i.Legible := by
  simp only [toDatum, Datum.legible_table, List.all_cons, List.all_nil, isString_ofString, Datum.legible_text,
    Datum.legible_textOrNull, Datum.legible_texts, Datum.legible_int, ImportKind.word_isString,
    ImportForm.word_isString, ImportGroup.word_isString, Bool.true_and, Bool.and_true, Bool.and_eq_true,
    List.all_eq_true, Option.mem_toList]
  constructor
  · rintro ⟨hSource, hResolved, hNames⟩
    exact ⟨hSource, hResolved, hNames⟩
  · rintro ⟨hSource, hResolved, hNames⟩
    exact ⟨hSource, hResolved, hNames⟩

theorem Export.toDatum_legible (e : Export) : e.toDatum.legible = e.name.isString := by
  simp [toDatum, Datum.legible_table, ExportKind.word_isString]

theorem FunctionInfo.toDatum_legible (f : FunctionInfo) : f.toDatum.legible = f.name.isString := by
  simp [toDatum, Datum.legible_table, FunctionKind.word_isString]

/-- The document of a record is legible exactly if the record is. -/
theorem Record.toDatum_legible_iff {r : Record} : r.toDatum.legible = true ↔ r.Legible := by
  simp only [toDatum, Datum.legible_table, List.all_cons, List.all_nil, isString_ofString, Datum.legible_text,
    Datum.legible_textOrNull, Datum.legible_texts, Datum.legible_int, Datum.legible_listOf, Role.word_isString,
    Confidence.word_isString, Export.toDatum_legible, FunctionInfo.toDatum_legible, Bool.true_and, Bool.and_true,
    Bool.and_eq_true, List.all_eq_true, Option.mem_toList, Import.toDatum_legible_iff, ClassInfo.toDatum_legible_iff]
  constructor
  · rintro ⟨h₁, h₂, h₃, h₄, h₅, h₆, h₇, h₈, h₉⟩
    exact ⟨h₁, h₂, h₃, h₄, h₅, h₆, h₇, h₈, h₉⟩
  · rintro ⟨h₁, h₂, h₃, h₄, h₅, h₆, h₇, h₈, h₉⟩
    exact ⟨h₁, h₂, h₃, h₄, h₅, h₆, h₇, h₈, h₉⟩

/-- Giving a file its role adds no text that is no string. -/
theorem Record.Legible.classify {r : Record} (legible : r.Legible) : (Classification.classify r).Legible := by
  have hByName {rules : List (Text × Decision)} (hRules : ∀ rule ∈ rules, rule.2.label.isString = true)
      (name : Text) : ∀ d ∈ Classification.byName rules name, d.label.isString = true := by
    intro d hd
    obtain ⟨rule, hRule, rfl⟩ := Option.map_eq_some_iff.mp hd
    exact hRules rule (List.mem_of_find?_eq_some hRule)
  have hLabel (annotations : List Text) (name : Text) (exports : List Export) :
      (Classification.decide annotations name exports).label.isString = true := by
    rw [Classification.decide]
    split
    · next rule hRule =>
      have hMember := List.mem_of_find?_eq_some hRule
      simp only [Classification.decoratorRules, List.mem_cons, List.not_mem_nil, or_false] at hMember
      rcases hMember with rfl | rfl | rfl | rfl | rfl <;> try rfl
      show (Classification.injectable (Classification.lowered name)).label.isString = true
      rw [Classification.injectable]
      cases hRule : Classification.byName Classification.injectableRules (Classification.lowered name) with
      | none => rfl
      | some d => exact hByName (by decide) _ d hRule
    · split
      · next d hRule => exact hByName (by decide) _ d hRule
      · split_ifs <;> rfl
  exact { legible with roleLabel := hLabel .. }

/-- The names of files in a record are strings: its own, and those its
imports lead to. -/
structure Record.Spelled (r : Record) : Prop where
  path : r.path.isString = true
  resolved : ∀ i ∈ r.imports, ∀ t ∈ i.resolved, t.isString = true

instance (r : Record) : Decidable r.Spelled :=
  decidable_of_iff (r.path.isString = true ∧ ∀ i ∈ r.imports, ∀ t ∈ i.resolved, t.isString = true)
    ⟨fun ⟨hPath, hResolved⟩ => ⟨hPath, hResolved⟩, fun ⟨hPath, hResolved⟩ => ⟨hPath, hResolved⟩⟩

/-- The names of files in a legible record are strings. -/
theorem Record.Legible.spelled {r : Record} (legible : r.Legible) : r.Spelled :=
  ⟨legible.path, fun i hi => (legible.imports i hi).resolved⟩

namespace Resolution

variable {w : World} {importer : Path} {extensions : List Text} {source : Text}

/-- The file that a source is resolved to is one of the candidates. -/
theorem mem_of_firstFile {ps : List Path} {p : Path} (hFirst : firstFile w ps = .ok (some p)) : p ∈ ps := by
  induction ps with
  | nil => cases hFirst
  | cons q rest ih =>
      rw [firstFile] at hFirst
      split at hFirst
      · cases hFirst
      · obtain rfl := Option.some.inj (Except.ok.inj hFirst)
        exact List.mem_cons_self ..
      · exact List.mem_cons_of_mem _ (ih hFirst)

/-- From a file with a string for its path a string leads to one, if the
extensions are strings. -/
theorem classify_legible (hImporter : importer.Legible) (hSource : source.isString = true)
    (hExtensions : ∀ ext ∈ extensions, ext.isString = true) {kind : ImportKind} {resolved : Option Text}
    (hClassify : classify w importer extensions source = .ok (kind, resolved)) :
    ∀ t ∈ resolved, t.isString = true := by
  rw [classify] at hClassify
  split at hClassify
  · split at hClassify
    · cases hClassify
    · obtain ⟨-, rfl⟩ := Prod.mk.inj (Except.ok.inj hClassify)
      simp
    · next p hFound =>
      obtain ⟨-, rfl⟩ := Prod.mk.inj (Except.ok.inj hClassify)
      have hBase : (base importer source).Legible := (hImporter.parent.join (Path.parse_legible hSource)).normalize
      have hIndex {ext : Text} (hExt : ext.isString = true) : ("index" ++ ext : Text).isString = true := by simp [hExt]
      have hAll : ∀ q ∈ candidates (base importer source) extensions, q.Legible := by
        simp only [candidates, List.cons_append, List.forall_mem_cons, List.forall_mem_append, List.forall_mem_map]
        exact ⟨hBase, fun ext hExt => hBase.append (hExtensions ext hExt),
          fun ext hExt => hBase.join (Path.parse_legible (hIndex (hExtensions ext hExt)))⟩
      rintro t ht
      obtain rfl := Option.some.inj ht
      exact Path.text_isString_iff.mpr (hAll p (mem_of_firstFile hFound))
  · obtain ⟨-, rfl⟩ := Prod.mk.inj (Except.ok.inj hClassify)
    simp

end Resolution

namespace Extraction

variable {w : World} {path root : Path} {extensions : List Text} {bytes : List UInt8} {r : Record}

/-- The message of a fault is a string if the name of the file is one, for
the fault itself is described in strings. -/
theorem fault_message_isString (hPath : path.text.isString = true) (fault : ExtractionFault) :
    (fault.message path).isString = true := by
  cases fault with
  | unreadable e => simp [ExtractionFault.message, hPath]
  | undecodable f => simp [ExtractionFault.message, hPath]
  | unparsable line => simp [ExtractionFault.message, hPath]

/-- A record that only says why nothing was extracted has no text but words
and the name of its file. -/
theorem failed_legible (hPath : path.text.isString = true) (root : Path) (lineCount : Nat)
    (fault : ExtractionFault) : (failed path root lineCount fault).Legible where
  path := hPath
  relativePath := (Path.text_isString_iff.mp hPath).relativeText root
  annotations := by simp [failed]
  imports := by simp [failed]
  exports := by simp [failed]
  classes := by simp [failed]
  functions := by simp [failed]
  roleLabel := rfl
  failure t ht := by
    obtain rfl := Option.some.inj ht
    exact fault_message_isString hPath fault

/-- The outline of a file is made of strings, whatever its bytes are. -/
theorem read_legible {dialect : Syntax.Dialect} {o : Outline} (hOutline : (read dialect bytes).outline = .ok o) :
    o.Legible := by
  rw [read] at hOutline
  split at hOutline
  · cases hOutline
  · dsimp only at hOutline
    split at hOutline
    · cases hOutline
    · exact Except.ok.inj hOutline ▸ Outline.ofTree_legible _ _

/-- The record of a file is legible as far as the names of files in it are:
what was extracted, and why nothing was, is made of strings. -/
theorem record_legible (hRecord : record w path root extensions bytes = .ok r) (hSpelled : r.Spelled) :
    r.Legible := by
  rw [record] at hRecord
  split at hRecord
  · obtain rfl := Except.ok.inj hRecord
    exact failed_legible hSpelled.path root _ _
  · next o hOutline =>
    split at hRecord
    · cases hRecord
    · next imports hImports =>
      have hLegible := read_legible hOutline
      obtain rfl := Except.ok.inj hRecord
      refine ⟨hSpelled.path, (Path.text_isString_iff.mp hSpelled.path).relativeText root, hLegible.annotations,
        fun i hi => ?_, hLegible.exports, hLegible.classes, hLegible.functions, rfl, by simp⟩
      obtain ⟨site, hSite, hResolve⟩ := exists_of_forall₂_right (forall₂_of_mapM hImports) hi
      obtain ⟨hSource, hNames⟩ := hLegible.imports site hSite
      have hResolved := hSpelled.resolved i hi
      rw [(resolveSite_eq_ok hResolve).2.1]
      exact ⟨hSource, hResolved, hNames⟩

/-- In the record of a file with a string for its path all names of files
are strings. -/
theorem record_spelled (hPath : path.text.isString = true) (hExtensions : ∀ ext ∈ extensions, ext.isString = true)
    (hRecord : record w path root extensions bytes = .ok r) : r.Spelled := by
  rw [record] at hRecord
  split at hRecord
  · obtain rfl := Except.ok.inj hRecord
    exact (failed_legible hPath root _ _).spelled
  · next o hOutline =>
    split at hRecord
    · cases hRecord
    · next imports hImports =>
      obtain rfl := Except.ok.inj hRecord
      refine ⟨hPath, fun i hi => ?_⟩
      obtain ⟨site, hSite, hResolve⟩ := exists_of_forall₂_right (forall₂_of_mapM hImports) hi
      rw [resolveSite] at hResolve
      split at hResolve
      · cases hResolve
      · next kind resolved hClassify =>
        obtain rfl := Except.ok.inj hResolve
        exact Resolution.classify_legible (Path.text_isString_iff.mp hPath)
          ((read_legible hOutline).imports site hSite).1 hExtensions hClassify

end Extraction

section Parts

variable {records : List Record}

/-- The nodes of a graph and the ends of its edges are named
like the records. -/
theorem DependencyGraph.ofRecords_legible (hRecords : ∀ r ∈ records, r.Legible) :
    (ofRecords records).toDatum.legible = true ∧ ∀ id, (ofRecords records).HasNode id → id.isString = true := by
  have hIds : ∀ id, (ofRecords records).HasNode id → id.isString = true := by
    intro id hId
    obtain ⟨n, hn, rfl⟩ := List.mem_map.mp hId
    obtain ⟨r, hr, rfl⟩ := List.mem_map.mp hn
    exact (hRecords r hr).relativePath
  have hNodes : (Datum.list ((ofRecords records).nodes.map Node.toDatum)).legible = true := by
    rw [Datum.legible_listOf, List.all_eq_true]
    intro n hn
    obtain ⟨r, hr, rfl⟩ := List.mem_map.mp hn
    have hRelative := (hRecords r hr).relativePath
    have hLabel : (baseName r.relativePath).isString = true :=
      isString_of_subset hRelative fun s hs =>
        List.mem_reverse.mp ((List.takeWhile_sublist _).subset (List.mem_reverse.mp hs))
    simp [Node.toDatum, nodeOf, Datum.legible_table, hRelative, hLabel, (hRecords r hr).path, Role.word_isString]
  have hEdges : (Datum.list ((ofRecords records).edges.map Edge.toDatum)).legible = true := by
    rw [Datum.legible_listOf, List.all_eq_true]
    intro e he
    obtain ⟨hSource, hTarget⟩ := ofRecords_edges he
    simp [Edge.toDatum, Datum.legible_table, hIds _ hSource, hIds _ hTarget]
  exact ⟨by simp [toDatum, Datum.legible_table, hNodes, hEdges], hIds⟩

/-- What is counted has a name among those that are counted. -/
theorem Metrics.mem_of_counts {names : List Text} {p : Text × Int} (hp : p ∈ counts names) : p.1 ∈ names := by
  have hGet := (Assoc.get?_eq_some_iff (nodup_counts names)).mpr hp
  rw [get?_counts] at hGet
  split at hGet
  · assumption
  · cases hGet

/-- Figures by name are legible if the names are, the numbers
being without text. -/
theorem Metrics.figures_legible {names : List Text} (hNames : ∀ name ∈ names, name.isString = true) :
    (figures (Assoc.sorted (counts names))).legible = true := by
  rw [figures, Datum.legible_table, List.all_map, List.all_eq_true]
  intro p hp
  simp [hNames p.1 (mem_of_counts (Sorting.mem_sort.mp hp))]

/-- The figures of files are under their names, and those of roles under
words of the program. -/
theorem Metrics.ofRecords_legible (hRecords : ∀ r ∈ records, r.Legible) (top : Int) :
    (ofRecords records (.ofRecords records) top).toDatum.legible = true := by
  have hIds := (DependencyGraph.ofRecords_legible hRecords).2
  have hEnds (e : Edge) (he : e ∈ (DependencyGraph.ofRecords records).edges) :
      e.source.isString = true ∧ e.target.isString = true :=
    (DependencyGraph.ofRecords_edges he).imp (hIds _) (hIds _)
  have hTargets : ∀ id ∈ (DependencyGraph.ofRecords records).edges.map Edge.target, id.isString = true :=
    List.forall_mem_map.mpr fun e he => (hEnds e he).2
  have hSources : ∀ id ∈ (DependencyGraph.ofRecords records).edges.map Edge.source, id.isString = true :=
    List.forall_mem_map.mpr fun e he => (hEnds e he).1
  have hRoles : ∀ word ∈ records.map fun r => r.role.word, word.isString = true :=
    List.forall_mem_map.mpr fun r _ => r.role.word_isString
  have hLargest : (Datum.list ((ofRecords records (.ofRecords records) top).largestFiles.map fun f =>
      .table [("path", .text f.path), ("lines", .int f.lines)])).legible = true := by
    rw [Datum.legible_listOf, List.all_eq_true]
    intro f hf
    obtain ⟨r, hr, rfl⟩ := List.mem_map.mp hf
    simp [Datum.legible_table, (hRecords r (Sorting.mem_sort.mp (mem_takeTop hr))).relativePath]
  have hMost : ∀ id ∈ (ofRecords records (.ofRecords records) top).mostImported, id.isString = true := by
    intro id hId
    obtain ⟨p, hp, rfl⟩ := List.mem_map.mp (mem_takeTop hId)
    exact hTargets p.1 (mem_of_counts (Sorting.mem_sort.mp hp))
  have hFanIn := figures_legible hTargets
  have hFanOut := figures_legible hSources
  have hCounts := figures_legible hRoles
  simp only [toDatum, Datum.legible_table, List.all_cons, List.all_nil, isString_ofString, Datum.legible_float,
    Datum.legible_texts, hLargest, Bool.true_and, Bool.and_true, Bool.and_eq_true, List.all_eq_true]
  exact ⟨hCounts, hFanIn, hFanOut, hMost⟩

/-- The building blocks are described by what their classes
and decorations say. -/
theorem Inventory.ofRecords_legible (hRecords : ∀ r ∈ records, r.Legible) :
    (ofRecords records).toDatum.legible = true := by
  have hFound : ∀ x ∈ decorated records,
      x.1.relativePath.isString = true ∧ x.2.1.name.isString = true ∧ x.2.2.Legible := by
    intro x hx
    obtain ⟨r, hr, hx⟩ := List.mem_flatMap.mp hx
    obtain ⟨c, hc, hx⟩ := List.mem_filterMap.mp hx
    obtain ⟨d, hd, rfl⟩ := Option.map_eq_some_iff.mp hx
    have hClass := (hRecords r hr).classes c hc
    exact ⟨(hRecords r hr).relativePath, hClass.name, hClass.decoration d hd⟩
  have hModules : (Datum.list ((ofRecords records).modules.map ModuleEntry.toDatum)).legible = true := by
    rw [Datum.legible_listOf, List.all_eq_true]
    intro m hm
    obtain ⟨x, hx, hSome⟩ := List.mem_filterMap.mp hm
    obtain ⟨hPath, hName, hDecoration⟩ := hFound x hx
    rw [moduleOf] at hSome
    split_ifs at hSome
    obtain rfl := Option.some.inj hSome
    simpa [ModuleEntry.toDatum, Datum.legible_table, hPath, hName] using
      ⟨hDecoration.declarations, hDecoration.imports, hDecoration.exports, hDecoration.providers⟩
  have hComponents : (Datum.list ((ofRecords records).components.map ComponentEntry.toDatum)).legible = true := by
    rw [Datum.legible_listOf, List.all_eq_true]
    intro m hm
    obtain ⟨x, hx, hSome⟩ := List.mem_filterMap.mp hm
    obtain ⟨hPath, hName, hDecoration⟩ := hFound x hx
    rw [componentOf] at hSome
    split_ifs at hSome
    obtain rfl := Option.some.inj hSome
    simpa [ComponentEntry.toDatum, Datum.legible_table, hPath, hName] using
      ⟨hDecoration.selector, hDecoration.templateUrl, hDecoration.styleUrls⟩
  have hServices : (Datum.list ((ofRecords records).services.map ServiceEntry.toDatum)).legible = true := by
    rw [Datum.legible_listOf, List.all_eq_true]
    intro m hm
    obtain ⟨x, hx, hSome⟩ := List.mem_filterMap.mp hm
    obtain ⟨hPath, hName, hDecoration⟩ := hFound x hx
    rw [serviceOf] at hSome
    split_ifs at hSome
    obtain rfl := Option.some.inj hSome
    simpa [ServiceEntry.toDatum, Datum.legible_table, hPath, hName] using hDecoration.providedIn
  simp [toDatum, Datum.legible_table, hModules, hComponents, hServices]

/-- A summary is legible, for it consists of numbers. -/
theorem Summary.toDatum_legible (s : Summary) : s.toDatum.legible = true := by
  simp [toDatum, Datum.legible_table]

/-- A cycle is legible exactly if its members are. -/
theorem Cycle.toDatum_legible_iff {c : Cycle} : c.toDatum.legible = true ↔ ∀ m ∈ c.members, m.isString = true := by
  simp [toDatum, Datum.legible_table, Datum.legible_listOf, Severity.word_isString, CycleKind.word_isString]

/-- A warning is legible exactly if its message is, and the path it is
about, if there is one. -/
theorem Warning.toDatum_legible_iff {m : Warning} :
    m.toDatum.legible = true ↔ m.message.isString = true ∧ ∀ p ∈ m.path, p.isString = true := by
  simp [toDatum, Datum.legible_table, WarningKind.word_isString]

end Parts

/-- The names of files in a report are strings: its root, its files and
those their imports lead to, and what its warnings are about. -/
structure Report.Spelled (r : Report) : Prop where
  project : r.projectPath.isString = true
  files : ∀ f ∈ r.files, f.Spelled
  warnings : ∀ m ∈ r.warnings, ∀ p ∈ m.path, p.isString = true

instance (r : Report) : Decidable r.Spelled :=
  decidable_of_iff (r.projectPath.isString = true ∧ (∀ f ∈ r.files, f.Spelled) ∧
      ∀ m ∈ r.warnings, ∀ p ∈ m.path, p.isString = true)
    ⟨fun ⟨hProject, hFiles, hWarnings⟩ => ⟨hProject, hFiles, hWarnings⟩,
      fun ⟨hProject, hFiles, hWarnings⟩ => ⟨hProject, hFiles, hWarnings⟩⟩

/-- The names of files that the document of its cycles holds are strings. -/
structure Report.CyclesSpelled (r : Report) : Prop where
  project : r.projectPath.isString = true
  cycles : ∀ c ∈ r.cycles, ∀ m ∈ c.members, m.isString = true
  warnings : ∀ m ∈ r.warnings, ∀ p ∈ m.path, p.isString = true

theorem Cycle.toDatums_legible_iff {cycles : List Cycle} :
    (Datum.list (cycles.map Cycle.toDatum)).legible = true ↔ ∀ c ∈ cycles, ∀ m ∈ c.members, m.isString = true := by
  rw [Datum.legible_listOf, List.all_eq_true]
  exact forall₂_congr fun c _ => Cycle.toDatum_legible_iff

theorem Warning.toDatums_legible_iff {warnings : List Warning} :
    (Datum.list (warnings.map Warning.toDatum)).legible = true ↔
      ∀ m ∈ warnings, m.message.isString = true ∧ ∀ p ∈ m.path, p.isString = true := by
  rw [Datum.legible_listOf, List.all_eq_true]
  exact forall₂_congr fun m _ => Warning.toDatum_legible_iff

namespace Analysis

variable {root : Path} {config : Config} {now : Text} {records : List Record} {cycles : List Cycle}
  {warnings : List Warning} {use : CacheUse}

/-- Where the records and the warnings say only words of the program beside
the names of files, the document of their report is legible exactly if these
names are strings. -/
theorem reportOf_legible_iff (hNow : now.isString = true) (hRecords : ∀ r ∈ records, r.Spelled → r.Legible)
    (hCycles : Cycle.detect (.ofRecords records) = .ok cycles)
    (hMessages : root.text.isString = true → ∀ m ∈ warnings, (∀ p ∈ m.path, p.isString = true) →
      m.message.isString = true)
    {report : Report} (hReport : report = reportOf root config now records (.ofRecords records) cycles warnings use) :
    (report.toDatum.legible = true ↔ report.Spelled) ∧
      (report.cyclesDatum.legible = true ↔ report.CyclesSpelled) ∧ (report.Spelled → report.CyclesSpelled) := by
  have hMembers (hLegible : ∀ r ∈ records, r.Legible) : ∀ c ∈ cycles, ∀ m ∈ c.members, m.isString = true :=
    fun c hc m hm => (DependencyGraph.ofRecords_legible hLegible).2 m (((Cycle.detect_members hCycles).1 c hc).2 m hm)
  have hSaid (hProject : root.text.isString = true) (hPaths : ∀ m ∈ warnings, ∀ p ∈ m.path, p.isString = true) :
      ∀ m ∈ warnings, m.message.isString = true ∧ ∀ p ∈ m.path, p.isString = true :=
    fun m hm => ⟨hMessages hProject m hm (hPaths m hm), hPaths m hm⟩
  subst hReport
  refine ⟨?whole, ?part, fun spelled => ⟨spelled.project, hMembers fun r hr => hRecords r hr (spelled.files r hr),
    spelled.warnings⟩⟩
  case whole =>
    have hFiles : (Datum.list (records.map Record.toDatum)).legible = true ↔ ∀ r ∈ records, r.Legible := by
      rw [Datum.legible_listOf, List.all_eq_true]
      exact forall₂_congr fun r _ => Record.toDatum_legible_iff
    simp only [Report.toDatum, reportOf, Datum.legible_table, List.all_cons, List.all_nil, isString_ofString,
      Datum.legible_text, Datum.legible_int, Bool.true_and, Bool.and_true, Bool.and_eq_true, hFiles, hNow,
      Warning.toDatums_legible_iff, Summary.toDatum_legible]
    constructor
    · rintro ⟨hProject, -, -, hLegible, -, -, hWarnings⟩
      exact ⟨hProject, fun r hr => (hLegible r hr).spelled, fun m hm => (hWarnings m hm).2⟩
    · rintro ⟨hProject, hSpelled, hWarnings⟩
      have hLegible : ∀ r ∈ records, r.Legible := fun r hr => hRecords r hr (hSpelled r hr)
      exact ⟨hProject, Metrics.ofRecords_legible hLegible _, Inventory.ofRecords_legible hLegible, hLegible,
        (DependencyGraph.ofRecords_legible hLegible).1, Cycle.toDatums_legible_iff.mpr (hMembers hLegible),
        hSaid hProject hWarnings⟩
  case part =>
    simp only [Report.cyclesDatum, reportOf, Datum.legible_table, List.all_cons, List.all_nil, isString_ofString,
      Datum.legible_text, Datum.legible_bool, Bool.true_and, Bool.and_true, Bool.and_eq_true,
      Warning.toDatums_legible_iff, Summary.toDatum_legible, Cycle.toDatums_legible_iff]
    constructor
    · rintro ⟨hProject, hCycles, hWarnings⟩
      exact ⟨hProject, hCycles, fun m hm => (hWarnings m hm).2⟩
    · rintro ⟨hProject, hCycles, hWarnings⟩
      exact ⟨hProject, hCycles, hSaid hProject hWarnings⟩

end Analysis

end SourceAtlas
