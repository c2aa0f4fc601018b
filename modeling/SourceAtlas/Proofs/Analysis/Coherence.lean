import SourceAtlas.Proofs.Analysis.Identity

/-!
What the parts of a report have to do with each other. Its records, its nodes and the files of the
scan stand in one order, its figures count these lists, and its warnings come stage by stage.
-/
namespace SourceAtlas

namespace Cycle

/-- The members of a cycle are nodes, and no two cycles share one: cycles
are among the components of the graph. -/
theorem detect_members {g : DependencyGraph} {cycles : List Cycle} (hDetect : detect g = .ok cycles) :
    (∀ c ∈ cycles, c.members.Nodup ∧ ∀ m ∈ c.members, g.HasNode m) ∧
      cycles.Pairwise fun c d => c.members.Disjoint d.members := by
  rcases g.adjacency_cases with ⟨e, -, -, hError⟩ | ⟨-, m, hAdjacency, drawn⟩
  · rw [detect, hError] at hDetect
    cases hDetect
  · obtain rfl := Except.ok.inj ((detect_of_drawn hAdjacency drawn).symm.trans hDetect)
    refine ⟨fun c hc => ?_, List.pairwise_map.mpr (DependencyGraph.cyclic_disjoint m)⟩
    obtain ⟨members, hMembers, rfl⟩ := List.mem_map.mp hc
    have round := drawn.isRound hMembers
    exact ⟨round.nodup, fun u hu => drawn.hasNode_of_round round hu⟩

end Cycle

namespace Analysis

open SourceAtlas.Action

variable {w w' : World} {root path : Path} {given : Option Config} {extensions : List Text}
  {useCache : Bool}

/-- Every record so far is counted once, as remembered or as made. -/
def Progress.Tallied (p : Progress) : Prop := p.hits + p.misses = p.records.length

theorem tallied_empty (cache : Option Cache) : Progress.Tallied { cache := cache } := rfl

/-- Adding a file counts it as found in the cache or as missing there, and
in no other way. -/
theorem addFile_tallied {p p' : Progress} (hTallied : p.Tallied)
    (hRun : (addFile root extensions p path).on w = (.ok p', w')) : p'.Tallied := by
  rw [Progress.Tallied] at hTallied ⊢
  rw [addFile_eq] at hRun
  obtain ⟨content, w₁, -, hAdd⟩ := of_on_bind hRun
  rcases hHit : remembered? p.cache path content with _ | r
  · rw [addRead_missed root extensions hHit] at hAdd
    obtain ⟨r, w₂, -, hResult⟩ := of_on_bind hAdd
    obtain rfl := Except.ok.inj (Prod.mk.inj hResult).1
    simp only [List.length_append, List.length_singleton]
    omega
  · obtain ⟨r', -, rfl⟩ := addRead_hit_ok hHit hAdd
    simp only [List.length_append, List.length_singleton]
    omega

/-- However many files are added, hits and misses together count them, since
each file is one or the other. -/
theorem addFiles_tallied {files : List Path} {p p' : Progress} (hTallied : p.Tallied)
    (hRun : (files.foldlM (addFile root extensions) p).on w = (.ok p', w')) : p'.Tallied := by
  induction files generalizing p w with
  | nil =>
      obtain rfl := Except.ok.inj (Prod.mk.inj hRun).1
      exact hTallied
  | cons path files ih =>
      rw [List.foldlM_cons] at hRun
      obtain ⟨p₁, w₁, hStep, hRest⟩ := of_on_bind hRun
      exact ih (addFile_tallied hTallied hStep) hRest

/-- The hits and misses of an analysis count its files. -/
theorem collect_tallied {plan : Plan} {x : Progress × Option Cache × List Warning}
    (hCollect : (collect useCache plan).on w = (.ok x, w')) : x.1.Tallied := by
  obtain ⟨opened, v, -, hRest⟩ := of_on_bind hCollect
  obtain ⟨progress, v', hFold, hResult⟩ := of_on_bind hRest
  obtain rfl := Except.ok.inj (Prod.mk.inj hResult).1
  exact addFiles_tallied (tallied_empty _) hFold

/-- What is said of a cache when it is opened, if there is one. -/
def openingWarnings (opened : Option Cache) : List Warning := opened.toList.flatMap loadWarnings

/-- What is said of an attempt to save a cache, if there is one. -/
def closingWarnings (opened : Option Cache) (result : Except SystemError Cache) : List Warning :=
  opened.toList.flatMap fun c => saveWarnings c.file result

/-- Opening a cache gives one warning at most, and it is about the cache. -/
theorem openingWarnings_kind (opened : Option Cache) : (openingWarnings opened).length ≤ 1 ∧
    ∀ m ∈ openingWarnings opened, m.kind = .cache := by
  cases opened with
  | none => simp [openingWarnings]
  | some c => simpa [openingWarnings] using loadWarnings_kind c

theorem closingWarnings_kind (opened : Option Cache) (result : Except SystemError Cache) :
    (closingWarnings opened result).length ≤ 1 ∧
      ∀ m ∈ closingWarnings opened result, m.kind = .cache := by
  cases opened with
  | none => simp [closingWarnings]
  | some c => simpa [closingWarnings] using saveWarnings_kind c.file result

/-- What is said of a cache is what its opening gives. -/
theorem openIf_said {plan : Plan} {opened : Option Cache × List Warning}
    (hOpen : (openIf useCache plan).on w = (.ok opened, w')) : opened.2 = openingWarnings opened.1 := by
  cases useCache with
  | false =>
      obtain rfl := Except.ok.inj (Prod.mk.inj hOpen).1
      rfl
  | true =>
      obtain ⟨file, v, c, found, -, -, rfl⟩ := openIf_on_ok hOpen
      simp [openingWarnings]

/-- Only the file of the cache matters for what is said when it is saved,
and not its entries. -/
theorem closingWarnings_congr {c c' : Option Cache} (hFile : c'.map Cache.file = c.map Cache.file)
    (result : Except SystemError Cache) : closingWarnings c' result = closingWarnings c result := by
  cases c <;> cases c' <;> simp_all [closingWarnings]

/-- What is said at the end is what the attempt to save gave. -/
theorem finishCache_said {p : Progress} {files : List Path} {warnings : List Warning}
    (hRun : (finishCache p files).on w = (.ok warnings, w')) :
    ∃ result, warnings = closingWarnings p.cache result := by
  cases hCache : p.cache with
  | none =>
      rw [finishCache, hCache] at hRun
      obtain rfl := Except.ok.inj (Prod.mk.inj hRun).1
      exact ⟨.error ⟨.noEntry, "", none⟩, rfl⟩
  | some c =>
      obtain ⟨v, result, v', -, -, -, rfl⟩ := finishCache_on_ok hCache hRun
      exact ⟨result, by simp [closingWarnings]⟩

/-- Filling in the role of a record changes nothing of what
is said about it. -/
theorem extractionWarnings_classify (records : List Record) :
    extractionWarnings (records.map Classification.classify) = extractionWarnings records := by
  rw [extractionWarnings, List.filterMap_map]
  rfl

/-- A record is that of a file, named as seen from a root. -/
structure Describes (root path : Path) (r : Record) : Prop where
  file : r.path = path.text
  relative : r.relativePath = path.relativeText root

/-- The node of a record. -/
structure Depicted (r : Record) (n : Node) : Prop where
  id : n.id = r.relativePath
  path : n.path = r.path
  role : n.role = r.role

/-- The cache of a project, if a file can be loaded for it, was written by
analyses of its root only. Anything else in its place is not a cache that
would be used. -/
inductive OwnCache (w : World) (root : Path) (given : Option Config) : Prop where
  | intro {place : Place} {past : List Visit} {start : Path} (hSession : Session place past w)
      (hRoot : w.here.resolve w.disk root = .ok start)
      (hPlace : ∀ q, CachePlace w root given q → q = place)
      (hProject : ∀ v ∈ past, ∀ other, v.Stored place other → other = start)

/-- Entries that an analysis knows of were made for its root if the
cache is its own. -/
theorem Collected.own {plan : Plan} {x : Progress × Option Cache × List Warning}
    (hCollected : Collected w plan useCache x) (hOwn : useCache = true → OwnCache w root given)
    (hRoot : w.here.resolve w.disk root = .ok plan.root)
    (hStart : (start root given).on w = (.ok plan, w')) {e : CacheEntry} (hKnown : Known w plan x.2.1 e) :
    ∃ v, Made v plan.root e := by
  rcases hKnown with hMade | ⟨c, hCache, hHeld⟩
  · exact ⟨w, hMade⟩
  have hUse : useCache = true := by
    rw [← hCollected.cached, hCache]
    rfl
  obtain ⟨hSession, hRoot', hPlace, hProject⟩ := hOwn hUse
  obtain rfl := Except.ok.inj (hRoot.symm.trans hRoot')
  obtain ⟨v, hv, other, hStored, hMade⟩ :=
    (stems_opened hSession hStart (hCollected.opened c hCache) hPlace hHeld).2
  obtain rfl := hProject v hv other hStored
  exact ⟨v.world, hMade⟩

/-- With entries of one root only, every record is named as seen from it,
remembered or made. -/
theorem Filed.describes {Q : CacheEntry → Prop} {start : Path} {r : Record} (hFiled : Filed Q start path r)
    (hEntries : ∀ e, Q e → ∃ v, Made v start e) (hNamed : path.Named) :
    Describes start path (Classification.classify r) := by
  have hIdentified : Identified [] [] start path (Classification.classify r) :=
    hFiled.identified (fun e he => .inl (hEntries e he)) hNamed
  exact ⟨hIdentified.file, hIdentified.relativePath_eq (by simp)⟩

/-- The parts of a report agree with each other, with the scan and with the
cache that was opened. -/
structure Coherent (plan : Plan) (opened : Option Cache) (report : Report) : Prop where
  files : List.Forall₂ (Describes plan.root) plan.scan.files report.files
  nodes : List.Forall₂ Depicted report.files report.graph.nodes
  ids : (report.graph.nodes.map Node.id).Nodup
  totalFiles : report.summary.totalFiles = report.files.length
  cacheUse : report.summary.totalFiles = report.summary.cacheHits + report.summary.cacheMisses
  totalLines : report.summary.totalLines = (report.files.map Record.lineCount).sum
  totalFunctions : report.summary.totalFunctions = (report.files.map fun r => r.functions.length).sum
  totalClasses : report.summary.totalClasses = (report.files.map fun r => r.classes.length).sum
  severities : report.summary.errorCycles + report.summary.warningCycles = report.cycles.length
  errors : 0 < report.summary.errorCycles ↔ report.hasErrorCycles = true
  members : ∀ c ∈ report.cycles, c.members.Nodup ∧ ∀ m ∈ c.members, m ∈ report.graph.nodes.map Node.id
  apart : report.cycles.Pairwise fun c d => c.members.Disjoint d.members
  warnings : ∃ result, report.warnings = scanWarnings plan.scan ++ openingWarnings opened ++
    extractionWarnings report.files ++ closingWarnings opened result
  atMostOne : (openingWarnings opened).length ≤ 1 ∧ ∀ result, (closingWarnings opened result).length ≤ 1
  warningCount : report.summary.warningCount = report.warnings.length
  healthy : report.summary.healthy = true ↔ report.cycles = [] ∧ report.warnings = []

/-- Every record has its node. -/
theorem depicted_nodeOf (records : List Record) :
    List.Forall₂ Depicted records (records.map DependencyGraph.nodeOf) :=
  List.forall₂_map_right_iff.mpr (List.forall₂_same.mpr fun _ _ => ⟨rfl, rfl, rfl⟩)

/-- The lines in the metrics are those of all records together. -/
theorem totalLines_eq_sum (records : List Record) :
    Metrics.totalLines records = (records.map Record.lineCount).sum := by
  rw [Metrics.totalLines, List.sum, List.foldr_map]

theorem totalFunctions_eq_sum (records : List Record) :
    Metrics.totalFunctions records = (records.map fun r => r.functions.length).sum := by
  rw [Metrics.totalFunctions, List.sum, List.foldr_map]

theorem totalClasses_eq_sum (records : List Record) :
    Metrics.totalClasses records = (records.map fun r => r.classes.length).sum := by
  rw [Metrics.totalClasses, List.sum, List.foldr_map]

/-- A report over records that are tallied and named is coherent. What is
left to show of it is read off from its parts. -/
theorem coherent_report {plan : Plan} {x : Progress × Option Cache × List Warning} {time : Text}
    {cycles : List Cycle} {saved : List Warning} {result : Except SystemError Cache}
    (hFiles : List.Forall₂ (Describes plan.root) plan.scan.files (x.1.records.map Classification.classify))
    (hIds : (plan.scan.files.map fun path => path.relativeText plan.root).Nodup)
    (hTallied : x.1.Tallied) (hOpened : x.2.2 = openingWarnings x.2.1)
    (hSaved : saved = closingWarnings x.2.1 result)
    (hCycles : Cycle.detect (.ofRecords (x.1.records.map Classification.classify)) = .ok cycles) :
    Coherent plan x.2.1 (plan.report x time cycles saved) := by
  obtain ⟨hMembers, hApart⟩ := Cycle.detect_members hCycles
  have hWarnings : (plan.report x time cycles saved).warnings = scanWarnings plan.scan ++
      openingWarnings x.2.1 ++ extractionWarnings (x.1.records.map Classification.classify) ++
      closingWarnings x.2.1 result := by
    rw [extractionWarnings_classify, ← hOpened, ← hSaved]
    rfl
  refine {
    files := hFiles
    nodes := depicted_nodeOf _
    ids := ?ids
    totalFiles := rfl
    cacheUse := ?cacheUse
    totalLines := totalLines_eq_sum _
    totalFunctions := congrArg Int.ofNat (totalFunctions_eq_sum _)
    totalClasses := congrArg Int.ofNat (totalClasses_eq_sum _)
    severities := add_sub_cancel _ _
    errors := ?errors
    members := hMembers
    apart := hApart
    warnings := ⟨result, hWarnings⟩
    atMostOne := ⟨(openingWarnings_kind _).1, fun result => (closingWarnings_kind _ result).1⟩
    warningCount := rfl
    healthy := ?healthy }
  case ids =>
    rw [plan.report_ids, map_eq_of_forall₂ hFiles fun _ _ hNamed => hNamed.relative]
    exact hIds
  case cacheUse =>
    show ((x.1.records.map Classification.classify).length : Int) = x.1.hits + x.1.misses
    rw [List.length_map, ← hTallied]
    rfl
  case errors =>
    show (0 : Int) < (cycles.filter fun c => c.severity = .error).length ↔
      (cycles.any fun c => c.severity = .error) = true
    rw [Int.natCast_pos, List.length_filter_pos_iff, List.any_eq_true]
  case healthy =>
    show (cycles.isEmpty && (plan.report x time cycles saved).warnings.isEmpty) = true ↔ _
    rw [Bool.and_eq_true, List.isEmpty_iff, List.isEmpty_iff]
    rfl

/-- Whatever can be read and listed, a report that is given is
coherent, if it is made without a cache or if only analyses of the same
root wrote its cache. -/
theorem report_coherent {report : Report} (hProper : w.disk.Proper)
    (hOwn : useCache = true → OwnCache w root given)
    (hRun : (run root useCache given).on w = (.ok report, w')) :
    ∃ plan v opened v', (start root given).on w = (.ok plan, v) ∧
      (openIf useCache plan).on v = (.ok opened, v') ∧
      report.summary.cacheEnabled = useCache ∧ opened.1.isSome = useCache ∧
      Coherent plan opened.1 report := by
  rw [run_eq] at hRun
  obtain ⟨plan, w₁, hStart, hRest⟩ := of_on_bind hRun
  obtain ⟨x, w₂, hCollect, hFinish⟩ := of_on_bind hRest
  have hLooked := (looks_start root given).run hStart
  have hPlanned := gives_start hProper w.here root given w plan w₁ rfl rfl hStart
  have hCollected := gives_collect hPlanned useCache w₁ x w₂ hLooked.disk hLooked.here hCollect
  obtain ⟨base, -, -, hSound⟩ := hPlanned.scan
  obtain ⟨v, hOpen⟩ := collect_opened hCollect
  obtain ⟨rs, hRecords, hFiled⟩ := hCollected.added.records
  have hFiles : List.Forall₂ (Describes plan.root) plan.scan.files
      (x.1.records.map Classification.classify) := by
    rw [show x.1.records = rs by simpa using hRecords, List.forall₂_map_right_iff]
    refine ((List.forall₂_and_left _ _).mpr ⟨hSound.found, hFiled⟩).imp fun path r hBoth => ?_
    exact hBoth.2.describes (fun e he => hCollected.own hOwn hPlanned.root hStart he) hBoth.1.named
  obtain ⟨time, cycles, saved, _, _, hCycles, -, hSave, -, rfl⟩ := finish_steps hFinish
  obtain ⟨result, rfl⟩ := finishCache_said hSave
  have hFile : x.1.cache.map Cache.file = x.2.1.map Cache.file := by
    have hSame := congrArg (Option.map Prod.fst) hCollected.added.cache
    rwa [Option.map_map, Option.map_map] at hSame
  refine ⟨plan, w₁, x.2, v, hStart, hOpen, hCollected.cached, hCollected.cached, ?_⟩
  exact coherent_report hFiles (relativeTexts_nodup hSound plan.root) (collect_tallied hCollect)
    (openIf_said hOpen) (closingWarnings_congr hFile result) hCycles

/-- The report on the project with its cache, of which a file could not be
read at first. -/
theorem Sample.report_adds_up : ∃ (report : Report) (w' : World) (plan : Plan) (opened : Option Cache),
    after.disk.Proper ∧ OwnCache after project (some {}) ∧
    (run project true (some {})).on after = (.ok report, w') ∧ report.files.length = 3 ∧ report.summary.cacheHits = 1 ∧
    report.summary.cacheEnabled = true ∧ Coherent plan opened report := by
  obtain ⟨hRoot, -, hReports, -⟩ := after_reports
  obtain ⟨report, w', hRun, hLength, hHits⟩ := exists_of_reports hReports
  have hOwn : OwnCache after project (some {}) := ⟨session, hRoot, place_eq, stored_eq⟩
  obtain ⟨plan, v, opened, v', -, -, hEnabled, -, hCoherent⟩ :=
    report_coherent session.kept.proper (fun _ => hOwn) hRun
  exact ⟨report, w', plan, opened.1, session.kept.proper, hOwn, hRun, hLength, hHits, hEnabled, hCoherent⟩

end Analysis

end SourceAtlas
