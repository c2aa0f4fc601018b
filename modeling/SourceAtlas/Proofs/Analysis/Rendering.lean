import SourceAtlas.Proofs.Analysis.Ending
import SourceAtlas.Proofs.Averages
import SourceAtlas.Proofs.Legibility

/-!
Which forms a report of an analysis can be shown in. Nothing that a form looks up is missing, and as
long as the sources hold less than 2⁶³ bytes every figure is one that a document holds. A document
cannot hold the name of a file that is no string.
-/
namespace SourceAtlas

/-- A report whose figures stay within a bound. -/
structure Report.Within (n : Nat) (r : Report) : Prop where
  version : r.version = 1
  summary : r.summary.Within n
  metrics : r.metrics.Within n
  files : ∀ f ∈ r.files, ∃ m, m + 1 ≤ n ∧ f.Within m

section Documents

variable {n : Nat} {r : Report}

/-- An inventory holds no figures but texts, and so nothing
that is out of range. -/
theorem Inventory.toDatum_ranged (i : Inventory) : i.toDatum.ranged = true := by
  have hModules : (Datum.list (i.modules.map ModuleEntry.toDatum)).ranged = true :=
    Datum.ranged_listOf fun m _ => by simp [ModuleEntry.toDatum, Datum.ranged_table]
  have hComponents : (Datum.list (i.components.map ComponentEntry.toDatum)).ranged = true :=
    Datum.ranged_listOf fun c _ => by simp [ComponentEntry.toDatum, Datum.ranged_table]
  have hServices : (Datum.list (i.services.map ServiceEntry.toDatum)).ranged = true :=
    Datum.ranged_listOf fun s _ => by simp [ServiceEntry.toDatum, Datum.ranged_table]
  simp [toDatum, Datum.ranged_table, hModules, hComponents, hServices]

/-- A graph holds names, kinds and nothing that could be out of range. -/
theorem DependencyGraph.toDatum_ranged (g : DependencyGraph) : g.toDatum.ranged = true := by
  have hNodes : (Datum.list (g.nodes.map Node.toDatum)).ranged = true :=
    Datum.ranged_listOf fun n _ => by simp [Node.toDatum, Datum.ranged_table]
  have hEdges : (Datum.list (g.edges.map Edge.toDatum)).ranged = true :=
    Datum.ranged_listOf fun e _ => by simp [Edge.toDatum, Datum.ranged_table]
  simp [toDatum, Datum.ranged_table, hNodes, hEdges]

theorem Cycle.toDatums_ranged (cycles : List Cycle) : (Datum.list (cycles.map Cycle.toDatum)).ranged = true :=
  Datum.ranged_listOf fun c _ => by
    have hMembers : (Datum.list (c.members.map .text)).ranged = true := Datum.ranged_texts c.members
    simp [Cycle.toDatum, Datum.ranged_table, hMembers]

theorem Warning.toDatums_ranged (warnings : List Warning) :
    (Datum.list (warnings.map Warning.toDatum)).ranged = true :=
  Datum.ranged_listOf fun m _ => by simp [Warning.toDatum, Datum.ranged_table]

/-- Documents hold the figures of a report that take no more than 64 bits. -/
theorem Report.Within.ranged (within : r.Within n) (hSmall : n < 2 ^ 64) :
    r.toDatum.ranged = true ∧ r.cyclesDatum.ranged = true := by
  have hSummary := within.summary.toDatum_ranged hSmall
  have hFiles : (Datum.list (r.files.map Record.toDatum)).ranged = true := by
    refine Datum.ranged_listOf fun f hf => ?_
    obtain ⟨m, hLess, hFile⟩ := within.files f hf
    exact hFile.toDatum_ranged hSmall hLess
  constructor
  · simp [Report.toDatum, Datum.ranged_table, within.version, hSummary, within.metrics.toDatum_ranged hSmall, hFiles,
      Inventory.toDatum_ranged, DependencyGraph.toDatum_ranged, Cycle.toDatums_ranged, Warning.toDatums_ranged, Json.inRange]
  · simp [Report.cyclesDatum, Datum.ranged_table, hSummary, Cycle.toDatums_ranged, Warning.toDatums_ranged]

end Documents

namespace Analysis

open SourceAtlas.Action

variable {w w' : World} {root path : Path} {given : Option Config} {extensions : List Text}
  {useCache : Bool}

def bytesAt (w : World) (path : Path) : Nat := ((w.content? path).getD []).length

/-- A record made of what the world holds now: of the bytes of the file, or,
if these were refused, of the refusal. -/
inductive MadeNow (w : World) (root : Path) (extensions : List Text) (path : Path) (r : Record) : Prop where
  | read {bytes : List UInt8} (hContent : w.content? path = some bytes)
      (hRecord : Extraction.record w path root extensions bytes = .ok r)
  | refused {e : Errno} (hFailed : r = Extraction.failed path root 0 (.unreadable e))

/-- A record that is made now counts no more than the bytes
of its file allow. -/
theorem MadeNow.within {r : Record} (made : MadeNow w root extensions path r) : r.Within (bytesAt w path) := by
  cases made with
  | read hContent hRecord =>
      rw [bytesAt, hContent, Option.getD_some]
      exact Extraction.record_within hRecord
  | refused hFailed => exact hFailed ▸ Extraction.failed_within (Nat.zero_le _) _

/-- A record that is made now is legible if the names of files in it are
strings: all else comes out of a decoded source. -/
theorem MadeNow.legible {r : Record} (made : MadeNow w root extensions path r) (hSpelled : r.Spelled) :
    r.Legible := by
  cases made with
  | read _ hRecord => exact Extraction.record_legible hRecord hSpelled
  | refused hFailed =>
      subst hFailed
      exact Extraction.failed_legible hSpelled.path root _ _

/-- A file whose name is a string as seen from the root has
one, if the root has. -/
theorem text_isString_of_relative {root path : Path} (hRoot : root.text.isString = true)
    (hRelative : (path.relativeText root).isString = true) : path.text.isString = true := by
  rw [Path.relativeText] at hRelative
  cases hBelow : path.relativeTo? root with
  | none => simpa [hBelow] using hRelative
  | some q =>
      rw [hBelow, Option.getD_some] at hRelative
      rw [← Path.join_relative hBelow]
      exact Path.text_isString_iff.mpr
        ((Path.text_isString_iff.mp hRoot).join (Path.text_isString_iff.mp hRelative))

/-- Why nothing was extracted is told by the path of the file. -/
theorem MadeNow.failure_isString {r : Record} (made : MadeNow w root extensions path r)
    (hRoot : root.text.isString = true) (hRelative : r.relativePath.isString = true) :
    ∀ m ∈ r.failure, m.isString = true := by
  have hFailed (lineCount : Nat) (fault : ExtractionFault)
      (hName : (path.relativeText root).isString = true) :
      ∀ m ∈ (Extraction.failed path root lineCount fault).failure, m.isString = true :=
    (Extraction.failed_legible (text_isString_of_relative hRoot hName) root lineCount fault).failure
  cases made with
  | refused hRefused =>
      subst hRefused
      exact hFailed _ _ hRelative
  | read _ hRecord =>
      rw [Extraction.record] at hRecord
      split at hRecord
      · obtain rfl := Except.ok.inj hRecord
        exact hFailed _ _ hRelative
      · split at hRecord
        · cases hRecord
        · obtain rfl := Except.ok.inj hRecord
          simp

/-- What is made of the content that a file has now, or of a refusal to read
it, is made now. -/
theorem gives_fromContent_made (w : World) (path root : Path) (extensions : List Text)
    {content : Except SystemError (List UInt8)}
    (hContent : ∀ bytes, content = .ok bytes → w.content? path = some bytes) :
    Gives w.disk w.here (Extraction.fromContent path root extensions content)
      (MadeNow w root extensions path) := by
  cases content with
  | error e =>
      intro v r v' _ _ hRun
      obtain ⟨v'', -, hGiven⟩ := Extraction.fromContent_refused path root extensions e v
      rw [hGiven] at hRun
      exact .refused (Except.ok.inj (Prod.mk.inj hRun).1).symm
  | ok bytes =>
      exact (Extraction.gives_fromContent w path root extensions (.ok bytes)).mono fun r hr =>
        .read (hContent bytes rfl) (hr.2.2 bytes rfl)

/-- What is extracted is made now, with the content at hand as
it is in the file. -/
theorem gives_extract_made (w : World) (path root : Path) (extensions : List Text)
    {content : Option (List UInt8)} (hContent : ∀ bytes, content = some bytes → w.content? path = some bytes) :
    Gives w.disk w.here (Extraction.extract path root extensions content) (MadeNow w root extensions path) := by
  cases content with
  | some bytes =>
      rw [Extraction.extract_some]
      refine gives_fromContent_made w path root extensions fun bytes' hSame => ?_
      obtain rfl := Except.ok.inj hSame
      exact hContent bytes rfl
  | none =>
      rw [Extraction.extract_none]
      exact (gives_readBytes w path).attempt.bind (looks_readBytes path).attempt fun result hRead =>
        gives_fromContent_made w path root extensions hRead

/-- Adding a file adds a record that is made now, or is the same as one that
is. That holds as long as entries are trusted, and they still are
afterwards. -/
theorem gives_addFile_made (hNamed : path.Named) {p : Progress} (hEntries : Entries (Trusted w root) p.cache) :
    Gives w.disk w.here (addFile root extensions p path) fun p' => Entries (Trusted w root) p'.cache ∧
      ∃ r, p'.records = p.records ++ [r] ∧ MadeNow w root extensions path r := by
  rw [addFile_eq]
  refine (gives_readFingerprinted w path).bind (looks_readFingerprinted path) fun content hContent => ?_
  have hBytes := content_of_fingerprinted hContent
  rw [addRead]
  split
  · next r hHit =>
    obtain ⟨e, found, rfl, rfl, hKey, hDigest, hTrusted⟩ := remembered?_eq_some hEntries hHit
    obtain ⟨hFound, hSame⟩ := hContent found rfl
    refine (gives_true _).bind (looks_log _ _ _) fun _ _ => ?_
    refine gives_get.bind looks_get fun v hv => ?_
    -- with its imports looked up again the remembered record is the one made now
    rw [Resolution.refresh_congr hv.1 hv.2, hTrusted path found.1 hNamed hKey hFound (hDigest.trans hSame)]
    split
    · exact gives_throw _
    · next r hRecord => exact gives_pure ⟨hEntries, r, rfl, .read hFound hRecord⟩
  · have hExtract := (Extraction.gives_extract w path root extensions (content.map Prod.fst))
    have hMade := gives_extract_made w path root extensions hBytes
    have hBoth : Gives w.disk w.here (Extraction.extract path root extensions (content.map Prod.fst)) fun r =>
        (∀ bytes, content.map Prod.fst = some bytes → Extraction.record w path root extensions bytes = .ok r) ∧
          MadeNow w root extensions path r :=
      fun v r v' hDisk hHere hRun =>
        ⟨(hExtract v r v' hDisk hHere hRun).2.2, hMade v r v' hDisk hHere hRun⟩
    refine hBoth.bind (Extraction.looks_extract _ _ _ _) fun r hr => gives_pure ⟨?_, r, rfl, hr.2⟩
    rcases hCache : p.cache with _ | c
    · exact entries_none _
    · rw [hCache] at hEntries
      rcases content with _ | ⟨bytes, f⟩
      · exact hEntries
      · obtain ⟨hFound, hDigest⟩ := hContent _ rfl
        have hMade : Made w root ⟨path.text, f.digest, f.mtime, r⟩ :=
          ⟨hNamed, rfl, hFound, hDigest, hr.1 bytes rfl⟩
        exact hEntries.put hMade.trusted_now

/-- The records of files are those that are made of them now, whether they
were remembered or not. -/
theorem gives_addFiles_made {files : List Path} (hFiles : ∀ path ∈ files, path.Named) {p : Progress}
    (hEntries : Entries (Trusted w root) p.cache) :
    Gives w.disk w.here (files.foldlM (addFile root extensions) p) fun p' =>
      ∃ rs, p'.records = p.records ++ rs ∧ List.Forall₂ (MadeNow w root extensions) files rs := by
  induction files generalizing p with
  | nil => exact gives_pure ⟨[], by simp, .nil⟩
  | cons path files ih =>
      obtain ⟨hNamed, hRest⟩ := List.forall_mem_cons.mp hFiles
      rw [List.foldlM_cons]
      refine (gives_addFile_made hNamed hEntries).bind (looks_addFile _ _ _ _) fun p' hStep => ?_
      obtain ⟨hEntries', r, hRecords, hMade⟩ := hStep
      refine (ih hRest hEntries').mono fun p'' hAll => ?_
      obtain ⟨rs, hRecords', hEach⟩ := hAll
      exact ⟨r :: rs, by rw [hRecords', hRecords, List.append_assoc]; rfl, .cons hMade hEach⟩

def volume (w : World) (s : Scan) : Nat := (s.files.map (bytesAt w)).sum

/-- How many files a scan found, with the directories that
it could not list. -/
def extent (s : Scan) : Nat := s.files.length + s.faults.length

section Sums

variable {files : List Path} {rs : List Record}
  (hWithin : List.Forall₂ (fun path r => Record.Within (bytesAt w path) r) files rs)

include hWithin

/-- All lines together are no more than the bytes of the sources, with one
more for each file. -/
theorem sum_lineCount_bounded :
    Bounded (files.map fun path => bytesAt w path + 1).sum (rs.map Record.lineCount).sum := by
  induction hWithin with
  | nil => exact ⟨le_rfl, le_rfl⟩
  | cons hFirst _ ih =>
      obtain ⟨hLow, hHigh⟩ := hFirst.lineCount
      obtain ⟨hLow', hHigh'⟩ := ih
      simp only [List.map_cons, List.sum_cons]
      constructor <;> omega

/-- All functions and classes together are no more than the bytes of the
sources allow. -/
theorem sum_members_le : (rs.map fun r => r.functions.length).sum + (rs.map fun r => r.classes.length).sum ≤
    (files.map fun path => bytesAt w path + 1).sum := by
  induction hWithin with
  | nil => exact Nat.le_refl 0
  | cons hFirst _ ih =>
      have hMembers := hFirst.members
      simp only [List.map_cons, List.sum_cons]
      omega

/-- What holds for one of the files holds with the figures of all of them. -/
theorem within_sum : ∀ r ∈ rs, ∃ m, m + 1 ≤ (files.map fun path => bytesAt w path + 1).sum ∧ r.Within m := by
  intro r hr
  obtain ⟨path, hPath, hRecord⟩ := exists_of_forall₂_right hWithin hr
  exact ⟨bytesAt w path, List.le_sum_of_mem (List.mem_map_of_mem hPath), hRecord⟩

omit hWithin in
theorem sum_bytes_succ (w : World) (files : List Path) :
    (files.map fun path => bytesAt w path + 1).sum = (files.map (bytesAt w)).sum + files.length := by
  induction files with
  | nil => rfl
  | cons path files ih =>
      simp only [List.map_cons, List.sum_cons, List.length_cons, ih]
      omega

end Sums

/-- The figures of a report stay within the bytes and the number of the
sources. Two warnings about the cache may come to those about files and
directories. -/
theorem report_within {plan : Plan} {x : Progress × Option Cache × List Warning} {time : Text}
    {cycles : List Cycle} {saved : List Warning} {n : Nat}
    (hWithin : List.Forall₂ (fun path r => Record.Within (bytesAt w path) r) plan.scan.files x.1.records)
    (hTallied : x.1.Tallied) (hOpened : x.2.2.length ≤ 1) (hSaved : saved.length ≤ 1)
    (hCycles : cycles.length ≤ x.1.records.length)
    (hVolume : volume w plan.scan + extent plan.scan ≤ n) (hExtent : extent plan.scan + 2 ≤ n) :
    (plan.report x time cycles saved).Within n := by
  have hClassified : List.Forall₂ (fun path r => Record.Within (bytesAt w path) r) plan.scan.files
      (x.1.records.map Classification.classify) :=
    List.forall₂_map_right_iff.mpr (hWithin.imp fun _ _ hRecord => hRecord.classify)
  have hSum : (plan.scan.files.map fun path => bytesAt w path + 1).sum ≤ n := by
    rw [sum_bytes_succ w plan.scan.files]
    rw [volume, extent] at hVolume
    omega
  have hLength := hWithin.length_eq
  have hMembers := sum_members_le hClassified
  have hEach : ∀ r ∈ x.1.records.map Classification.classify, ∃ m, m + 1 ≤ n ∧ r.Within m := by
    intro r hr
    obtain ⟨m, hLess, hRecord⟩ := within_sum hClassified r hr
    exact ⟨m, hLess.trans hSum, hRecord⟩
  rw [Progress.Tallied] at hTallied
  rw [extent] at hExtent
  have hErrors : (cycles.filter fun c => c.severity = .error).length ≤ cycles.length := List.length_filter_le ..
  refine ⟨rfl, ⟨?files, ?lines, ?functions, ?classes, ?hits, ?misses, ?errors, ?warnings, ?count⟩, ?metrics, hEach⟩
  case files => exact bounded_natCast (by rw [List.length_map]; omega)
  case lines =>
    show Bounded _ (Metrics.totalLines _)
    rw [totalLines_eq_sum]
    exact (sum_lineCount_bounded hClassified).mono hSum
  case functions =>
    refine bounded_natCast ?_
    rw [totalFunctions_eq_sum]
    omega
  case classes =>
    refine bounded_natCast ?_
    rw [totalClasses_eq_sum]
    omega
  case hits => exact bounded_natCast (by omega)
  case misses => exact bounded_natCast (by omega)
  case errors => exact bounded_natCast (by omega)
  case warnings =>
    show Bounded _ ((cycles.length : Int) - ((cycles.filter fun c => c.severity = .error).length : Nat))
    rw [← Int.ofNat_sub hErrors]
    exact bounded_natCast (by omega)
  case count =>
    refine bounded_natCast ?_
    have hFailed : (extractionWarnings x.1.records).length ≤ x.1.records.length := List.length_filterMap_le ..
    have hScanned : (scanWarnings plan.scan).length = plan.scan.faults.length := List.length_map _
    simp only [List.length_append, hScanned]
    omega
  case metrics =>
    refine Metrics.ofRecords_within (by rw [List.length_map]; omega) (fun r hr => ?_) plan.config.top
    obtain ⟨m, hLess, hRecord⟩ := hEach r hr
    exact hRecord.lineCount.mono hLess

/-- The averages in the report of an analysis are finite as long as its
totals are figures of 64 bits. -/
theorem report_averages {plan : Plan} {x : Progress × Option Cache × List Warning} {time : Text}
    {cycles : List Cycle} {saved : List Warning} (within : (plan.report x time cycles saved).Within (2 ^ 64 - 1)) :
    (plan.report x time cycles saved).metrics.averageFunctions.IsFinite ∧
      (plan.report x time cycles saved).metrics.averageLines.IsFinite := by
  have hLines : Bounded _ (Metrics.totalLines (x.1.records.map Classification.classify)) := within.summary.totalLines
  have hFunctions : Bounded _ (Metrics.totalFunctions (x.1.records.map Classification.classify) : Int) :=
    within.summary.totalFunctions
  rw [Bounded] at hLines hFunctions
  exact Metrics.averages_finite (k := 64) (by omega) (by omega) (by decide) _ _

/-- What a report can be shown in. Nothing is missing in it that a form
looks up, its averages are numbers, and documents hold its figures; they
hold the report itself exactly if the names of files in it are strings. -/
structure Rendered (report : Report) : Prop where
  showable : report.Showable
  averages : report.metrics.averageFunctions.IsFinite ∧ report.metrics.averageLines.IsFinite
  ranged : report.toDatum.ranged = true
  json : (∃ text, report.json = .ok text) ↔ report.Spelled
  cyclesJson : (∃ text, report.cyclesJson = .ok text) ↔ report.CyclesSpelled
  cyclesSpelled : report.Spelled → report.CyclesSpelled
  markdown : ∃ text, Markdown.ofReport report = .ok text
  cyclesMarkdown : ∃ text, Markdown.cyclesOfReport report = .ok text
  mermaid : ∃ text, Diagram.mermaid report.graph = .ok text
  dot : ∃ text, Diagram.dot report.graph = .ok text

/-- The cache of a project, if a file can be loaded for it, was written by
analyses of its root only, and digests tell apart the contents that files
had then from those they have now. -/
inductive FaithfulCache (w : World) (root : Path) (given : Option Config) : Prop where
  | intro {place : Place} {past : List Visit} {start : Path} (hSession : Session place past w)
      (hRoot : w.here.resolve w.disk root = .ok start)
      (hPlace : ∀ q, CachePlace w root given q → q = place)
      (hProject : ∀ v ∈ past, ∀ other, v.Stored place other → other = start)
      (hDigests : ∀ v ∈ past, Distinguished v.world w)

/-- The entries of a faithful cache are trusted, so that a record taken from
it is the one that would be made now. -/
theorem FaithfulCache.trusted {plan : Plan} {c : Cache} {v : World} (hFaithful : FaithfulCache w root given)
    (hRoot : w.here.resolve w.disk root = .ok plan.root) (hStart : (start root given).on w = (.ok plan, v))
    (hOpened : Opened w plan c) : Entries (Trusted w plan.root) (some c) := by
  obtain ⟨hSession, hRoot', hPlace, hProject, hDigests⟩ := hFaithful
  obtain rfl := Except.ok.inj (hRoot'.symm.trans hRoot)
  exact trusted_opened hSession hStart hOpened hPlace hProject hDigests

/-- What is collected of the files of a plan are the records that are made
of them now. -/
theorem collect_made {plan : Plan} {x : Progress × Option Cache × List Warning} {v v' : World}
    (hPlanned : Planned w.disk w.here root plan) (hLooked : w.Looked v)
    (hTrusted : ∀ c, useCache = true → Opened w plan c → Entries (Trusted w plan.root) (some c))
    (hCollect : (collect useCache plan).on v = (.ok x, v')) :
    List.Forall₂ (MadeNow w plan.root plan.config.extensions) plan.scan.files x.1.records := by
  obtain ⟨opened, u, hOpen, hRest⟩ := of_on_bind hCollect
  obtain ⟨progress, u', hFold, hResult⟩ := of_on_bind hRest
  obtain rfl := Except.ok.inj (Prod.mk.inj hResult).1
  obtain ⟨_, -, -, hSound⟩ := hPlanned.scan
  obtain ⟨hUse, hOpened, -⟩ := gives_openIf hPlanned useCache v opened u hLooked.disk hLooked.here hOpen
  have hEntries : Entries (Trusted w plan.root) opened.1 := by
    cases hCache : opened.1 with
    | none => exact entries_none _
    | some c => exact hTrusted c (by rw [← hUse, hCache]; rfl) (hOpened c hCache)
  have hLooked' := hLooked.trans ((looks_openIf useCache plan).run hOpen)
  obtain ⟨rs, hRecords, hEach⟩ := gives_addFiles_made (fun path hPath => (hSound.found path hPath).named)
    (p := { cache := opened.1 }) hEntries u progress u' hLooked'.disk hLooked'.here hFold
  rwa [show progress.records = rs by simpa using hRecords]

/-- The time that a report names is a string. -/
theorem finish_analyzedAt {plan : Plan} {x : Progress × Option Cache × List Warning} {report : Report}
    (hRun : (finish plan x).on w = (.ok report, w')) : report.analyzedAt.isString = true := by
  obtain ⟨cycles, w₁, -, hRest⟩ := of_on_bind hRun
  obtain ⟨saved, w₂, -, hRest⟩ := of_on_bind hRest
  obtain ⟨_, w₃, -, hRest⟩ := of_on_bind hRest
  obtain ⟨time, w₄, hNow, hRest⟩ := of_on_bind hRest
  obtain rfl := Except.ok.inj (Prod.mk.inj hRest).1
  obtain rfl := Except.ok.inj (Prod.mk.inj hNow).1
  exact Text.isString_ofString _

/-- Why the bytes of a cache file are of no use is told in words of the
program and by its path. -/
theorem corrupt_isString {c : Cache} {message : Text} (hFile : c.file.text.isString = true)
    (hRead : c.readFile.on w = (.ok (.corrupt message), w')) : message.isString = true := by
  obtain ⟨content, v, -, hRest⟩ := of_on_bind hRead
  cases content with
  | error e =>
      cases hRest
      simp [hFile]
  | ok bytes =>
      have hBytes := Except.ok.inj (Prod.mk.inj hRest).1
      rw [Cache.readBytes] at hBytes
      split at hBytes
      · cases hBytes
        simp [hFile]
      · split at hBytes <;> cases hBytes
        simp [hFile]

/-- A problem with the file of a cache is told in words of the program and
by the path of the file. -/
theorem problem_isString {c c' : Cache} {found : Bool} (hLoad : c.load.on w = (.ok (c', found), w')) :
    c'.file = c.file ∧ (c.file.text.isString = true → ∀ m ∈ c'.problem, m.isString = true) := by
  obtain ⟨present, w₁, -, hRest⟩ := of_on_bind hLoad
  split at hRest
  · obtain ⟨_, w₂, -, hResult⟩ := of_on_bind hRest
    obtain ⟨rfl, rfl⟩ := Prod.mk.inj (Except.ok.inj (Prod.mk.inj hResult).1)
    exact ⟨rfl, fun _ => by simp [Cache.forgotten]⟩
  · obtain ⟨loaded, w₂, hRead, hLoaded⟩ := of_on_bind hRest
    split at hLoaded
    · obtain ⟨_, w₃, -, hResult⟩ := of_on_bind hLoaded
      obtain ⟨rfl, rfl⟩ := Prod.mk.inj (Except.ok.inj (Prod.mk.inj hResult).1)
      exact ⟨rfl, fun _ => by simp [Cache.forgotten]⟩
    · next message =>
      obtain ⟨_, w₃, -, hResult⟩ := of_on_bind hLoaded
      obtain ⟨rfl, rfl⟩ := Prod.mk.inj (Except.ok.inj (Prod.mk.inj hResult).1)
      refine ⟨rfl, fun hFile m hm => ?_⟩
      obtain rfl := Option.some.inj hm
      exact corrupt_isString hFile hRead
    · obtain ⟨_, w₃, -, hResult⟩ := of_on_bind hLoaded
      obtain ⟨rfl, rfl⟩ := Prod.mk.inj (Except.ok.inj (Prod.mk.inj hResult).1)
      exact ⟨rfl, fun _ => by simp [Cache.ofDocument]⟩

/-- What is said of a cache is told in words of the program and by the path
of its file. -/
theorem cacheWarnings_isString {plan : Plan} {opened : Option Cache × List Warning}
    (hOpen : (openIf useCache plan).on w = (.ok opened, w')) :
    ∀ m ∈ opened.2, (∀ p ∈ m.path, p.isString = true) → m.message.isString = true := by
  cases useCache with
  | false =>
      obtain rfl := Except.ok.inj (Prod.mk.inj hOpen).1
      simp
  | true =>
      obtain ⟨file, v, c, found, -, hLoad, rfl⟩ := openIf_on_ok hOpen
      obtain ⟨hFile, hProblem⟩ := problem_isString hLoad
      intro m hm hPath
      obtain ⟨message, hMessage, rfl⟩ := List.mem_map.mp hm
      exact hProblem (hFile ▸ hPath _ rfl) message (Option.mem_toList.mp hMessage)

/-- Warnings are told in words of the program and by the path
that they are about. -/
theorem messages_isString {plan : Plan} {x : Progress × Option Cache × List Warning} {saved : List Warning}
    {v v' : World} (hUnlisted : ∀ fault ∈ plan.scan.faults, Scan.Unlisted fault)
    (hMade : List.Forall₂ (MadeNow w plan.root plan.config.extensions) plan.scan.files x.1.records)
    (hOpened : ∀ m ∈ x.2.2, (∀ p ∈ m.path, p.isString = true) → m.message.isString = true)
    (hSave : (finishCache x.1 plan.scan.files).on v = (.ok saved, v')) (hRoot : plan.root.text.isString = true) :
    ∀ m ∈ scanWarnings plan.scan ++ x.2.2 ++ extractionWarnings x.1.records ++ saved,
      (∀ p ∈ m.path, p.isString = true) → m.message.isString = true := by
  refine List.forall_mem_append.mpr ⟨List.forall_mem_append.mpr ⟨List.forall_mem_append.mpr ⟨?_, hOpened⟩, ?_⟩, ?_⟩
  · intro m hm hPath
    obtain ⟨fault, hFault, rfl⟩ := List.mem_map.mp hm
    obtain ⟨p, e, rfl⟩ := hUnlisted fault hFault
    have hName : p.text.isString = true := hPath _ rfl
    simp [hName]
  · intro m hm hPath
    obtain ⟨r, hr, hSome⟩ := List.mem_filterMap.mp hm
    obtain ⟨message, hMessage, rfl⟩ := Option.map_eq_some_iff.mp hSome
    obtain ⟨path, -, made⟩ := exists_of_forall₂_right hMade hr
    exact made.failure_isString hRoot (hPath _ rfl) message hMessage
  · intro m hm _
    obtain ⟨result, rfl⟩ := finishCache_said hSave
    obtain ⟨c, -, hm⟩ := List.mem_flatMap.mp hm
    cases result with
    | ok c' => cases hm
    | error e =>
        obtain rfl := List.mem_singleton.mp hm
        simp

/-- Every report of an analysis can be shown as a text and drawn, and as a
document if the names of files in it are strings. It is made without a cache
or with one that only analyses of the same root wrote, and of sources that
hold less than 2⁶³ bytes; no more files can be listed than that either. -/
theorem report_rendered {report : Report} {plan : Plan} {v : World} (hProper : w.disk.Proper)
    (hFaithful : useCache = true → FaithfulCache w root given)
    (hStart : (start root given).on w = (.ok plan, v)) (hVolume : volume w plan.scan < 2 ^ 63)
    (hExtent : extent plan.scan < 2 ^ 63)
    (hRun : (run root useCache given).on w = (.ok report, w')) : Rendered report := by
  obtain ⟨hShowable, -⟩ := run_showable hRun
  rw [run_eq, on_bind_ok hStart] at hRun
  obtain ⟨x, w₂, hCollect, hFinish⟩ := of_on_bind hRun
  have hPlanned := gives_start hProper w.here root given w plan v rfl rfl hStart
  have hMade := collect_made hPlanned ((looks_start root given).run hStart)
    (fun c hUse hOpened => (hFaithful hUse).trusted hPlanned.root hStart hOpened) hCollect
  obtain ⟨u, hOpen⟩ := collect_opened hCollect
  have hTime := finish_analyzedAt hFinish
  obtain ⟨time, cycles, saved, _, _, hCycles, -, hSave, -, rfl⟩ := finish_steps hFinish
  have hReport : (plan.report x time cycles saved).Within (2 ^ 64 - 1) := by
    have hOpened : x.2.2.length ≤ 1 := openIf_said hOpen ▸ (openingWarnings_kind _).1
    have hLength : cycles.length ≤ x.1.records.length := by
      simpa [DependencyGraph.ofRecords] using Cycle.length_detect_le hCycles hShowable.members
    exact report_within (hMade.imp fun _ _ made => made.within) (collect_tallied hCollect) hOpened
      (finishCache_warnings hSave).1 hLength (by omega) (by omega)
  have hRanged := hReport.ranged (by decide)
  have hRecords : ∀ r ∈ x.1.records.map Classification.classify, r.Spelled → r.Legible := by
    refine List.forall_mem_map.mpr fun r hr hSpelled => ?_
    obtain ⟨path, -, made⟩ := exists_of_forall₂_right hMade hr
    exact (made.legible ⟨hSpelled.path, hSpelled.resolved⟩).classify
  obtain ⟨_, -, -, hSound⟩ := hPlanned.scan
  obtain ⟨hWhole, hPart, hCyclesSpelled⟩ := reportOf_legible_iff hTime hRecords hCycles
    (messages_isString hSound.said hMade (cacheWarnings_isString hOpen) hSave) rfl
  have hFits (d : Datum) (hd : d.ranged = true) : d.fits = true ↔ d.legible = true := by
    rw [Datum.fits, hd, Bool.true_and]
  exact ⟨hShowable, report_averages hReport, hRanged.1, Json.document_eq_ok_iff.trans ((hFits _ hRanged.1).trans hWhole),
      Json.document_eq_ok_iff.trans ((hFits _ hRanged.2).trans hPart), hCyclesSpelled, hShowable.exists_markdown,
      hShowable.exists_cyclesMarkdown, Diagram.exists_mermaid hShowable.ends, Diagram.exists_dot hShowable.ends⟩

namespace Sample

def slight (plan : Plan) (_ : World) : Bool := volume after plan.scan < 2 ^ 63 && extent plan.scan < 2 ^ 63

/-- The sources of the sample are few and short. -/
theorem after_slight : passes slight ((start project (some {})).on after) = true := by decide +kernel

/-- The cache of the sample's session was written by an analysis of the same
root, and no file changed under its digest. -/
theorem after_faithful : FaithfulCache after project (some {}) :=
  ⟨session, after_reports.1, place_eq, stored_eq, distinguished⟩

/-- A project with a file whose name has a byte that is no character. -/
def odd : World where
  disk := ⟨[(["p"], .directory), (["p", ⟨[.char 'a', .byte 105, .char '.', .char 't', .char 's']⟩], .file [] 1)]⟩
  here := ⟨⟨.root, ["p"]⟩, []⟩
  watch := ⟨0, 1⟩

/-- Whether a report is of one file, the name of which is no string. -/
def misspelled (report : Report) (_ : World) : Bool := report.files.length = 1 && decide ¬ report.Spelled

/-- The report of that project names the one file by a text that is no
string, though its sources are few and short. -/
theorem odd_misspelled : passes misspelled ((run project false (some {})).on odd) = true ∧
    passes (fun plan _ => volume odd plan.scan < 2 ^ 63 && extent plan.scan < 2 ^ 63)
      ((start project (some {})).on odd) = true := by decide +kernel

/-- An analysis that finds a cache of its own has a report for every form.
Where a name is no string there is a report too, but it has no document. -/
theorem reports_rendered :
    (∃ report w', (run project true (some {})).on after = (.ok report, w') ∧ report.summary.cacheHits = 1 ∧
      Rendered report) ∧
    ∃ report w', (run project false (some {})).on odd = (.ok report, w') ∧ report.files.length = 1 ∧
      Rendered report ∧ ¬ ∃ text, report.json = .ok text := by
  constructor
  · obtain ⟨-, -, hReports, -⟩ := after_reports
    obtain ⟨report, w', hRun, -, hHits⟩ := exists_of_reports hReports
    obtain ⟨plan, v, hStart, hSlight⟩ := exists_of_passes after_slight
    simp only [slight, Bool.and_eq_true, decide_eq_true_eq] at hSlight
    exact ⟨report, w', hRun, hHits,
      report_rendered session.kept.proper (fun _ => after_faithful) hStart hSlight.1 hSlight.2 hRun⟩
  · obtain ⟨report, w', hRun, hSpells⟩ := exists_of_passes odd_misspelled.1
    obtain ⟨plan, v, hStart, hSlight⟩ := exists_of_passes odd_misspelled.2
    simp only [misspelled, Bool.and_eq_true, decide_eq_true_eq] at hSlight hSpells
    have hRendered := report_rendered (by decide) (by simp) hStart hSlight.1 hSlight.2 hRun
    exact ⟨report, w', hRun, hSpells.1, hRendered, fun hText => hSpells.2 (hRendered.json.mp hText)⟩

end Sample

end Analysis

end SourceAtlas
