import SourceAtlas.Proofs.Analysis.Identity
import SourceAtlas.Proofs.Graph.Edges
import SourceAtlas.Proofs.Resolution

/-!
Which files of a project are connected. On a disk without links an analysis without a cache connects
two files exactly if an import of the first leads to the place of the second, and it spells the path
of that file as the scan does.
-/
namespace SourceAtlas

theorem Path.text_ne_empty (p : Path) : p.text ≠ "" := by
  rw [Path.text]
  split
  · decide
  · assumption

namespace Analysis

open SourceAtlas.Action Resolution

variable {w w' : World} {root path : Path} {extensions : List Text} {given : Option Config}

/-- A record of the import statements of a file. -/
def Tells (w : World) (path : Path) (r : Record) : Prop :=
  ∃ bytes outline, w.content? path = some bytes ∧
    (Extraction.read (Extraction.dialectOf path) bytes).outline = .ok outline ∧
    r.imports.map Import.source = outline.imports.map ImportSite.source

/-- Two paths lead to one entry. -/
def SameFile (w : World) (p q : Path) : Prop :=
  ∃ place item, w.disk.locate true (w.here.join p) = .ok (.found place item) ∧
    w.disk.locate true (w.here.join q) = .ok (.found place item)

/-- How a report connects the files of a plan. -/
structure Connects (w : World) (plan : Plan) (report : Report) : Prop where
  /-- One record for each file; where nothing failed it tells the imports of the file. -/
  records : List.Forall₂ (fun path r => r.path = path.text ∧ (r.failure = none → Tells w path r))
    plan.scan.files report.files
  edges : ∀ a ∈ plan.scan.files, ∀ b ∈ plan.scan.files, ∀ r ∈ report.files, r.path = a.text →
    (⟨a.relativeText plan.root, b.relativeText plan.root⟩ ∈ report.graph.edges ↔
      ∃ i ∈ r.imports, Reaches w.disk plan.config.extensions a i.source b.parts)
  /-- An import that leads to a file of the scan has the path that the scan gives. -/
  spelled : ∀ r ∈ report.files, ∀ i ∈ r.imports, ∀ text, i.resolved = some text →
    ∀ b ∈ plan.scan.files, SameFile w (Path.parse text) b → text = b.text

/-- A record whose imports were looked up in a world. -/
structure LookedUp (w : World) (root : Path) (extensions : List Text) (path : Path) (r : Record) : Prop where
  file : r.path = path.text
  relative : r.relativePath = path.relativeText root
  imports : ∀ i ∈ r.imports, classify w path extensions i.source = .ok (i.kind, i.resolved)
  tells : r.failure = none → Tells w path r

/-- A record of a failure has no imports to look up. -/
theorem lookedUp_failed (w : World) (root : Path) (extensions : List Text) (path : Path) (lineCount : Nat)
    (fault : ExtractionFault) : LookedUp w root extensions path (Extraction.failed path root lineCount fault) where
  file := rfl
  relative := rfl
  imports := nofun
  tells := nofun

/-- An import is what was found out about its statement: where it leads, and
of which kind it is for that. -/
theorem classify_of_resolveSite {s : ImportSite} {i : Import}
    (hResolve : Extraction.resolveSite w path extensions s = .ok i) :
    i.source = s.source ∧ classify w path extensions i.source = .ok (i.kind, i.resolved) := by
  rw [Extraction.resolveSite] at hResolve
  split at hResolve
  · cases hResolve
  · next kind resolved hClassify =>
    obtain rfl := Except.ok.inj hResolve
    exact ⟨rfl, hClassify⟩

/-- A record made of the content of a file has its imports looked
up in this world. -/
theorem lookedUp_record {bytes : List UInt8} {r : Record} (hContent : w.content? path = some bytes)
    (hRecord : Extraction.record w path root extensions bytes = .ok r) : LookedUp w root extensions path r := by
  rw [Extraction.record] at hRecord
  cases hOutline : (Extraction.read (Extraction.dialectOf path) bytes).outline with
  | error fault =>
      rw [hOutline] at hRecord
      obtain rfl := Except.ok.inj hRecord
      exact lookedUp_failed w root extensions path _ fault
  | ok outline =>
      rw [hOutline] at hRecord
      simp only at hRecord
      split at hRecord
      · cases hRecord
      · next imports hImports =>
        obtain rfl := Except.ok.inj hRecord
        have hSites := forall₂_of_mapM hImports
        refine ⟨rfl, rfl, fun i hi => ?_, fun _ => ⟨bytes, outline, hContent, hOutline, ?_⟩⟩
        · obtain ⟨s, _, hResolve⟩ := exists_of_forall₂_right hSites hi
          exact (classify_of_resolveSite hResolve).2
        · exact map_eq_of_forall₂ hSites fun s i hResolve => (classify_of_resolveSite hResolve).1

theorem LookedUp.classified {r : Record} (hLookedUp : LookedUp w root extensions path r) :
    LookedUp w root extensions path (Classification.classify r) :=
  ⟨hLookedUp.file, hLookedUp.relative, hLookedUp.imports, hLookedUp.tells⟩

/-- What is made of the content of a file, or of a refusal, is looked up in
this world. -/
theorem gives_fromContent_lookedUp (root : Path) (extensions : List Text)
    {content : Except SystemError (List UInt8)}
    (hContent : ∀ bytes, content = .ok bytes → w.content? path = some bytes) :
    Gives w.disk w.here (Extraction.fromContent path root extensions content) (LookedUp w root extensions path) := by
  cases content with
  | error e =>
      intro v r v' hDisk hHere hRun
      obtain ⟨v'', _, hGiven⟩ := Extraction.fromContent_refused path root extensions e v
      rw [hGiven] at hRun
      obtain rfl := Except.ok.inj (Prod.mk.inj hRun).1
      exact lookedUp_failed w root extensions path _ _
  | ok bytes =>
      refine (Extraction.gives_fromContent w path root extensions (.ok bytes)).mono fun r hr => ?_
      exact lookedUp_record (hContent bytes rfl) (hr.2.2 bytes rfl)

theorem gives_extract_lookedUp (root : Path) (extensions : List Text) {content : Option (List UInt8)}
    (hContent : ∀ bytes, content = some bytes → w.content? path = some bytes) :
    Gives w.disk w.here (Extraction.extract path root extensions content) (LookedUp w root extensions path) := by
  cases content with
  | some bytes =>
      rw [Extraction.extract_some]
      refine gives_fromContent_lookedUp root extensions fun bytes' hSame => ?_
      exact hContent bytes' (congrArg some (Except.ok.inj hSame))
  | none =>
      rw [Extraction.extract_none]
      exact (gives_readBytes w path).attempt.bind (looks_readBytes path).attempt fun result hResult =>
        gives_fromContent_lookedUp root extensions hResult

/-- Adding a file without a cache adds its record, with the
imports looked up. -/
theorem gives_addFile_lookedUp (root : Path) (extensions : List Text) {p : Progress} (hCache : p.cache = none) :
    Gives w.disk w.here (addFile root extensions p path) fun p' => p'.cache = none ∧
      ∃ r, p'.records = p.records ++ [r] ∧ LookedUp w root extensions path r := by
  rw [addFile_eq]
  refine (gives_readFingerprinted w path).bind (looks_readFingerprinted path) fun content hContent => ?_
  have hBytes := content_of_fingerprinted hContent
  rw [addRead, hCache]
  exact (gives_extract_lookedUp root extensions hBytes).bind (Extraction.looks_extract _ _ _ _)
    fun r hr => gives_pure ⟨rfl, r, rfl, hr⟩

/-- Without a cache, the records that are added are all looked
up in this world. -/
theorem gives_addFiles_lookedUp (root : Path) (extensions : List Text) (files : List Path) {p : Progress}
    (hCache : p.cache = none) :
    Gives w.disk w.here (files.foldlM (addFile root extensions) p) fun p' =>
      ∃ rs, p'.records = p.records ++ rs ∧ List.Forall₂ (LookedUp w root extensions) files rs := by
  induction files generalizing p with
  | nil => exact gives_pure ⟨[], by simp, .nil⟩
  | cons path files ih =>
      rw [List.foldlM_cons]
      refine (gives_addFile_lookedUp root extensions hCache).bind (looks_addFile _ _ _ _) fun p' hStep => ?_
      obtain ⟨hCache', r, hRecords, hr⟩ := hStep
      refine (ih hCache').mono fun p'' hRest => ?_
      obtain ⟨rs, hRecords', hrs⟩ := hRest
      exact ⟨r :: rs, by simp [hRecords', hRecords], .cons hr hrs⟩

/-- The report of an analysis without a cache is made of the
records of its files. -/
theorem run_lookedUp {plan : Plan} {report : Report} {w₁ : World}
    (hStart : (start root given).on w = (.ok plan, w₁)) (hRun : (run root false given).on w = (.ok report, w')) :
    report.graph = .ofRecords report.files ∧
      List.Forall₂ (LookedUp w plan.root plan.config.extensions) plan.scan.files report.files := by
  have hLooked := looks_start root given w
  rw [hStart] at hLooked
  have hOpen : (openIf false plan).on w₁ = (.ok (none, []), w₁) := rfl
  rw [run_eq, on_bind_ok hStart] at hRun
  obtain ⟨x, w₂, hCollect, hFinish⟩ := of_on_bind hRun
  rw [collect, on_bind_ok hOpen] at hCollect
  obtain ⟨progress, w₃, hFold, hResult⟩ := of_on_bind hCollect
  obtain rfl := Except.ok.inj (Prod.mk.inj hResult).1
  obtain ⟨time, cycles, saved, _, _, rfl⟩ := finish_on_ok hFinish
  obtain ⟨rs, hRecords, hAll⟩ := gives_addFiles_lookedUp plan.root plan.config.extensions plan.scan.files
    (p := { cache := none }) rfl w₁ progress w₃ hLooked.disk hLooked.here hFold
  refine ⟨rfl, ?_⟩
  show List.Forall₂ _ _ (progress.records.map Classification.classify)
  rw [List.forall₂_map_right_iff, show progress.records = rs by simpa using hRecords]
  exact hAll.imp fun _ _ hLookedUp => hLookedUp.classified

section Records

variable {plan : Plan} {base : Path} {records : List Record} (hTree : w.disk.Tree)
  (hFree : w.disk.linkCount = 0) (hSound : Scan.Sound w.disk base plan.scan)
  (hExtensions : ∀ ext ∈ plan.config.extensions, Sign.char '/' ∉ ext.toList)
  (hRecords : List.Forall₂ (LookedUp w plan.root plan.config.extensions) plan.scan.files records)

include hSound hRecords in
/-- The record of a planned file is told by its path, and its
imports are looked up. -/
theorem lookedUp_of_path {a : Path} (ha : a ∈ plan.scan.files) {r : Record} (hr : r ∈ records)
    (hPath : r.path = a.text) : LookedUp w plan.root plan.config.extensions a r := by
  obtain ⟨a', ha', hLookedUp⟩ := exists_of_forall₂_right hRecords hr
  obtain rfl : a' = a := by
    apply Path.text_injective (hSound.found a' ha').named.readable (hSound.found a ha).named.readable
    rw [← hLookedUp.file, hPath]
  exact hLookedUp

include hSound hRecords in
/-- Two files are connected exactly if an import of the first has the path
of the second. -/
theorem edge_iff_resolved {a b : Path} (ha : a ∈ plan.scan.files) (hb : b ∈ plan.scan.files) {r : Record}
    (hr : r ∈ records) (hPath : r.path = a.text) :
    ⟨a.relativeText plan.root, b.relativeText plan.root⟩ ∈ (DependencyGraph.ofRecords records).edges ↔
      ∃ i ∈ r.imports, i.kind = .inside ∧ i.resolved = some b.text := by
  have hPaths : ∀ t ∈ records, t.path ≠ "" := by
    intro t ht
    obtain ⟨c, _, hLookedUp⟩ := exists_of_forall₂_right hRecords ht
    rw [hLookedUp.file]
    exact c.text_ne_empty
  have hFiles : (records.map Record.path).Nodup := by
    rw [map_eq_of_forall₂ hRecords fun _ _ hLookedUp => hLookedUp.file]
    apply hSound.nodup.map_on
    intro p hp q hq hSame
    exact Path.text_injective (hSound.found p hp).named.readable (hSound.found q hq).named.readable hSame
  have hIds : (records.map Record.relativePath).Nodup := by
    rw [map_eq_of_forall₂ hRecords fun _ _ hLookedUp => hLookedUp.relative]
    exact relativeTexts_nodup hSound plan.root
  obtain ⟨t, ht, hTarget⟩ := exists_of_forall₂_right hRecords.flip hb
  have hSource := lookedUp_of_path hSound hRecords ha hr hPath
  rw [← hSource.relative, ← hTarget.relative, ← hTarget.file]
  exact DependencyGraph.mem_edges_iff hPaths hFiles hIds hr ht

include hTree hFree hExtensions in
/-- An import that was looked up has the path of a file exactly
if it leads there. -/
theorem resolved_iff_reaches {a b : Path} (ha : Scan.Found w.disk base a) (hb : Scan.Found w.disk base b)
    {i : Import} (hImport : classify w a plan.config.extensions i.source = .ok (i.kind, i.resolved)) :
    i.kind = .inside ∧ i.resolved = some b.text ↔ Reaches w.disk plan.config.extensions a i.source b.parts := by
  obtain ⟨hKind, hResolved⟩ := classify_reaches hTree hFree ha.anchor ha.named hExtensions hImport
  have hText : b.text = (Path.mk .root b.parts).text := by rw [← hb.anchor]
  rw [hResolved]
  constructor
  · rintro ⟨_, place, hReaches, hSame⟩
    have hNamed : (Path.mk .root place).Named := hReaches.named hTree.toProper
    obtain rfl := Path.text_injective hb.named.readable hNamed.readable hSame
    exact hReaches
  · intro hReaches
    have hSome : i.resolved = some b.text := (hResolved b.text).mpr ⟨b.parts, hReaches, hText⟩
    exact ⟨hKind.mpr (by simp [hSome]), b.parts, hReaches, hText⟩

include hTree hFree hExtensions in
/-- The path of an import is the one that the scan gives for the same file,
on a disk where no path goes through a link. -/
theorem text_of_sameFile {a b : Path} (ha : Scan.Found w.disk base a) (hb : Scan.Found w.disk base b)
    {i : Import} (hImport : classify w a plan.config.extensions i.source = .ok (i.kind, i.resolved))
    {text : Text} (hResolved : i.resolved = some text) (hSame : SameFile w (Path.parse text) b) :
    text = b.text := by
  obtain ⟨place, hReaches, rfl⟩ :=
    ((classify_reaches hTree hFree ha.anchor ha.named hExtensions hImport).2 text).mp hResolved
  have hNamed : (Path.mk .root place).Named := hReaches.named hTree.toProper
  obtain ⟨there, item, hFirst, hSecond⟩ := hSame
  rw [Path.parse_text hNamed.readable, Path.join_of_absolute rfl] at hFirst
  rw [Path.join_of_absolute (by simp [Path.isAbsolute, hb.anchor])] at hSecond
  have hPlace : place = b.parts :=
    (Disk.place_of_locate hFree hNamed hFirst).symm.trans (Disk.place_of_locate hFree hb.named hSecond)
  rw [hPlace, ← hb.anchor]

end Records

/-- On a disk without links, an analysis without a cache whose extensions
have no slash connects two files exactly if an import of the first begins
with a point and leads to the second: to what its source names, to that
with an extension, or to an index file there, whichever is the first
regular file. Imports that lead to a file of the scan have its path as
the scan gives it. -/
theorem imports_connect_files (hTree : w.disk.Tree) (hFree : w.disk.linkCount = 0) {report : Report}
    (hRun : (run root false given).on w = (.ok report, w')) :
    ∃ plan v, (start root given).on w = (.ok plan, v) ∧
      ((∀ ext ∈ plan.config.extensions, Sign.char '/' ∉ ext.toList) → Connects w plan report) := by
  obtain ⟨plan, v, hStart⟩ : ∃ plan v, (start root given).on w = (.ok plan, v) := by
    rw [run_eq] at hRun
    obtain ⟨plan, v, hStart, _⟩ := of_on_bind hRun
    exact ⟨plan, v, hStart⟩
  refine ⟨plan, v, hStart, fun hExtensions => ?_⟩
  obtain ⟨base, _, _, hSound⟩ :=
    (gives_start hTree.toProper w.here root given w plan v rfl rfl hStart).scan
  obtain ⟨hGraph, hRecords⟩ := run_lookedUp hStart hRun
  constructor
  · exact hRecords.imp fun _ _ hLookedUp => ⟨hLookedUp.file, hLookedUp.tells⟩
  · intro a ha b hb r hr hPath
    have hSource := lookedUp_of_path hSound hRecords ha hr hPath
    rw [hGraph, edge_iff_resolved hSound hRecords ha hb hr hPath]
    apply exists_congr
    intro i
    apply and_congr_right
    intro hi
    exact resolved_iff_reaches hTree hFree hExtensions (hSound.found a ha) (hSound.found b hb)
      (hSource.imports i hi)
  · intro r hr i hi text hResolved b hb hSame
    obtain ⟨a, ha, hLookedUp⟩ := exists_of_forall₂_right hRecords hr
    exact text_of_sameFile hTree hFree hExtensions (hSound.found a ha) (hSound.found b hb)
      (hLookedUp.imports i hi) hResolved hSame

namespace Sample

/-- A file and a directory of one name, and a file that imports the
name by a detour. -/
def crossing : World where
  disk := ⟨[(["p"], .directory), (["p", "a.ts"], .file (Text.Utf8.encode "import './/x/../lib/';") 1),
    (["p", "lib"], .directory), (["p", "lib", "index.ts"], .file (Text.Utf8.encode "import '..';import 'a';") 2),
    (["p", "lib.ts"], .file [] 3)]⟩
  here := ⟨⟨.root, ["p"]⟩, []⟩
  watch := ⟨0, 1⟩

def found : List Path := [⟨.root, ["p", "a.ts"]⟩, ⟨.root, ["p", "lib", "index.ts"]⟩, ⟨.root, ["p", "lib.ts"]⟩]

/-- The plan of the sample has the files that are listed here. -/
theorem crossing_starts : passes (fun plan _ => plan.scan.files = found && plan.config.extensions = ([".ts"] : List Text))
    ((start project (some {})).on crossing) = true := by
  decide +kernel

/-- Without its cache the sample gets the one edge. -/
theorem crossing_reports : passes (fun report _ => report.graph.edges = [⟨"a.ts", "lib.ts"⟩])
    ((run project false (some {})).on crossing) = true := by
  decide +kernel

/-- The file beside the directory is imported, and not the index file in it,
although the source names the directory as well. -/
theorem detour_connects : ∃ plan report v w', (start project (some {})).on crossing = (.ok plan, v) ∧
    (run project false (some {})).on crossing = (.ok report, w') ∧ plan.scan.files = found ∧
    Connects crossing plan report ∧ report.graph.edges = [⟨"a.ts", "lib.ts"⟩] := by
  obtain ⟨report, w', hRun, hEdges⟩ := exists_of_passes crossing_reports
  obtain ⟨plan, v, hStart, hConnects⟩ := imports_connect_files (by decide +kernel) (by decide) hRun
  obtain ⟨plan', v', hStart', hPlan⟩ := exists_of_passes crossing_starts
  obtain rfl : plan = plan' := Except.ok.inj (Prod.mk.inj (hStart.symm.trans hStart')).1
  simp only [Bool.and_eq_true, decide_eq_true_eq] at hPlan
  have hExtensions : ∀ ext ∈ plan.config.extensions, Sign.char '/' ∉ ext.toList := by
    rw [hPlan.2]
    decide
  exact ⟨plan, report, v, w', hStart, hRun, hPlan.1, hConnects hExtensions, of_decide_eq_true hEdges⟩

end Sample

end Analysis

end SourceAtlas
