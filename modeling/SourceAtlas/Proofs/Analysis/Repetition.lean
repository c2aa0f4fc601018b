import SourceAtlas.Proofs.Analysis.Resuming

/-!
Analyses one after another with nothing in between. Once an analysis has saved its cache, every later one
finds all of its files there, gives the same report and saves the same entries, as long as saving the
cache does not change where an analysis looks or what an import leads to.
-/
namespace SourceAtlas.Analysis

open SourceAtlas.Action

variable {w w' v v' : World} {root : Path} {given : Option Config} {b : Bearings} {plan : Plan}
  {found : Path × Scan}

/-- What an analysis did that saved its cache: it scanned, made records, and
wrote a document of a cache that remembers them. -/
structure Saves (w w' : World) (b : Bearings) (report : Report) (found : Path × Scan) (rs : List Record)
    (doc : CacheDocument) : Prop where
  scan : ∃ v, (Scan.project (scanOptions b.config) b.root).on w = (.ok found, v)
  legible : b.root.text.isString = true
  covers : Cache.Covers doc found.2.files
  remembers : List.Forall₂ (Remembers w b.config.extensions (b.cache.ofDocument doc)) found.2.files rs
  written : ∃ text v v', Json.document doc.toDatum = .ok text ∧ w.Looked v ∧
    (Cache.writeReplacing b.file (Text.Utf8.encodeChars text)).on v = (.ok (), v') ∧ v'.Looked w'
  report : ∃ x time cycles, x.1.records = rs ∧ (∀ m ∈ x.2.2, m.kind = .cache) ∧
    Cycle.detect (.ofRecords (rs.map Classification.classify)) = .ok cycles ∧
    report = Plan.report ⟨b.root, b.config, found.2⟩ x time cycles []

/-- The cache of an analysis remembers all files in the end. -/
theorem collect_remembers {x : Progress × Option Cache × List Warning} (hBears : Bears w root given b)
    (hUnlocked : w.Unlocked) (hPlanned : Planned w.disk w.here root plan) (hRoot : plan.root = b.root)
    (hConfig : plan.config = b.config) (hLooked : w.Looked v) (hCollect : (collect true plan).on v = (.ok x, v')) :
    ∃ c, x.1.cache = some c ∧ c.Keyed ∧ c.version = 1 ∧ c.file = b.file ∧ c.project = b.root ∧ (∀ m ∈ x.2.2, m.kind = .cache) ∧
      List.Forall₂ (Remembers w b.config.extensions c) plan.scan.files x.1.records := by
  obtain ⟨opened, v₁, hOpen, hRest⟩ := of_on_bind hCollect
  obtain ⟨progress, v₂, hFold, hResult⟩ := of_on_bind hRest
  obtain rfl := Except.ok.inj (Prod.mk.inj hResult).1
  -- the cache that is opened is that of the project
  obtain ⟨file, v₃, c, present, hFile, hLoad, rfl⟩ := openIf_on_ok hOpen
  obtain ⟨v₄, hSame, -⟩ := hBears.cacheFile_on hLooked
  rw [← hRoot, ← hConfig] at hSame
  obtain rfl := Except.ok.inj (Prod.mk.inj (hFile.symm.trans hSame)).1
  obtain ⟨hPlace, hProject, hVersion, -⟩ := Cache.load_entries rfl hLoad
  obtain ⟨hNodup, hPaths⟩ := Cache.carried_of_load rfl hLoad
  obtain ⟨hFiles, hTexts⟩ := hPlanned.files
  obtain ⟨c', rs, hCache, hContinues, hRecords, hAll⟩ := addFiles_remember hUnlocked hFiles hTexts rfl
    (hLooked.trans ((looks_openIf _ _).run hOpen)) hFold
  refine ⟨c', hCache, hContinues.keyed ⟨fun q hq => (hPaths q hq).1, hNodup⟩, hContinues.version.trans hVersion,
    hContinues.file.trans hPlace, (hContinues.project.trans hProject).trans hRoot, (loadWarnings_kind c).2, ?_⟩
  rw [hRecords, List.nil_append, ← hConfig]
  exact hAll

/-- An analysis that says nothing of a cache that could not be
written saved it. -/
theorem finish_saves {x : Progress × Option Cache × List Warning} {c : Cache} {report : Report}
    (hCache : x.1.cache = some c) (hFinish : (finish plan x).on w = (.ok report, w'))
    (hSaid : ∀ m ∈ report.warnings, m.kind = .cache → ¬ ("Cannot write cache: " : Text).toList <+: m.message.toList) :
    ∃ (time : Text) (cycles : List Cycle) (now : Text) (text : List Char) (v v' : World),
      Cycle.detect (.ofRecords (x.1.records.map Classification.classify)) = .ok cycles ∧
      report = plan.report x time cycles [] ∧ now ≠ "" ∧
      Json.document ((c.keepOnly plan.scan.files).toDocument now).toDatum = .ok text ∧ w.Looked v ∧
      (Cache.writeReplacing c.file (Text.Utf8.encodeChars text)).on v = (.ok (), v') ∧ v'.Looked w' := by
  obtain ⟨time, cycles, saved, w₁, w₂, hCycles, hLooked₁, hSave, hLooked₂, rfl⟩ := finish_steps hFinish
  obtain ⟨w₃, result, w₄, hLooked₃, hAttempt, hLooked₄, rfl⟩ := finishCache_on_ok hCache hSave
  cases result with
  | error e =>
      have hMem : (⟨.cache, "Cannot write cache: " ++ e.message, some c.file.text⟩ : Warning) ∈
          (plan.report x time cycles (saveWarnings c.file (.error e))).warnings := by
        simp [Plan.report, reportOf, saveWarnings]
      apply absurd _ (hSaid _ hMem rfl)
      rw [Text.toList_append]
      exact List.prefix_append _ _
  | ok c' =>
      obtain ⟨now, text, v, v', hNow, hText, hWrite, hLooked₅, -⟩ := Cache.save_on_ok (of_on_attempt hAttempt)
      have hTime : now ≠ "" := by
        rw [← Except.ok.inj (Prod.mk.inj hNow).1]
        exact Watch.text_ne_empty _
      exact ⟨time, cycles, now, text, v, v', hCycles, rfl, hTime, hText,
        (hLooked₁.trans hLooked₃).trans (looks_now.run hNow), hWrite, hLooked₅.trans (hLooked₄.trans hLooked₂)⟩

/-- An analysis that says nothing of a cache that could not be written
remembers all of its files there. -/
theorem saves_of_run {report : Report} (hProper : w.disk.Proper) (hUnlocked : w.Unlocked)
    (hBears : Bears w root given b) (hRun : (run root true given).on w = (.ok report, w'))
    (hSaid : ∀ m ∈ report.warnings, m.kind = .cache → ¬ ("Cannot write cache: " : Text).toList <+: m.message.toList) :
    ∃ found rs doc, Saves w w' b report found rs doc := by
  rw [run_eq] at hRun
  obtain ⟨plan, w₁, hStart, hRest⟩ := of_on_bind hRun
  obtain ⟨x, w₂, hCollect, hFinish⟩ := of_on_bind hRest
  have hPlanned := gives_start hProper w.here root given w plan w₁ rfl rfl hStart
  have hLooked := (looks_start root given).run hStart
  obtain ⟨hRoot, hConfig, top, v, hScan⟩ := project_of_start hBears.resolved hBears.config hUnlocked hStart
  obtain ⟨c, hCache, hKeyed, hVersion, hFile, hProject, hLoaded, hAll⟩ :=
    collect_remembers hBears hUnlocked hPlanned hRoot hConfig hLooked hCollect
  obtain ⟨time, cycles, now, text, u, u', hCycles, rfl, hNow, hText, hLooked', hWrite, hAfter⟩ :=
    finish_saves hCache hFinish hSaid
  rw [hFile] at hWrite
  have hPlan : plan = ⟨b.root, b.config, plan.scan⟩ := by rw [← hRoot, ← hConfig]
  have hLegible : b.root.text.isString = true := by
    rw [← hProject]
    exact (CacheDocument.fits_iff.mp (Json.document_eq_ok_iff.mp ⟨text, hText⟩)).2.2.projectPath
  refine ⟨(top, plan.scan), x.1.records, _, ⟨v, hScan⟩, hLegible, Cache.covers_toDocument hKeyed hVersion _ hNow, ?_,
    ⟨text, u, u', hText, (hLooked.trans ((looks_collect _ _).run hCollect)).trans hLooked', hWrite, hAfter⟩,
    x, time, cycles, rfl, hLoaded, hCycles, congrArg (Plan.report · x time cycles []) hPlan⟩
  apply ((List.forall₂_and_left _ _).mpr ⟨fun path hPath => hPath, hAll⟩).imp
  rintro path r ⟨hPath, hRemembers⟩
  exact hRemembers.of_entry (Cache.get?_taken_over hKeyed b.cache now hPath)

/-- Directories were made and one file was written, whose place was no
directory and whose name is not that of a source file. -/
theorem spares_written {d d' : Disk} {directory base : Place} {name : Text} {bytes : List UInt8}
    (hGrows : w.disk.Grows d) (hNoDirectory : d.find? (directory ++ [name]) ≠ some .directory)
    (hDisk : d' = d.put (directory ++ [name]) (.file bytes writtenTime)) {o : ScanOptions}
    (hExtensions : ∀ ext ∈ o.extensions, ¬ ext.toList <:+ name.toList) : Scan.Spares o base w.disk d' := by
  subst hDisk
  exact (Scan.Spares.of_directories hGrows.find?).trans
    (.put (Scan.not_searched_of_extensions hExtensions directory) hNoDirectory _ _)

/-- In another world an analysis finds its way as before, none of the
entries that it meets has too long a path, and a path that an import in the
report tries is a file exactly if it was one. -/
structure Steady (w v : World) (root : Path) (given : Option Config) (b : Bearings) (report : Report) : Prop where
  bears : Bears v root given b
  short : ∀ p, Scan.Beneath v (scanOptions b.config) b.top p →
    v.disk.locate true p ≠ .error (.errno .nameTooLong)
  imports : ∀ r ∈ report.files, ∀ i ∈ r.imports, Resolution.isRelative i.source = true →
    ∀ p ∈ Resolution.candidates (Resolution.base (Path.parse r.path) i.source) b.config.extensions,
      v.hasFile p = w.hasFile p

/-- The file at a place is neither the configuration of a project nor among
its ignore files: these say the same, whatever it holds. -/
def Apart (w : World) (place : Place) (given : Option Config) (b : Bearings) : Prop :=
  ∀ v bytes, Overwritten place bytes w v → ((configOf b.root given).on v).1 = .ok b.config ∧
    ((Scan.ignoreFiles (scanOptions b.config) b.top).on v).1 = .ok b.ignoring

/-- Where the cache is does not depend on what files hold, for the
configuration is given. -/
theorem cacheDirectory_of_shape (hShape : v.disk.shape = w.disk.shape) (hHere : v.here = w.here) (root : Path)
    (dir : Text) : ((Config.cacheDirectory root dir).on v).1 = ((Config.cacheDirectory root dir).on w).1 := by
  have hCanonical (p : Path) : (Action.canonical p).on v = (((Action.canonical p).on w).1, v) := by
    rw [canonical_on, canonical_on, hHere, Disk.canonical_of_shape hShape]
    rcases w.disk.canonical (w.here.join p) with (_ | _) | q <;> rfl
  have hStill (p : Path) : (Action.canonical p).on w = (((Action.canonical p).on w).1, w) := by
    rw [canonical_on]
    rcases w.disk.canonical (w.here.join p) with (_ | _) | q <;> rfl
  rw [Config.cacheDirectory]
  split
  · rfl
  · split
    · rfl
    · rw [on_bind, on_bind, hCanonical, hStill]
      rcases ((Action.canonical root).on w).1 with e | base
      · rfl
      · dsimp only
        rw [on_bind, on_bind, hCanonical, hStill]
        rcases ((Action.canonical (base.join (Path.parse dir))).on w).1 with e | path
        · rfl
        · dsimp only
          split <;> rfl

/-- An analysis finds its way in every world of the same shape with the same
configuration and rules. -/
theorem Bears.of_shape (hBears : Bears w root given b) (hShape : v.disk.shape = w.disk.shape) (hHere : v.here = w.here)
    (hConfig : ((configOf b.root given).on v).1 = .ok b.config)
    (hRules : ((Scan.ignoreFiles (scanOptions b.config) b.top).on v).1 = .ok b.ignoring) : Bears v root given b where
  resolved := by rw [hHere, Standpoint.resolve_congr (Disk.canonical_of_shape hShape), hBears.resolved]
  config := hConfig
  scan := ⟨by rw [hHere, Standpoint.resolve_congr (Disk.canonical_of_shape hShape), hBears.scan.resolved],
    Disk.locate_directory_of_shape hShape hBears.scan.directory, hRules⟩
  folder := by rw [cacheDirectory_of_shape hShape hHere, hBears.folder]

/-- Whether a path leads to a file depends on the shape of the disk, and not
on the bytes of its files. -/
theorem hasFile_of_shape (hShape : v.disk.shape = w.disk.shape) (hHere : v.here = w.here) (p : Path) :
    v.hasFile p = w.hasFile p := by
  rw [World.hasFile, World.hasFile, hHere, Disk.isFile_of_shape hShape]

/-- A world stays steady when the file of the cache is overwritten. -/
theorem Steady.overwritten {report : Report} {place : Place} {bytes content : List UInt8} {mtime : Int}
    (hSteady : Steady w w' root given b report) (hApart : Apart w' place given b) (hUnlocked : w'.Unlocked)
    (hFile : w'.disk.find? place = some (.file content mtime)) (hOverwritten : Overwritten place bytes w' v) :
    Steady w v root given b report := by
  have hShape : v.disk.shape = w'.disk.shape := by
    rw [hOverwritten.disk]
    exact Disk.shape_put hFile
  obtain ⟨hConfig, hRules⟩ := hApart v bytes hOverwritten
  refine ⟨hSteady.bears.of_shape hShape hOverwritten.here hConfig hRules, ?_, ?_⟩
  · intro p hBeneath hLong
    exact hSteady.short p (hBeneath.of_shape hShape.symm hUnlocked) (Disk.locate_error_of_shape hShape.symm hLong)
  · intro r hr i hi hRelative p hp
    rw [hasFile_of_shape hShape hOverwritten.here, hSteady.imports r hr i hi hRelative p hp]

/-- The world after an analysis that saved its cache: directories were made,
and the file of the cache stands at its place and can be replaced. -/
structure Left (w w' : World) (b : Bearings) (d : Disk) (directory : Place) (bytes : List UInt8) : Prop where
  here : w'.here = w.here
  unlocked : w'.Unlocked
  grows : w.disk.Grows d
  noDirectory : d.find? (directory ++ [Config.cacheFileName]) ≠ some .directory
  disk : w'.disk = d.put (directory ++ [Config.cacheFileName]) (.file bytes writtenTime)
  replaceable : Cache.Replaceable w'.disk b.folder Config.cacheFileName directory

/-- The document stands in the directory of the cache under the name of
caches, with the time of its writing. -/
theorem Left.written {d : Disk} {directory : Place} {bytes : List UInt8} (hLeft : Left w w' b d directory bytes) :
    w'.disk.find? (directory ++ [Config.cacheFileName]) = some (.file bytes writtenTime) := by
  rw [hLeft.disk]
  exact Disk.find?_put_self (by simp) _ _

/-- What the first analysis left is a file as later ones may rewrite it: a
document with an entry for each of the files. -/
theorem Left.rewritten {d : Disk} {directory : Place} {text : List Char} {doc : CacheDocument} {files : List Path}
    (hLeft : Left w w' b d directory (Text.Utf8.encodeChars text)) (hText : Json.document doc.toDatum = .ok text)
    (hCovers : Cache.Covers doc files) : Rewritten (directory ++ [Config.cacheFileName]) files doc w' w' := by
  refine ⟨text, doc, hText, hCovers, rfl, rfl, rfl, hLeft.unlocked, ?_⟩
  rw [hLeft.disk, Disk.put_put]

namespace Saves

variable {report : Report} {rs : List Record} {doc : CacheDocument} {place directory : Place} {d : Disk}
  {bytes : List UInt8} {item : Item}

/-- An analysis that saved its cache leaves the document where the path of
the cache leads, and new directories at most on the way there. -/
theorem left (hSaves : Saves w w' b report found rs doc) (hProper : w.disk.Proper) (hUnlocked : w.Unlocked)
    (hBears : Bears w root given b) (hFound : w'.disk.locate false b.file = .ok (.found place item)) :
    ∃ d directory text, place = directory ++ [Config.cacheFileName] ∧ Json.document doc.toDatum = .ok text ∧
      Left w w' b d directory (Text.Utf8.encodeChars text) := by
  obtain ⟨text, v, v', hText, hLooked, hWrite, hLooked'⟩ := hSaves.written
  obtain ⟨hAbsolute, hNamed⟩ := hBears.folder_named hProper
  rw [hLooked'.disk] at hFound
  obtain ⟨d, directory, hGrows, hWritten, rfl, hNoDirectory, hReplaceable⟩ :=
    Cache.replaceable_of_written hAbsolute hNamed (by decide) hWrite hFound
  refine ⟨d, directory, text, rfl, hText, hLooked'.here.trans ?_, hLooked'.unlocked ?_, hLooked.disk ▸ hGrows,
    hNoDirectory, hLooked'.disk.trans ?_, hLooked'.disk ▸ hReplaceable⟩
  · rw [hWritten, hLooked.here]
  · rw [hWritten]
    exact hLooked.unlocked hUnlocked
  · rw [hWritten]

/-- What is remembered of files that are where they were is remembered, with
imports that lead where they lead now. -/
theorem remembered (hSaves : Saves w w' b report found rs doc)
    (hAbsolute : ∀ path ∈ found.2.files, path.isAbsolute = true)
    (hFiles : ∀ path ∈ found.2.files, ∃ place bytes mtime,
      w.disk.locate true path = .ok (.found place (.file bytes mtime)) ∧
      v.disk.locate true path = .ok (.found place (.file bytes mtime)))
    {f : Record → Record} (hNow : ∀ r ∈ rs, Resolution.refresh v b.config.extensions r = .ok (f r)) :
    List.Forall₂ (Remembers v b.config.extensions (b.cache.ofDocument doc)) found.2.files (rs.map f) := by
  have hPaths := (List.forall₂_and_left _ _).mpr ⟨fun path hPath => hPath, hSaves.remembers⟩
  have hRecords := (List.forall₂_and_left _ _).mpr ⟨fun r hr => hr, hPaths.flip⟩
  rw [List.forall₂_map_right_iff]
  apply hRecords.flip.imp
  rintro path r ⟨hRecord, hPath, e, hGet, ⟨place, bytes, mtime, hLocate, hCurrent⟩, hRefresh⟩
  obtain ⟨place', bytes', mtime', hBefore, hThere⟩ := hFiles path hPath
  rw [Path.join_of_absolute (hAbsolute path hPath)] at hLocate
  obtain ⟨rfl, hSame⟩ := Disk.Arrival.found.inj (Except.ok.inj (hLocate.symm.trans hBefore))
  obtain ⟨rfl, rfl⟩ := Item.file.inj hSame
  refine ⟨e, hGet, ⟨place, bytes, mtime, ?_, hCurrent⟩, ?_⟩
  · rw [Path.join_of_absolute (hAbsolute path hPath), hThere]
  · rw [← Resolution.refresh_after hRefresh, hNow r hRecord]

/-- Where the file of the cache holds the entries that were saved, and
nothing else has changed that an analysis looks at before the imports, the
next one finds all files remembered. -/
theorem resumes (hSaves : Saves w w' b report found rs doc) (hProper : w.disk.Proper)
    (hGrounded : w.disk.Grounded) (hUnlocked : w.Unlocked) (hBears : Bears w root given b)
    (hExtensions : ∀ ext ∈ b.config.extensions, ¬ ext.toList <:+ Config.cacheFileName.toList)
    (hLeft : Left w w' b d directory bytes) (hBears' : Bears v root given b)
    (hShort : ∀ p, Scan.Beneath v (scanOptions b.config) b.top p →
      v.disk.locate true p ≠ .error (.errno .nameTooLong))
    {f : Record → Record} (hNow : ∀ r ∈ rs, Resolution.refresh v b.config.extensions r = .ok (f r))
    (hRewritten : Rewritten (directory ++ [Config.cacheFileName]) found.2.files doc w' v) :
    ∃ doc', Resumes v root given b directory found (rs.map f) doc' ∧ doc'.entries = doc.entries ∧
      doc'.createdAt = doc.createdAt := by
  obtain ⟨text, doc', hText, hCovers, hEntries, hCreated, hOverwritten⟩ := hRewritten
  have hDisk : v.disk = d.put (directory ++ [Config.cacheFileName]) (.file (Text.Utf8.encodeChars text) writtenTime) := by
    rw [hOverwritten.disk, hLeft.disk, Disk.put_put]
  have hReplaceable : Cache.Replaceable v.disk b.folder Config.cacheFileName directory := by
    rw [hOverwritten.disk]
    exact hLeft.replaceable.put hLeft.written (by decide) _ _
  -- the directory of the cache was there before its file was
  have hProper' : v.disk.Proper := by
    have hDirectory := Disk.find?_of_locate hReplaceable.parent
    rw [hDisk, Disk.find?_put_of_ne (by simp)] at hDirectory
    rw [hDisk]
    apply (hLeft.grows.proper hProper).put
    intro n hn
    rcases List.mem_append.mp hn with hAbove | hName
    · exact (hLeft.grows.proper hProper).of_find? hDirectory n hAbove
    · obtain rfl := List.mem_singleton.mp hName
      decide
  have hSpares : Scan.Spares (scanOptions b.config) b.base w.disk v.disk :=
    spares_written hLeft.grows hLeft.noDirectory hDisk hExtensions
  obtain ⟨hForth, hBack⟩ := hSpares.preserves hProper hGrounded hUnlocked hProper' hOverwritten.unlocked
    hBears.scan.directory hBears'.scan.directory
  obtain ⟨u, hScan⟩ := hSaves.scan
  obtain ⟨hAgain, hFiles⟩ := Scan.project_again hForth hBack hBears.scan hBears'.scan hShort hScan
  have hSound := (Scan.gives_project hProper _ b.root w found u rfl rfl hScan).2.2
  have hRemembers := hSaves.remembered
    (fun path hPath => by simp [Path.isAbsolute, (hSound.found path hPath).anchor]) hFiles hNow
  refine ⟨doc', ⟨hProper', hOverwritten.unlocked, hBears', hSaves.legible, hAgain, hCovers, ?_, hReplaceable, text, _, hText,
    hDisk ▸ Disk.find?_put_self (by simp) _ _⟩, hEntries, hCreated⟩
  apply hRemembers.imp
  intro path r hRemembers
  apply hRemembers.of_entry
  rw [hCovers.entries, hSaves.covers.entries, hEntries]

/-- In a steady world the records stay as they are when their imports are
looked up again. -/
theorem steady (hSaves : Saves w w' b report found rs doc) (hSteady : Steady w v root given b report) :
    ∀ r ∈ rs, Resolution.refresh v b.config.extensions r = .ok r := by
  obtain ⟨x, time, cycles, rfl, -, -, rfl⟩ := hSaves.report
  intro r hr
  obtain ⟨path, -, e, -, -, hRefresh⟩ := exists_of_forall₂_right hSaves.remembers hr
  apply Resolution.refresh_steady (Resolution.refresh_again hRefresh)
  exact hSteady.imports (Classification.classify r) (List.mem_map_of_mem hr)

end Saves

/-- A later report says what the first one says but for its warnings about
the cache, in which every file was found. -/
structure Repeats (first later : Report) : Prop where
  agrees : Agree later first
  warnings : later.warnings = first.warnings.filter (·.kind ≠ .cache)
  hits : later.summary.cacheHits = later.summary.totalFiles
  misses : later.summary.cacheMisses = 0

/-- Analyse a project with its cache, again and again. -/
def runs (root : Path) (given : Option Config) : Nat → Action (List Report)
  | 0 => return []
  | n + 1 => do
    let report ← run root true given
    return report :: (← runs root given n)

/-- A file holds a document with these entries, which was first
made at this time. -/
def Stores (w : World) (file : Path) (entries : List CacheEntry) (createdAt : Text) : Prop :=
  ∃ place bytes mtime doc, w.disk.locate true file = .ok (.found place (.file bytes mtime)) ∧
    Cache.stored? bytes = some doc ∧ doc.entries = entries ∧ doc.createdAt = createdAt

/-- Where all records were found in the cache, the report repeats one over
the same records. -/
theorem repeats_report (plan : Plan) {x y : Progress × Option Cache × List Warning}
    (hRecords : y.1.records = x.1.records) (hx : ∀ m ∈ x.2.2, m.kind = .cache) (hy : y.2.2 = [])
    (hHits : y.1.hits = y.1.records.length) (hMisses : y.1.misses = 0) (time time' : Text) (cycles : List Cycle) :
    Repeats (plan.report x time cycles []) (plan.report y time' cycles []) where
  agrees := agree_report plan hRecords (by simp [hy]) hx time' time cycles (by simp)
  warnings := by
    rw [plan.report_warnings hx time cycles (by simp)]
    simp only [Plan.report, reportOf, hy, hRecords, List.append_nil]
  hits := by simp [Plan.report, reportOf, Summary.ofParts, hHits]
  misses := by simp [Plan.report, reportOf, Summary.ofParts, hMisses]

section Next

variable {report : Report} {rs : List Record} {doc : CacheDocument} {directory : Place} {d : Disk}
  {bytes : List UInt8} (hSaves : Saves w w' b report found rs doc) (hProper : w.disk.Proper)
  (hGrounded : w.disk.Grounded) (hUnlocked : w.Unlocked) (hBears : Bears w root given b)
  (hExtensions : ∀ ext ∈ b.config.extensions, ¬ ext.toList <:+ Config.cacheFileName.toList)
  (hLeft : Left w w' b d directory bytes) (hSteady : Steady w w' root given b report)
  (hApart : Apart w' (directory ++ [Config.cacheFileName]) given b)

include hSaves hProper hGrounded hUnlocked hBears hExtensions hLeft hSteady hApart

/-- The next analysis repeats the report and keeps the entries, so that the
one after it finds the same again. -/
theorem next_repeats (hRewritten : Rewritten (directory ++ [Config.cacheFileName]) found.2.files doc w' v) :
    ∃ later v', (run root true given).on v = (.ok later, v') ∧ Repeats report later ∧
      Rewritten (directory ++ [Config.cacheFileName]) found.2.files doc w' v' := by
  obtain ⟨text, doc', -, -, -, -, hOverwritten⟩ := id hRewritten
  have hSteady' := hSteady.overwritten hApart hLeft.unlocked hLeft.written hOverwritten
  obtain ⟨doc', hResumes, hEntries, hCreated⟩ := hSaves.resumes hProper hGrounded hUnlocked hBears hExtensions hLeft
    hSteady'.bears hSteady'.short (hSaves.steady hSteady') hRewritten
  rw [List.map_id'] at hResumes
  obtain ⟨time', cycles', v', hCycles', hRun, text', doc'', hText, hCovers, hEntries', hCreated', hAgain⟩ :=
    hResumes.run
  obtain ⟨x, time, cycles, rfl, hLoaded, hCycles, rfl⟩ := hSaves.report
  obtain rfl := Except.ok.inj (hCycles.symm.trans hCycles')
  have hRepeats := repeats_report ⟨b.root, b.config, found.2⟩ (x := x) (y := (⟨some (b.cache.ofDocument doc'),
    x.1.records, x.1.records.length, 0⟩, some (b.cache.ofDocument doc'), [])) rfl hLoaded rfl rfl rfl time time' cycles
  exact ⟨_, v', hRun, hRepeats, text', doc'', hText, hCovers, hEntries'.trans hEntries, hCreated'.trans hCreated,
    hOverwritten.again hAgain⟩

/-- So do all that follow, by induction on their number. Each starts from a
file with the same entries. -/
theorem runs_repeat (n : Nat) (hRewritten : Rewritten (directory ++ [Config.cacheFileName]) found.2.files doc w' v) :
    ∃ reports v', (runs root given n).on v = (.ok reports, v') ∧ reports.length = n ∧
      (∀ later ∈ reports, Repeats report later) ∧
      Rewritten (directory ++ [Config.cacheFileName]) found.2.files doc w' v' := by
  induction n generalizing v with
  | zero => exact ⟨[], v, rfl, rfl, by simp, hRewritten⟩
  | succ n ih =>
      obtain ⟨later, v₁, hRun, hRepeats, hRewritten₁⟩ := next_repeats hSaves hProper hGrounded hUnlocked hBears
        hExtensions hLeft hSteady hApart hRewritten
      obtain ⟨reports, v', hRuns, hLength, hAll, hRewritten'⟩ := ih hRewritten₁
      refine ⟨later :: reports, v', ?_, by rw [List.length_cons, hLength], ?_, hRewritten'⟩
      · rw [runs, on_bind_ok hRun, on_bind_ok hRuns, on_pure]
      · exact List.forall_mem_cons.mpr ⟨hRepeats, hAll⟩

end Next

/-- Once an analysis has saved its cache, every further one with the same
root and configuration finds all of its files there, says what the first
said, less the warnings about the cache, and leaves the entries and the
time at which the cache was first made. No source file may have the name of
the cache, saving the cache must not change where an analysis looks or what
an import leads to, and the file of the cache must not be configuration. -/
theorem later_analyses_repeat {report : Report} {place : Place} {item : Item} (hProper : w.disk.Proper)
    (hGrounded : w.disk.Grounded) (hUnlocked : w.Unlocked) (hBears : Bears w root given b)
    (hExtensions : ∀ ext ∈ b.config.extensions, ¬ ext.toList <:+ Config.cacheFileName.toList)
    (hRun : (run root true given).on w = (.ok report, w'))
    (hSaid : ∀ m ∈ report.warnings, m.kind = .cache → ¬ ("Cannot write cache: " : Text).toList <+: m.message.toList)
    (hFound : w'.disk.locate false b.file = .ok (.found place item))
    (hSteady : Steady w w' root given b report) (hApart : Apart w' place given b) :
    ∃ entries createdAt, ∀ n, ∃ reports v, (runs root given n).on w' = (.ok reports, v) ∧ reports.length = n ∧
      (∀ later ∈ reports, Repeats report later) ∧ Stores v b.file entries createdAt := by
  obtain ⟨found, rs, doc, hSaves⟩ := saves_of_run hProper hUnlocked hBears hRun hSaid
  obtain ⟨d, directory, text, rfl, hText, hLeft⟩ := hSaves.left hProper hUnlocked hBears hFound
  have hFirst := hLeft.rewritten hText hSaves.covers
  refine ⟨doc.entries, doc.createdAt, ?_⟩
  intro n
  obtain ⟨reports, v, hRuns, hLength, hAll, text', doc', hText', -, hEntries, hCreated, hOverwritten⟩ :=
    runs_repeat hSaves hProper hGrounded hUnlocked hBears hExtensions hLeft hSteady hApart n hFirst
  have hReplaceable := hLeft.replaceable.put hLeft.written (by decide) (Text.Utf8.encodeChars text') writtenTime
  have hThere := hReplaceable.locate (Disk.find?_put_self (by simp) _ _)
  rw [← hOverwritten.disk] at hThere
  exact ⟨reports, v, hRuns, hLength, hAll, _, _, _, doc', hThere, Cache.stored?_document hText', hEntries, hCreated⟩

namespace Sample

open Extraction.Sample (leads Lead)

/-- A file, and a link that leads to one once the directory of
the cache is made. -/
def plain : Item := .file [] 7

def detour : Item := .link ".cache/../a.ts"

/-- A project of a file that imports what stands beside it. -/
def beside (item : Item) : World where
  disk := ⟨[(["p"], .directory), (["p", "a.ts"], .file (Text.Utf8.encode "import './b';") 7), (["p", "b.ts"], item)]⟩
  here := ⟨⟨.root, []⟩, []⟩
  watch := ⟨0, 1⟩

/-- The same project with the directory of its cache, and with a file there. -/
def furnished (item : Item) : Disk := (beside item).disk.put ["p", ".cache"] .directory

def cached (item : Item) : World := { beside item with disk := (furnished item).put cachePlace (.file [] 0) }

def bearings : Bearings := ⟨project, {}, project, ["p"], [], ⟨.root, ["p", ".cache"]⟩⟩

variable {item : Item} {expected : List (Text × List Lead)} {report : Report}
  {i : Import} {r : Record} {p : Path}

/-- Whether an analysis finds its way in a world. -/
def orients (w : World) : Bool :=
  w.here.resolve w.disk project = .ok project &&
    w.disk.locate true project = .ok (.found ["p"] .directory) &&
    passes (fun folder _ => folder = bearings.folder) ((Config.cacheDirectory project ".cache").on w)

theorem bears_of_orients (hOrients : orients w = true) : Bears w project (some {}) bearings := by
  simp only [orients, Bool.and_eq_true, decide_eq_true_eq] at hOrients
  obtain ⟨⟨hRoot, hDirectory⟩, hFolder⟩ := hOrients
  obtain ⟨folder, w', hRun, hSame⟩ := exists_of_passes hFolder
  obtain rfl := of_decide_eq_true hSame
  exact ⟨hRoot, rfl, ⟨hRoot, hDirectory, rfl⟩, congrArg Prod.fst hRun⟩

/-- With a file and with a link beside, with the cache and without it, an
analysis of the sample finds its way. -/
theorem beside_orients : ∀ item ∈ [plain, detour], orients (beside item) = true ∧ orients (cached item) = true ∧
    (beside item).disk.Proper ∧ (beside item).disk.Grounded ∧ (cached item).disk.Proper := by
  decide +kernel

/-- No entry of the sample has too long a path. -/
theorem cached_short : ∀ item ∈ [plain, detour], ∀ e ∈ (cached item).disk.entries,
    (cached item).disk.locate true ⟨.root, e.1⟩ ≠ .error (.errno .nameTooLong) := by
  decide +kernel

/-- Whether an analysis without warnings came to records of these files,
with imports that lead there, and left a file in the directory of its cache. -/
def leaves (item : Item) (expected : List (Text × List Lead)) (report : Report)
    (w : World) : Bool :=
  report.warnings.isEmpty && report.files.map (fun r => (r.path, leads r)) = expected && w.here = (beside item).here &&
    w.disk.entries.dropLast = (furnished item).entries &&
    (w.disk.entries.getLast?.map fun e => (e.1, e.2.shape)) = some (cachePlace, .file [] 0)

/-- The first analysis of the plain project resolves the import
to the file beside. -/
theorem plain_leaves : passes (leaves plain [("/p/a.ts", [("./b", .inside, some "/p/b.ts")]), ("/p/b.ts", [])])
    ((run project true (some {})).on (beside plain)) = true := by
  decide +kernel

/-- The first analysis of the other project leaves its import unresolved:
the directory that the link goes through is made only after it. -/
theorem detour_leaves : passes (leaves detour [("/p/a.ts", [("./b", .unresolved, none)])])
    ((run project true (some {})).on (beside detour)) = true := by
  decide +kernel

/-- An analysis that left a file in the directory of its cache changed
nothing else in the shape of the disk. -/
theorem shape_of_leaves (hLeaves : leaves item expected report w = true) :
    report.warnings = [] ∧ report.files.map (fun r => (r.path, leads r)) = expected ∧
      w.here = (cached item).here ∧ w.disk.shape = (cached item).disk.shape := by
  simp only [leaves, Bool.and_eq_true, decide_eq_true_eq, List.isEmpty_iff] at hLeaves
  obtain ⟨⟨⟨⟨hWarnings, hFiles⟩, hHere⟩, hBefore⟩, hLast⟩ := hLeaves
  refine ⟨hWarnings, hFiles, hHere, ?_⟩
  obtain ⟨⟨place, last⟩, hEnd, hShape⟩ := Option.map_eq_some_iff.mp hLast
  obtain ⟨rfl, hItem⟩ := Prod.mk.inj hShape
  have hEntries : w.disk.entries = (furnished item).entries ++ [(cachePlace, last)] := by
    rw [← hBefore, List.dropLast_append_getLast? _ hEnd]
  have hCached : (cached item).disk.entries = (furnished item).entries ++ [(cachePlace, .file [] 0)] := rfl
  rw [Disk.shape, Disk.shape, hEntries, hCached, List.map_append, List.map_append, List.map_singleton,
    List.map_singleton, hItem]
  rfl

/-- On a disk of that shape the path of the cache leads to its place. -/
theorem found_of_shape (hShape : w.disk.shape = (cached item).disk.shape) :
    ∃ item, w.disk.locate false bearings.file = .ok (.found cachePlace item) := by
  have hFound : (cached item).disk.locate false bearings.file = .ok (.found cachePlace (.file [] 0)) := by rfl
  obtain ⟨item', hFound', -⟩ := Disk.locate_found_of_shape hShape hFound
  exact ⟨item', hFound'⟩

theorem short_of_shape (hItem : item ∈ [plain, detour]) (hShape : w.disk.shape = (cached item).disk.shape)
    (hBeneath : Scan.Beneath w (scanOptions {}) project p) :
    w.disk.locate true p ≠ .error (.errno .nameTooLong) := by
  intro hLong
  obtain ⟨-, hOrients, -, -, hProper⟩ := beside_orients item hItem
  have hUnlocked : (cached item).Unlocked := World.unlocked_of_no_locks rfl
  exact Scan.short_of_entries hProper hUnlocked (bears_of_orients hOrients).scan.directory (cached_short item hItem)
    (hBeneath.of_shape hShape.symm hUnlocked) (Disk.locate_error_of_shape hShape.symm hLong)

theorem mem_leads (hi : i ∈ r.imports) : (i.source, i.kind, i.resolved) ∈ leads r :=
  List.mem_map_of_mem (f := fun j => (j.source, j.kind, j.resolved)) hi

/-- The paths that the import tries lead to the same kinds of entries with
the cache as without. -/
theorem plain_tried : ∀ p ∈ Resolution.candidates (Resolution.base (Path.parse "/p/a.ts") "./b") [".ts"],
    (cached plain).hasFile p = (beside plain).hasFile p := by
  decide +kernel

/-- The plain project is steady from the first analysis on: no import of it
tries the file of the cache. -/
theorem plain_steady (hLeaves : leaves plain
    [("/p/a.ts", [("./b", .inside, some "/p/b.ts")]), ("/p/b.ts", [])] report w = true) :
    Steady (beside plain) w project (some {}) bearings report := by
  obtain ⟨-, hFiles, hHere, hShape⟩ := shape_of_leaves hLeaves
  obtain ⟨-, hOrients, -⟩ := beside_orients plain (by simp)
  refine ⟨(bears_of_orients hOrients).of_shape hShape hHere rfl rfl, fun p => short_of_shape (by simp) hShape, ?_⟩
  intro r hr i hi _ p hp
  have hRecord : (r.path, leads r) ∈
      ([("/p/a.ts", [("./b", .inside, some "/p/b.ts")]), ("/p/b.ts", [])] : List (Text × List Lead)) := by
    rw [← hFiles]
    exact List.mem_map_of_mem hr
  have hImport := mem_leads hi
  simp only [List.mem_cons, Prod.mk.injEq, List.not_mem_nil, or_false] at hRecord
  rcases hRecord with ⟨hPath, hLeads⟩ | ⟨-, hLeads⟩ <;> rw [hLeads] at hImport
  · obtain ⟨hSource, -⟩ := Prod.mk.inj (List.mem_singleton.mp hImport)
    rw [hPath, hSource] at hp
    rw [hasFile_of_shape hShape hHere]
    exact plain_tried p hp
  · cases hImport

/-- Analyses of two files, one of which imports the other,
repeat each other. -/
theorem siblings_repeat : ∃ report w entries createdAt,
    (run project true (some {})).on (beside plain) = (.ok report, w) ∧ report.files.length = 2 ∧
    ∀ n, ∃ reports v, (runs project (some {}) n).on w = (.ok reports, v) ∧ reports.length = n ∧
      (∀ later ∈ reports, Repeats report later) ∧ Stores v bearings.file entries createdAt := by
  obtain ⟨report, w, hRun, hLeaves⟩ := exists_of_passes plain_leaves
  obtain ⟨hWarnings, hFiles, -, hShape⟩ := shape_of_leaves hLeaves
  obtain ⟨hOrients, -, hProper, hGrounded, -⟩ := beside_orients plain (by simp)
  obtain ⟨item, hFound⟩ := found_of_shape hShape
  obtain ⟨entries, createdAt, hAll⟩ := later_analyses_repeat hProper hGrounded (World.unlocked_of_no_locks rfl)
    (bears_of_orients hOrients) (by decide) hRun (by simp [hWarnings]) hFound (plain_steady hLeaves)
    fun v bytes _ => ⟨rfl, rfl⟩
  exact ⟨report, w, entries, createdAt, hRun, by simpa using congrArg List.length hFiles, hAll⟩

/-- Two analyses one after another, of which the first saved its cache and
no import tries the file of the cache. -/
structure Twice (w : World) (config : Config) (report later : Report) : Prop where
  proper : w.disk.Proper
  grounded : w.disk.Grounded
  unlocked : w.Unlocked
  extensions : ∀ ext ∈ config.extensions, ¬ ext.toList <:+ Config.cacheFileName.toList
  runs : ∃ v v', (run project true (some config)).on w = (.ok report, v) ∧
    (run project true (some config)).on v = (.ok later, v')
  quiet : report.warnings = []
  untried : ∀ r ∈ report.files, ∀ i ∈ r.imports, ∀ p ∈
    Resolution.candidates (Resolution.base (Path.parse r.path) i.source) config.extensions, p ≠ bearings.file

/-- The record with its imports as they lead once the cache is there. -/
def detoured (r : Record) : Record :=
  { r with imports := r.imports.map fun i => { i with kind := .inside, resolved := some "/p/b.ts" } }

theorem leads_detoured (r : Record) : leads (detoured r) = (leads r).map fun t => (t.1, ImportKind.inside, some ("/p/b.ts" : Text)) := by
  simp [leads, detoured]

/-- With the directory there, the import leads through the link
to the file itself. -/
theorem detour_classified :
    Resolution.classify (cached detour) (Path.parse "/p/a.ts") [".ts"] "./b" = .ok (.inside, some "/p/b.ts") := by
  decide +kernel

theorem detour_untried : ∀ p ∈ Resolution.candidates (Resolution.base (Path.parse "/p/a.ts") "./b") [".ts"],
    p ≠ bearings.file := by
  decide +kernel

/-- Looking the record up again gives its import the file that the link
leads to now. -/
theorem detour_refreshed (hHere : w.here = (cached detour).here) (hShape : w.disk.shape = (cached detour).disk.shape)
    (hPath : r.path = "/p/a.ts") (hLeads : leads r = ([("./b", .unresolved, none)] : List Lead)) :
    Resolution.refresh w [".ts"] r = .ok (detoured r) := by
  refine Resolution.refresh_eq_ok_iff.mpr ⟨rfl, mapM_eq_ok_of_forall ?_⟩
  intro i hi
  have hImport := mem_leads hi
  simp only [hLeads, List.mem_singleton, Prod.mk.injEq] at hImport
  obtain ⟨hSource, hKind, -⟩ := hImport
  rw [Resolution.refreshImport_of_inner (by simp [hKind]), hPath, hSource,
    Resolution.classify_eq fun _ p _ => hasFile_of_shape hShape hHere p, detour_classified]
  rfl

/-- The next analysis finds what is imported by way of the directory that
was made for the cache. -/
theorem detour_found : ∃ report later, Twice (beside detour) {} report later ∧ later.files ≠ report.files := by
  obtain ⟨report, w, hRun, hLeaves⟩ := exists_of_passes detour_leaves
  obtain ⟨hWarnings, hFiles, hHere, hShape⟩ := shape_of_leaves hLeaves
  obtain ⟨hOrients, hOrients', hProper, hGrounded, -⟩ := beside_orients detour (by simp)
  have hUnlocked : (beside detour).Unlocked := World.unlocked_of_no_locks rfl
  have hBears := bears_of_orients hOrients
  obtain ⟨item, hFound⟩ := found_of_shape hShape
  have hEach : ∀ r ∈ report.files, r.path = "/p/a.ts" ∧ leads r = ([("./b", .unresolved, none)] : List Lead) := by
    intro r hr
    have hRecord : (r.path, leads r) ∈ ([("/p/a.ts", [("./b", .unresolved, none)])] : List (Text × List Lead)) := by
      rw [← hFiles]
      exact List.mem_map_of_mem hr
    exact Prod.mk.inj (List.mem_singleton.mp hRecord)
  -- the next analysis finds the same files, and an import that leads elsewhere
  obtain ⟨found, rs, doc, hSaves⟩ := saves_of_run hProper hUnlocked hBears hRun (by simp [hWarnings])
  obtain ⟨d, directory, text, -, hText, hLeft⟩ := hSaves.left hProper hUnlocked hBears hFound
  obtain ⟨x, time, cycles, rfl, -, -, hReport⟩ := hSaves.report
  have hRecords : report.files = x.1.records.map Classification.classify := by
    rw [hReport]
    rfl
  have hMade : ∀ r ∈ x.1.records, r.path = "/p/a.ts" ∧ leads r = ([("./b", .unresolved, none)] : List Lead) := by
    intro r hr
    exact hEach (Classification.classify r) (hRecords ▸ List.mem_map_of_mem hr)
  obtain ⟨doc', hResumes, -⟩ := hSaves.resumes hProper hGrounded hUnlocked hBears (by decide) hLeft
    ((bears_of_orients hOrients').of_shape hShape hHere rfl rfl) (fun p => short_of_shape (by simp) hShape)
    (fun r hr => detour_refreshed hHere hShape (hMade r hr).1 (hMade r hr).2) (hLeft.rewritten hText hSaves.covers)
  obtain ⟨time', cycles', w', -, hRun', -⟩ := hResumes.run
  refine ⟨report, _, ⟨hProper, hGrounded, hUnlocked, by decide, ⟨w, w', hRun, hRun'⟩, hWarnings, ?_⟩, ?_⟩
  · intro r hr i hi p hp
    have hImport := mem_leads hi
    simp only [(hEach r hr).2, List.mem_singleton, Prod.mk.injEq] at hImport
    rw [(hEach r hr).1, hImport.1] at hp
    exact detour_untried p hp
  · intro hSame
    obtain ⟨r, hr⟩ : ∃ r, r ∈ x.1.records := by
      apply List.exists_mem_of_ne_nil
      rintro hNone
      rw [hRecords, hNone] at hFiles
      cases hFiles
    have hLater : Classification.classify (detoured r) ∈ report.files := by
      rw [← hSame]
      exact List.mem_map_of_mem (List.mem_map_of_mem hr)
    have hLeads : leads (detoured r) = ([("./b", .unresolved, none)] : List Lead) := (hEach _ hLater).2
    rw [leads_detoured, (hMade r hr).2] at hLeads
    cases hLeads

/-- A project whose configuration names the directory of the cache by a link
at the place of its file. -/
def linked : World where
  disk := ⟨[(["p"], .directory), (["p", "a.ts"], .file [] 7), (["p", ".cache"], .directory), (cachePlace, .link ".")]⟩
  here := ⟨⟨.root, []⟩, []⟩
  watch := ⟨0, 1⟩

def byLink : Config := { cacheDir := ".cache/analysis-cache.json" }

/-- Where the file of the cache is a link to its own directory, the second
analysis is without warnings as well and finds nothing in the cache. -/
theorem linked_misses : passes (fun report w => report.warnings.isEmpty && report.files.all (·.imports.isEmpty) &&
    passes (fun later _ => later.summary.totalFiles = 1 && later.summary.cacheHits = 0)
      ((run project true (some byLink)).on w)) ((run project true (some byLink)).on linked) = true := by
  decide +kernel

/-- What saving the cache does to a project can make the next analysis
differ: an import leads elsewhere, or the cache is looked for elsewhere. -/
theorem disturbed_analyses_differ :
    (∃ report later, Twice (beside detour) {} report later ∧ later.files ≠ report.files) ∧
    ∃ report later, Twice linked byLink report later ∧ later.summary.cacheHits ≠ later.summary.totalFiles := by
  refine ⟨detour_found, ?_⟩
  obtain ⟨report, w, hRun, hRest⟩ := exists_of_passes linked_misses
  simp only [Bool.and_eq_true, List.isEmpty_iff, List.all_eq_true] at hRest
  obtain ⟨⟨hWarnings, hImports⟩, hNext⟩ := hRest
  obtain ⟨later, w', hRun', hCounts⟩ := exists_of_passes hNext
  simp only [Bool.and_eq_true, decide_eq_true_eq] at hCounts
  refine ⟨report, later, ⟨by decide, by decide, World.unlocked_of_no_locks rfl, by decide, ⟨w, w', hRun, hRun'⟩, hWarnings, ?_⟩, ?_⟩
  · intro r hr i hi
    rw [hImports r hr] at hi
    cases hi
  · rw [hCounts.1, hCounts.2]
    decide

end Sample

end SourceAtlas.Analysis
