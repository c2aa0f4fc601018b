import SourceAtlas.Proofs.Analysis.Files
import SourceAtlas.Proofs.Cache.Store
import SourceAtlas.Proofs.Graph.Cycles
import SourceAtlas.Proofs.Scan

/-!
The stages of an analysis. Until its records are complete it only looks; then it may save its
cache, and nothing else on the disk changes.
-/
namespace SourceAtlas.Analysis

open SourceAtlas.Action Number

/-- What is known before single files are looked at. -/
structure Plan where
  root : Path
  config : Config
  scan : Scan

/-- The configuration that is given, or that of the project. -/
def configOf (root : Path) (given : Option Config) : Action Config :=
  match given with
  | some c => pure c
  | none => Config.load root

/-- Find the root, the configuration and the files. -/
def start (root : Path) (given : Option Config) : Action Plan := do
  let root ← Action.resolve root
  let config ← configOf root given
  let (_, scan) ← Scan.project (scanOptions config) root
  Action.log .info .analysis
    ("Found " ++ Style.natText scan.files.length ++ " source files under " ++ root.text)
  return ⟨root, config, scan⟩

def openIf (useCache : Bool) (plan : Plan) : Action (Option Cache × List Warning) := do
  if useCache then do
    let (cache, warnings) ← openCache plan.root plan.config
    pure (some cache, warnings)
  else pure (none, [])

def loadWarnings (c : Cache) : List Warning :=
  c.problem.toList.map fun m => ⟨.cache, m, some c.file.text⟩

/-- What is said of an attempt to save a cache. -/
def saveWarnings (file : Path) : Except SystemError Cache → List Warning
  | .ok _ => []
  | .error e => [⟨.cache, "Cannot write cache: " ++ e.message, some file.text⟩]

def collect (useCache : Bool) (plan : Plan) : Action (Progress × Option Cache × List Warning) := do
  let opened ← openIf useCache plan
  let progress ← plan.scan.files.foldlM (addFile plan.root plan.config.extensions) { cache := opened.1 }
  return (progress, opened)

/-- Find the cycles, save the cache and sum up. -/
def finish (plan : Plan) (collected : Progress × Option Cache × List Warning) : Action Report := do
  let (progress, cache, loadWarnings) := collected
  let records := progress.records.map Classification.classify
  let graph := DependencyGraph.ofRecords records
  let cycles ← findCycles graph
  let saveWarnings ← finishCache progress plan.scan.files
  Action.log .info .analysis ("Graph has " ++ Style.natText graph.nodes.length ++ " nodes, " ++
    Style.natText graph.edges.length ++ " edges and " ++ Style.natText cycles.length ++ " cycles")
  let warnings :=
    scanWarnings plan.scan ++ loadWarnings ++ extractionWarnings progress.records ++ saveWarnings
  let use : CacheUse := ⟨cache.isSome, progress.hits, progress.misses⟩
  return reportOf plan.root plan.config (← Action.now) records graph cycles warnings use

/-- An analysis goes through its stages in order: it starts with a plan,
collects the records and finishes with the report. -/
theorem run_eq (root : Path) (useCache : Bool) (given : Option Config) :
    run root useCache given =
      start root given >>= fun plan => collect useCache plan >>= finish plan := by
  cases given <;> cases useCache <;>
    simp only [run, start, collect, finish, configOf, openIf, bind_assoc, pure_bind, Bool.false_eq_true,
      if_true, if_false]

theorem looks_configOf (root : Path) (given : Option Config) : Looks (configOf root given) := by
  cases given with
  | some c => exact looks_pure _
  | none =>
      refine (looks_ask _ _).bind fun present => ?_
      split
      · refine (looks_readBytes _).attempt.bind fun content => ?_
        split
        · exact looks_throw _
        · split
          · exact looks_pure _
          · exact looks_throw _
      · exact looks_pure _

/-- Finding out what there is to do leaves the disk as it was. -/
theorem looks_start (root : Path) (given : Option Config) : Looks (start root given) :=
  (looks_resolve root).bind fun root => (looks_configOf root given).bind fun _ =>
    (Scan.looks_project _ _).bind fun _ => (looks_log _ _ _).bind fun _ => looks_pure _

theorem looks_cacheDirectory (root : Path) (dir : Text) : Looks (Config.cacheDirectory root dir) := by
  rw [Config.cacheDirectory]
  split
  · exact looks_throw _
  · split
    · exact looks_throw _
    · refine (looks_canonical _).bind fun base => (looks_canonical _).bind fun path => ?_
      split
      · exact looks_pure _
      · exact looks_throw _

theorem looks_cacheFile (root : Path) (c : Config) : Looks (c.cacheFile root) :=
  (looks_cacheDirectory root c.cacheDir).bind fun _ => looks_pure _

/-- Opening a cache leaves the disk as it was: a file that is not usable is
not removed. -/
theorem looks_openCache (root : Path) (c : Config) : Looks (openCache root c) := by
  refine (looks_cacheFile root c).bind fun file => (Cache.looks_load _).bind fun loaded => ?_
  obtain ⟨cache, found⟩ := loaded
  dsimp only
  split <;> exact looks_pure _

theorem looks_openIf (useCache : Bool) (plan : Plan) : Looks (openIf useCache plan) := by
  rw [openIf]
  split
  · exact (looks_openCache _ _).bind fun _ => looks_pure _
  · exact looks_pure _

/-- Getting the records of all files leaves the disk as it was, with the
cache in use or not. -/
theorem looks_collect (useCache : Bool) (plan : Plan) : Looks (collect useCache plan) :=
  (looks_openIf useCache plan).bind fun _ =>
    (looks_foldlM (looks_addFile _ _) _ _).bind fun _ => looks_pure _

/-- Finding cycles reads no file. -/
theorem looks_findCycles (g : DependencyGraph) : Looks (findCycles g) := by
  rw [findCycles]
  split
  · exact looks_throw _
  · exact (looks_log _ _ _).bind fun _ => looks_pure _

/-- A plan for a root: its root is the canonical form, and its files were
found below. -/
structure Planned (d : Disk) (here : Standpoint) (root : Path) (plan : Plan) : Prop where
  root : here.resolve d root = .ok plan.root
  scan : ∃ start, d.canonical plan.root = .ok start ∧ start.Named ∧ Scan.Sound d start plan.scan

/-- The root of a plan is the canonical form of the root that was asked for,
and its files were found below it. -/
theorem gives_start {d : Disk} (hProper : d.Proper) (here : Standpoint) (root : Path) (given : Option Config) :
    Gives d here (start root given) (Planned d here root) := by
  refine (gives_resolve root).bind (looks_resolve root) fun root hRoot => ?_
  refine (gives_true _).bind (looks_configOf root given) fun config _ => ?_
  refine (Scan.gives_project hProper _ root).bind (Scan.looks_project _ _) fun found hFound => ?_
  refine (gives_true _).bind (looks_log _ _ _) fun _ _ => ?_
  rw [Standpoint.resolve_of_absolute (Standpoint.resolve_isAbsolute hRoot)] at hFound
  exact gives_pure ⟨hRoot, found.1, hFound⟩

/-- Every file of a plan is there. -/
theorem Planned.content {w : World} {root path : Path} {plan : Plan}
    (hPlanned : Planned w.disk w.here root plan) (hPath : path ∈ plan.scan.files) :
    ∃ bytes, w.content? path = some bytes := by
  obtain ⟨_, -, -, hSound⟩ := hPlanned.scan
  have hFound := hSound.found path hPath
  obtain ⟨place, bytes, mtime, hLocate⟩ := hFound.file
  refine ⟨bytes, World.content?_eq_some_iff.mpr ⟨place, mtime, ?_⟩⟩
  rw [Path.join_of_absolute (by simp [Path.isAbsolute, hFound.anchor])]
  exact hLocate

/-- The files of a plan are there, and no two have the same name. So records
of a plan are told apart by their paths. -/
theorem Planned.files {w : World} {root : Path} {plan : Plan} (hPlanned : Planned w.disk w.here root plan) :
    (∀ path ∈ plan.scan.files, path.Named ∧ ∃ bytes, w.content? path = some bytes) ∧
      (plan.scan.files.map Path.text).Nodup := by
  obtain ⟨_, -, -, hSound⟩ := hPlanned.scan
  constructor
  · intro path hPath
    exact ⟨(hSound.found path hPath).named, hPlanned.content hPath⟩
  · apply hSound.nodup.map_on
    intro p hp q hq hText
    exact Path.text_injective (hSound.found p hp).named.readable (hSound.found q hq).named.readable hText

/-- The file of the cache has an absolute path made of
names if the root has. -/
theorem gives_cacheFile {d : Disk} {here : Standpoint} {root base : Path} (hBase : d.canonical (here.join root) = .ok base)
    (hNamed : base.Named) (c : Config) :
    Gives d here (c.cacheFile root) fun file => file.isAbsolute = true ∧ file.Named ∧
      Sign.char (Char.ofNat 0) ∉ file.name.toList := by
  have hDirectory : Gives d here (Config.cacheDirectory root c.cacheDir) fun path =>
      path.isAbsolute = true ∧ path.Named := by
    rw [Config.cacheDirectory]
    split
    · exact gives_throw _
    · split
      · exact gives_throw _
      · refine (gives_canonical root).bind (looks_canonical _) fun base' hBase' => ?_
        obtain rfl := Except.ok.inj (hBase.symm.trans hBase')
        refine (gives_canonical _).bind (looks_canonical _) fun path hPath => ?_
        split
        · have hAbsolute : base.isAbsolute = true := Disk.canonical_isAbsolute hBase
          rw [Path.join_of_absolute (Path.join_isAbsolute hAbsolute _)] at hPath
          refine gives_pure ⟨Disk.canonical_isAbsolute hPath, ?_⟩
          exact Disk.canonical_named (Path.join_readable hNamed.readable (Path.parse_readable _)) hPath
        · exact gives_throw _
  refine hDirectory.bind ?_ fun directory hDirectory => gives_pure ?_
  · exact looks_cacheDirectory root c.cacheDir
  · have hParts : (directory.join (Path.parse Config.cacheFileName)).parts =
        directory.parts ++ [Config.cacheFileName] := rfl
    refine ⟨Path.join_isAbsolute hDirectory.1 _, fun n hn => ?_, ?_⟩
    · rw [hParts] at hn
      rcases List.mem_append.mp hn with hn | hn
      · exact hDirectory.2 n hn
      · obtain rfl := List.mem_singleton.mp hn
        refine ⟨⟨?_, ?_, ?_⟩, ?_⟩ <;> decide
    · rw [Path.name, hParts, List.getLast?_append]
      show Sign.char (Char.ofNat 0) ∉ Config.cacheFileName.toList
      decide

/-- An entry of the document in the file at a place. -/
def Held (d : Disk) (place : Place) (e : CacheEntry) : Prop :=
  ∃ bytes mtime doc, d.find? place = some (.file bytes mtime) ∧ Cache.held? bytes = some doc ∧
    e ∈ doc.entries

/-- An entry of the document in the file that a path leads to. -/
def HeldAt (d : Disk) (file : Path) (e : CacheEntry) : Prop :=
  ∃ place item, d.locate true file = .ok (.found place item) ∧ Held d place e

/-- A cache that was opened: its entries are those that its file holds. -/
structure Opened (w : World) (plan : Plan) (c : Cache) : Prop where
  file : ∃ v v', v.disk = w.disk ∧ v.here = w.here ∧
    (plan.config.cacheFile plan.root).on v = (.ok c.file, v')
  absolute : c.file.isAbsolute = true
  named : c.file.Named
  last : Sign.char (Char.ofNat 0) ∉ c.file.name.toList
  version : c.version = 1
  entries : Entries (HeldAt w.disk c.file) (some c)

/-- A cache that is opened has no entries but those that its file holds, and
what is warned of is the cache. -/
theorem gives_openCache {w : World} {root : Path} {plan : Plan} (hPlanned : Planned w.disk w.here root plan) :
    Gives w.disk w.here (openCache plan.root plan.config) fun opened => Opened w plan opened.1 ∧
      ∀ x ∈ opened.2, x.kind = .cache := by
  obtain ⟨base, hBase, hNamed, -⟩ := hPlanned.scan
  have hAbsolute : plan.root.isAbsolute = true := Standpoint.resolve_isAbsolute hPlanned.root
  rw [← Path.join_of_absolute hAbsolute w.here] at hBase
  have hFile : Gives w.disk w.here (plan.config.cacheFile plan.root) fun file =>
      (∃ v v', v.disk = w.disk ∧ v.here = w.here ∧
        (plan.config.cacheFile plan.root).on v = (.ok file, v')) ∧
      file.isAbsolute = true ∧ file.Named ∧ Sign.char (Char.ofNat 0) ∉ file.name.toList :=
    fun v file v' hDisk hHere hRun => ⟨⟨v, v', hDisk, hHere, hRun⟩,
      gives_cacheFile hBase hNamed plan.config v file v' hDisk hHere hRun⟩
  refine hFile.bind (looks_cacheFile _ _) fun file hFile => ?_
  have hLoad : Gives w.disk w.here (Cache.load { file := file, project := plan.root }) fun loaded =>
      Opened w plan loaded.1 := by
    rintro v ⟨c, found⟩ v' hDisk hHere hRun
    obtain ⟨rfl, -, hVersion, hEntries⟩ := Cache.load_entries rfl hRun
    refine ⟨hFile.1, hFile.2.1, hFile.2.2.1, hFile.2.2.2, hVersion, ?_⟩
    intro c' hSame p hp
    obtain rfl := Option.some.inj hSame
    obtain ⟨place, bytes, mtime, doc, hLocate, hHeld, hMem, hKey⟩ := hEntries p hp
    rw [Path.join_of_absolute hFile.2.1, hDisk] at hLocate
    exact ⟨hKey, place, _, hLocate, bytes, mtime, doc, Disk.find?_of_locate hLocate, hHeld, hMem⟩
  refine hLoad.bind (Cache.looks_load _) fun loaded hOpened => ?_
  obtain ⟨c, found⟩ := loaded
  dsimp only
  split
  · exact gives_pure ⟨hOpened, by simp⟩
  · exact gives_pure ⟨hOpened, by simp⟩

/-- A cache is opened by loading the file of the project's cache. -/
theorem openIf_on_ok {plan : Plan} {opened : Option Cache × List Warning} {w w' : World}
    (hOpen : (openIf true plan).on w = (.ok opened, w')) :
    ∃ file v c found, (plan.config.cacheFile plan.root).on w = (.ok file, v) ∧
      (Cache.load { file := file, project := plan.root }).on v = (.ok (c, found), w') ∧
      opened = (some c, loadWarnings c) := by
  obtain ⟨⟨c, warnings⟩, w₁, hCache, hResult⟩ := of_on_bind hOpen
  cases hResult
  obtain ⟨file, v, hFile, hRest⟩ := of_on_bind hCache
  obtain ⟨⟨c', found⟩, w₂, hLoad, hSaid⟩ := of_on_bind hRest
  have hSame : (.ok (c', loadWarnings c'), w₂) = ((.ok (c, warnings), w') : Except Failure _ × World) := by
    rw [← hSaid, loadWarnings]
    dsimp only
    cases c'.problem <;> rfl
  cases hSame
  exact ⟨file, v, c, found, hFile, hLoad, rfl⟩

/-- An entry of which an analysis knows where it comes from: it made the
entry, or opened it. -/
def Known (w : World) (plan : Plan) (opened : Option Cache) (e : CacheEntry) : Prop :=
  Made w plan.root e ∨ ∃ c, opened = some c ∧ HeldAt w.disk c.file e

/-- The records of an analysis, with the cache as it was opened and the
warnings about that. -/
structure Collected (w : World) (plan : Plan) (useCache : Bool)
    (x : Progress × Option Cache × List Warning) : Prop where
  cached : x.2.1.isSome = useCache
  opened : ∀ c, x.2.1 = some c → Opened w plan c
  added : Added (Known w plan x.2.1) plan.root plan.scan.files { cache := x.2.1 } x.1
  warnings : ∀ m ∈ x.2.2, m.kind = .cache

/-- There is a cache to use exactly when one is asked for. -/
theorem gives_openIf {w : World} {root : Path} {plan : Plan} (hPlanned : Planned w.disk w.here root plan)
    (useCache : Bool) : Gives w.disk w.here (openIf useCache plan) fun opened =>
      opened.1.isSome = useCache ∧ (∀ c, opened.1 = some c → Opened w plan c) ∧
        ∀ m ∈ opened.2, m.kind = .cache := by
  rw [openIf]
  split
  · next hUse =>
    refine (gives_openCache hPlanned).bind (looks_openCache _ _) fun opened hOpened => gives_pure ?_
    refine ⟨hUse.symm, fun c hc => ?_, hOpened.2⟩
    obtain rfl := Option.some.inj hc
    exact hOpened.1
  · next hUse => exact gives_pure ⟨by simpa using hUse, nofun, by simp⟩

/-- There is a record for each planned file, and each entry of the cache
comes from its file or was made by this run. -/
theorem gives_collect {w : World} {root : Path} {plan : Plan} (hPlanned : Planned w.disk w.here root plan)
    (useCache : Bool) : Gives w.disk w.here (collect useCache plan) (Collected w plan useCache) := by
  refine (gives_openIf hPlanned useCache).bind (looks_openIf _ _) fun opened hOpened => ?_
  obtain ⟨_, -, -, hSound⟩ := hPlanned.scan
  have hEntries : Entries (Known w plan opened.1) opened.1 := by
    intro c hc p hp
    obtain ⟨hKey, hHeld⟩ := (hOpened.2.1 c hc).entries c rfl p hp
    exact ⟨hKey, .inr ⟨c, hc, hHeld⟩⟩
  refine (gives_addFiles (fun p hp e hFresh => .inl (hFresh.made (hSound.found p hp).named))
    (p := { cache := opened.1 }) hEntries).bind (looks_foldlM (looks_addFile _ _) _ _)
    fun progress hAdded => gives_pure ?_
  exact ⟨hOpened.1, hOpened.2.1, hAdded, hOpened.2.2⟩

/-- What is collected comes with the cache as it was opened. -/
theorem collect_opened {useCache : Bool} {plan : Plan} {x : Progress × Option Cache × List Warning}
    {w w' : World} (hCollect : (collect useCache plan).on w = (.ok x, w')) :
    ∃ v, (openIf useCache plan).on w = (.ok x.2, v) := by
  obtain ⟨opened, v, hOpen, hRest⟩ := of_on_bind hCollect
  obtain ⟨progress, v', -, hResult⟩ := of_on_bind hRest
  obtain rfl := Except.ok.inj (Prod.mk.inj hResult).1
  exact ⟨v, hOpen⟩

/-- Finishing saves the cache at most, with some of the entries that it has. -/
theorem finishCache_savedFrom {p : Progress} {c : Cache} (hCache : p.cache = some c)
    (hVersion : c.version = 1) (hAbsolute : c.file.isAbsolute = true) (hNamed : c.file.Named)
    (files : List Path) :
    Moves (Cache.SavedFrom c) (finishCache p files) := by
  have hSave : Moves (Cache.SavedFrom (c.keepOnly files)) (c.keepOnly files).save :=
    Cache.save_savedFrom hVersion hAbsolute hNamed
  have hSaveCache : Moves (Cache.SavedFrom c) (saveCache c files) := by
    intro w
    obtain ⟨w₁, hLooked, hPrune⟩ := c.prune_on files w
    rw [saveCache, on_bind_ok hPrune]
    refine (Cache.savedFrom_then_looks hSave.attempt (fun result => ?_) w₁).of_keepOnly.after_looked hLooked
    split
    · exact looks_pure _
    · exact (looks_log _ _ _).bind fun _ => looks_pure _
  rw [finishCache, hCache]
  refine Cache.savedFrom_then_looks hSaveCache fun warnings => ?_
  dsimp only
  split
  · exact (looks_log _ _ _).bind fun _ => looks_pure _
  · exact looks_pure _

/-- The end of an analysis saves the entries of its cache, or nothing if
there is none or it is refused. -/
theorem finish_savedFrom (plan : Plan) {x : Progress × Option Cache × List Warning} {c : Cache}
    (hCache : x.1.cache = some c) (hVersion : c.version = 1) (hAbsolute : c.file.isAbsolute = true)
    (hNamed : c.file.Named) : Moves (Cache.SavedFrom c) (finish plan x) := by
  refine Cache.savedFrom_after_looks (looks_findCycles _) fun cycles => ?_
  refine Cache.savedFrom_then_looks
    (finishCache_savedFrom hCache hVersion hAbsolute hNamed plan.scan.files) fun warnings => ?_
  exact (looks_log _ _ _).bind fun _ => looks_now.bind fun _ => looks_pure _

/-- Without a cache, finishing leaves the disk as it was. -/
theorem looks_finish {plan : Plan} {x : Progress × Option Cache × List Warning}
    (hCache : x.1.cache = none) : Looks (finish plan x) := by
  refine (looks_findCycles _).bind fun cycles => ?_
  rw [finishCache, hCache]
  exact (looks_pure _).bind fun _ => (looks_log _ _ _).bind fun _ => looks_now.bind fun _ => looks_pure _

/-- What an analysis does to the disk, whether it gives a report or
stops: nothing, or it saves a cache of entries of which it knows
where they come from. -/
inductive RunEffect (w : World) (root : Path) (useCache : Bool) (w' : World) : Prop where
  | none (hHere : w'.here = w.here) (hDisk : w'.disk = w.disk)
  | saved {start : Path} {c : Cache} (hUse : useCache = true)
      (hRoot : w.here.resolve w.disk root = .ok start)
      (hEntries : ∀ p ∈ c.entries, Made w start p.2 ∨ HeldAt w.disk c.file p.2)
      (hSaved : Cache.SavedFrom c w w')

theorem RunEffect.of_looked {w w' : World} {root : Path} {useCache : Bool} (hLooked : w.Looked w') :
    RunEffect w root useCache w' := .none hLooked.here hLooked.disk

/-- Whatever an analysis comes to, the disk is as before, or a
cache is saved of entries that were loaded for this root's plan or
made in this world. -/
theorem run_effect {w : World} (hProper : w.disk.Proper) (root : Path) (useCache : Bool)
    (given : Option Config) : RunEffect w root useCache ((run root useCache given).on w).2 := by
  rw [run_eq]
  have hStart := looks_start root given w
  rcases hPlan : (start root given).on w with ⟨e | plan, w₁⟩ <;> rw [hPlan] at hStart
  · rw [on_bind_error hPlan]
    exact .of_looked hStart
  have hPlanned := gives_start hProper w.here root given w plan w₁ rfl rfl hPlan
  rw [on_bind_ok hPlan]
  have hCollect := looks_collect useCache plan w₁
  rcases hRecords : (collect useCache plan).on w₁ with ⟨e | x, w₂⟩ <;> rw [hRecords] at hCollect
  · rw [on_bind_error hRecords]
    exact .of_looked (hStart.trans hCollect)
  have hLooked := hStart.trans hCollect
  have hCollected := gives_collect hPlanned useCache w₁ x w₂ hStart.disk hStart.here hRecords
  rw [on_bind_ok hRecords]
  cases hOpened : x.2.1 with
  | none =>
      have hNone : x.1.cache = none := by simpa [hOpened] using hCollected.added.cache
      exact .of_looked (hLooked.trans (looks_finish hNone w₂))
  | some c =>
      obtain ⟨c', hCache, hFile, hVersion⟩ : ∃ c', x.1.cache = some c' ∧ c'.file = c.file ∧
          c'.version = c.version := by
        simpa [hOpened] using hCollected.added.cache
      have hFacts := hCollected.opened c hOpened
      have hSaved := finish_savedFrom plan hCache (hVersion.trans hFacts.version)
        (hFile ▸ hFacts.absolute) (hFile ▸ hFacts.named) w₂
      refine .saved ?_ hPlanned.root (fun p hp => ?_) (hSaved.after_looked hLooked)
      · rw [← hCollected.cached, hOpened]
        rfl
      · rcases (hCollected.added.entries c' hCache p hp).2 with hMade | ⟨c'', hSame, hHeld⟩
        · exact .inl hMade
        · obtain rfl := Option.some.inj (hOpened.symm.trans hSame)
          exact .inr (hFile ▸ hHeld)

def Plan.report (plan : Plan) (x : Progress × Option Cache × List Warning) (time : Text)
    (cycles : List Cycle) (saveWarnings : List Warning) : Report :=
  let records := x.1.records.map Classification.classify
  reportOf plan.root plan.config time records (.ofRecords records) cycles
    (scanWarnings plan.scan ++ x.2.2 ++ extractionWarnings x.1.records ++ saveWarnings)
    ⟨x.2.1.isSome, x.1.hits, x.1.misses⟩

/-- The nodes of a report are named like its records. -/
theorem Plan.report_ids (plan : Plan) (x : Progress × Option Cache × List Warning) (time : Text)
    (cycles : List Cycle) (saveWarnings : List Warning) :
    (plan.report x time cycles saveWarnings).graph.nodes.map Node.id =
      (x.1.records.map Classification.classify).map Record.relativePath := by
  simp only [Plan.report, reportOf, DependencyGraph.ofRecords, List.map_map]
  rfl

/-- Finding cycles passes the detected ones on, or stops
when detection does. -/
theorem findCycles_on (g : DependencyGraph) (w : World) :
    ∃ w', w.Looked w' ∧ (findCycles g).on w = match Cycle.detect g with
      | .error id => (.error (.missingNode id), w')
      | .ok cycles => (.ok cycles, w') := by
  rw [findCycles]
  rcases Cycle.detect g with id | cycles
  · exact ⟨w, .refl w, rfl⟩
  · exact ⟨_, looks_log _ _ _ w, rfl⟩

theorem detect_of_findCycles {g : DependencyGraph} {cycles : List Cycle} {w w' : World}
    (hRun : (findCycles g).on w = (.ok cycles, w')) : Cycle.detect g = .ok cycles := by
  obtain ⟨v, -, hDetect⟩ := findCycles_on g w
  rw [hRun] at hDetect
  split at hDetect
  · cases hDetect
  · next found hFound => rw [hFound, Except.ok.inj (Prod.mk.inj hDetect).1]

/-- A cache that is finished was cut down to the files, and an attempt to
save it was made. -/
theorem finishCache_on_ok {p : Progress} {c : Cache} {files : List Path} {w w' : World}
    {warnings : List Warning} (hCache : p.cache = some c)
    (hRun : (finishCache p files).on w = (.ok warnings, w')) :
    ∃ v result v', w.Looked v ∧ (attempt (c.keepOnly files).save).on v = (.ok result, v') ∧
      v'.Looked w' ∧ warnings = saveWarnings c.file result := by
  rw [finishCache, hCache] at hRun
  obtain ⟨saved, w₁, hSave, hRest⟩ := of_on_bind hRun
  obtain ⟨v, hLooked, hPruned⟩ := c.prune_on files w
  rw [saveCache, on_bind_ok hPruned] at hSave
  obtain ⟨result, v', hAttempt, hSaid⟩ := of_on_bind hSave
  -- the warning about a refusal and the rate of hits are only logged
  have hAfter : v'.Looked w₁ ∧ saved = saveWarnings c.file result := by
    cases result with
    | ok c' =>
        obtain ⟨hSaved, rfl⟩ := Prod.mk.inj hSaid
        exact ⟨.refl v', (Except.ok.inj hSaved).symm⟩
    | error e =>
        obtain ⟨_, w₂, hLog, hPure⟩ := of_on_bind hSaid
        obtain ⟨hSaved, rfl⟩ := Prod.mk.inj hPure
        exact ⟨(looks_log _ _ _).run hLog, (Except.ok.inj hSaved).symm⟩
  have hEnd : w₁.Looked w' ∧ warnings = saved := by
    dsimp only at hRest
    split at hRest
    · obtain ⟨_, w₂, hLog, hPure⟩ := of_on_bind hRest
      obtain ⟨hSame, rfl⟩ := Prod.mk.inj hPure
      exact ⟨(looks_log _ _ _).run hLog, (Except.ok.inj hSame).symm⟩
    · obtain ⟨hSame, rfl⟩ := Prod.mk.inj hRest
      exact ⟨.refl w₁, (Except.ok.inj hSame).symm⟩
  exact ⟨v, result, v', hLooked, hAttempt, hAfter.1.trans hEnd.1, hEnd.2.trans hAfter.2⟩

theorem extractionWarnings_kind {records : List Record} :
    ∀ m ∈ extractionWarnings records, m.kind = .extraction := by
  intro m hm
  obtain ⟨r, -, hr⟩ := List.mem_filterMap.mp hm
  obtain ⟨message, -, rfl⟩ := Option.map_eq_some_iff.mp hr
  rfl

theorem saveWarnings_kind (file : Path) (result : Except SystemError Cache) :
    (saveWarnings file result).length ≤ 1 ∧ ∀ m ∈ saveWarnings file result, m.kind = .cache := by
  cases result <;> simp [saveWarnings]

theorem loadWarnings_kind (c : Cache) :
    (loadWarnings c).length ≤ 1 ∧ ∀ m ∈ loadWarnings c, m.kind = .cache := by
  rw [loadWarnings]
  cases c.problem <;> simp

/-- An attempt to save gives one warning at most, and it is about the cache. -/
theorem finishCache_warnings {p : Progress} {files : List Path} {w w' : World} {warnings : List Warning}
    (hRun : (finishCache p files).on w = (.ok warnings, w')) :
    warnings.length ≤ 1 ∧ ∀ m ∈ warnings, m.kind = .cache := by
  cases hCache : p.cache with
  | none =>
      rw [finishCache, hCache] at hRun
      obtain rfl := Except.ok.inj (Prod.mk.inj hRun).1
      simp
  | some c =>
      obtain ⟨v, result, v', -, -, -, rfl⟩ := finishCache_on_ok hCache hRun
      exact saveWarnings_kind c.file result

/-- A report is made of the records that were collected, of their cycles and
of what is said when the cache is finished. -/
theorem finish_steps {plan : Plan} {x : Progress × Option Cache × List Warning} {w w' : World}
    {report : Report} (hRun : (finish plan x).on w = (.ok report, w')) :
    ∃ time cycles saved v v', Cycle.detect (.ofRecords (x.1.records.map Classification.classify)) = .ok cycles ∧
      w.Looked v ∧ (finishCache x.1 plan.scan.files).on v = (.ok saved, v') ∧ v'.Looked w' ∧
      report = plan.report x time cycles saved := by
  obtain ⟨cycles, w₁, hCycles, hRest⟩ := of_on_bind hRun
  obtain ⟨saved, w₂, hSave, hRest⟩ := of_on_bind hRest
  obtain ⟨_, w₃, hLog, hRest⟩ := of_on_bind hRest
  obtain ⟨time, w₄, hNow, hRest⟩ := of_on_bind hRest
  obtain ⟨hReport, rfl⟩ := Prod.mk.inj hRest
  exact ⟨time, cycles, saved, w₁, w₂, detect_of_findCycles hCycles, (looks_findCycles _).run hCycles, hSave,
    ((looks_log _ _ _).run hLog).trans (looks_now.run hNow), (Except.ok.inj hReport).symm⟩

/-- A run that is finished gives the report over its records, with the
cycles of their graph and a warning if the cache was not saved. -/
theorem finish_on_ok {plan : Plan} {x : Progress × Option Cache × List Warning} {w w' : World}
    {report : Report} (hRun : (finish plan x).on w = (.ok report, w')) :
    ∃ time cycles saved, Cycle.detect (.ofRecords (x.1.records.map Classification.classify)) = .ok cycles ∧
      (∀ m ∈ saved, m.kind = .cache) ∧ report = plan.report x time cycles saved := by
  obtain ⟨time, cycles, saved, v, v', hCycles, -, hSave, -, rfl⟩ := finish_steps hRun
  exact ⟨time, cycles, saved, hCycles, (finishCache_warnings hSave).2, rfl⟩

/-- Without a cache there is a report if the cycles can be found, and
nothing is said of saving. -/
theorem finish_uncached (plan : Plan) {x : Progress × Option Cache × List Warning} {cycles : List Cycle}
    (hCache : x.1.cache = none)
    (hCycles : Cycle.detect (.ofRecords (x.1.records.map Classification.classify)) = .ok cycles)
    (w : World) : ∃ time w', (finish plan x).on w = (.ok (plan.report x time cycles []), w') := by
  obtain ⟨v, -, hDetect⟩ := findCycles_on (.ofRecords (x.1.records.map Classification.classify)) w
  rw [hCycles] at hDetect
  rw [finish]
  dsimp only
  rw [on_bind_ok hDetect, finishCache, hCache]
  exact ⟨_, _, rfl⟩

/-- Where nothing is locked, the records that are made now decide on a
report without a cache. -/
theorem run_uncached {w w₁ : World} {root : Path} {given : Option Config} {plan : Plan}
    (hProper : w.disk.Proper) (hUnlocked : w.Unlocked) (hStart : (start root given).on w = (.ok plan, w₁)) :
    match plan.scan.files.mapM (recordNow w plan.root plan.config.extensions) with
    | .error e => ∃ w', (run root false given).on w = (.error (.system e), w')
    | .ok rs => ∃ report w', (run root false given).on w = (.ok report, w') ∧
        report.graph = .ofRecords (rs.map Classification.classify) := by
  have hLooked := looks_start root given w
  rw [hStart] at hLooked
  have hPlanned := gives_start hProper w.here root given w plan w₁ rfl rfl hStart
  obtain ⟨base, -, -, hSound⟩ := hPlanned.scan
  have hFiles : ∀ path ∈ plan.scan.files, path.Named ∧ ∃ bytes, w.content? path = some bytes :=
    fun path hPath => ⟨(hSound.found path hPath).named, hPlanned.content hPath⟩
  have hFold := addFiles_unlocked plan.config.extensions hUnlocked hFiles
    (p := { cache := none }) (entries_none (Trusted w plan.root)) hLooked
  have hOpen : (openIf false plan).on w₁ = (.ok (none, []), w₁) := rfl
  rcases hRecords : plan.scan.files.mapM (recordNow w plan.root plan.config.extensions) with e | rs <;>
    rw [hRecords] at hFold
  · obtain ⟨w', hRun⟩ := hFold
    refine ⟨w', ?_⟩
    rw [run_eq, on_bind_ok hStart, collect, bind_assoc, on_bind_ok hOpen, bind_assoc]
    exact on_bind_error hRun _
  · obtain ⟨p, w₂, hRun, -, hAll⟩ := hFold
    have hCollect : (collect false plan).on w₁ = (.ok (p, none, []), w₂) := by
      rw [collect, on_bind_ok hOpen, on_bind_ok hRun, on_pure]
    have hCollected := gives_collect hPlanned false w₁ _ _ hLooked.disk hLooked.here hCollect
    obtain ⟨cycles, hCycles⟩ := Cycle.detect_ofRecords (p.records.map Classification.classify)
    obtain ⟨time, w', hFinish⟩ := finish_uncached plan (x := (p, none, []))
      (by simpa using hCollected.added.cache) hCycles w₂
    refine ⟨_, w', by rw [run_eq, on_bind_ok hStart, on_bind_ok hCollect, hFinish], ?_⟩
    simp only [Plan.report, reportOf, show p.records = rs by simpa using hAll]

end SourceAtlas.Analysis
