import SourceAtlas.Proofs.Analysis.Coherence
import SourceAtlas.Proofs.Analysis.Transparency
import SourceAtlas.Proofs.Cache.Atomicity
import SourceAtlas.Proofs.Cache.Loading

/-!
An analysis whose cache cannot be saved gives the report that it gives without a cache, and says so in one
more warning. On the disk nothing comes of the attempt.
-/
namespace SourceAtlas.Analysis

open SourceAtlas.Action Number

variable {place : Place} {past : List Visit} {w w' : World} {root : Path} {given : Option Config}

/-- Neither a file nor a link stands at a place. -/
def Vacant (d : Disk) (place : Place) : Prop := d.find? place = none ∨ d.find? place = some .directory

/-- A session up to a world in which nothing but the program ever puts a
file at the watched place. It may be taken away. -/
inductive Tended (place : Place) : List Visit → World → Prop
  | start {w : World} (hProper : w.disk.Proper) (hVacant : Vacant w.disk place) : Tended place [] w
  | edit {past : List Visit} {w w' : World} (hPast : Tended place past w) (hProper : w'.disk.Proper)
      (hPlace : w'.disk.find? place = w.disk.find? place ∨ Vacant w'.disk place) :
      Tended place (⟨w, .edited⟩ :: past) w'
  | analysis {past : List Visit} {w : World} (hPast : Tended place past w) (root : Path) (useCache : Bool)
      (given : Option Config) :
      Tended place (⟨w, .analysed root useCache given⟩ :: past) ((run root useCache given).on w).2
  | clearing {past : List Visit} {w : World} (hPast : Tended place past w) (root : Path)
      (given : Option Config) :
      Tended place (⟨w, .cleared root given⟩ :: past) ((clearCache root given).on w).2

theorem Vacant.harmless {d : Disk} (hVacant : Vacant d place) : Harmless d place := by
  rcases hVacant with hNone | hDirectory
  · exact harmless_of_none hNone
  · exact harmless_of_directory hDirectory

/-- A session in which nothing but the program writes at the place is one in
which nothing else puts a cache there. -/
theorem Tended.session (hTended : Tended place past w) : Session place past w := by
  induction hTended with
  | start hProper hVacant => exact .start hProper hVacant.harmless
  | edit _ hProper hPlace ih => exact ih.edit hProper (hPlace.imp_right Vacant.harmless)
  | analysis _ root useCache given ih => exact ih.analysis root useCache given
  | clearing _ root given ih => exact ih.clearing root given

/-- A file that stands at a place can be loaded. -/
def Loadable (d : Disk) (place : Place) : Prop :=
  ∀ bytes mtime, d.find? place = some (.file bytes mtime) → ∃ doc, Cache.held? bytes = some doc

theorem Loadable.congr {d d' : Disk} (hLoadable : Loadable d place) (hSame : d'.find? place = d.find? place) :
    Loadable d' place := fun bytes mtime hFind => hLoadable bytes mtime (hSame ▸ hFind)

/-- Where there is no file, loading does no harm. -/
theorem Vacant.loadable {d : Disk} (hVacant : Vacant d place) : Loadable d place := by
  intro bytes mtime hFind
  rcases hVacant with hNone | hDirectory
  · rw [hNone] at hFind
    cases hFind
  · rw [hDirectory] at hFind
    cases hFind

/-- Loading does no harm while the rest of the disk grows. -/
theorem Loadable.grows {d d' : Disk} (hLoadable : Loadable d place) (hGrows : d.Grows d') : Loadable d' place := by
  rcases hGrows.find? place with hSame | ⟨-, hNew⟩
  · exact hLoadable.congr hSame
  · exact Vacant.loadable (.inr hNew)

/-- Saving puts a file there that can be loaded: it holds a document of this
version. -/
theorem Loadable.saved {d d' : Disk} {file : Path} {bytes : List UInt8} {doc : CacheDocument}
    (hLoadable : Loadable d place) (hHeld : Cache.held? bytes = some doc) (hSaved : d.Saved file bytes d') :
    Loadable d' place := by
  cases hSaved with
  | failed hGrows => exact hLoadable.grows hGrows
  | @replaced d₁ d₂ arrival hGrows _ _ hThere hElse _ =>
      by_cases hPlace : place = arrival.place
      · subst hPlace
        intro bytes' mtime hFind
        rw [hThere] at hFind
        cases hFind
        exact ⟨doc, hHeld⟩
      · exact (hLoadable.grows hGrows).congr (hElse place hPlace)

/-- What only analyses wrote can be loaded. It is a document or nothing,
whatever was taken away in between. -/
theorem Tended.loadable (hTended : Tended place past w) : Loadable w.disk place := by
  induction hTended with
  | start _ hVacant => exact hVacant.loadable
  | edit _ _ hPlace ih =>
      rcases hPlace with hSame | hVacant
      · exact ih.congr hSame
      · exact hVacant.loadable
  | @analysis past w hPast root useCache given ih =>
      cases run_effect hPast.session.kept.proper root useCache given with
      | none _ hDisk => exact ih.congr (by rw [hDisk])
      | saved _ _ _ hSaved =>
          rcases hSaved.disk with hGrows | ⟨bytes, doc, hHeld, -, hDisk⟩
          · exact ih.grows hGrows
          · exact ih.saved hHeld hDisk
  | clearing _ root given ih =>
      rcases (shrunk_clearCache root given _).find? place with hSame | hGone
      · exact ih.congr hSame
      · exact Vacant.loadable (.inl hGone)

/-- Loading such a cache is no problem where its file can be opened, and so
no warning comes of it. -/
theorem problem_of_loadable {c c' : Cache} {found : Bool} (hVersion : c.version = 1)
    (hUnlocked : w.Unlocked) (hLoad : c.load.on w = (.ok (c', found), w'))
    (hLoadable : ∀ q item, w.disk.locate true (w.here.join c.file) = .ok (.found q item) → Loadable w.disk q) :
    c'.problem = none := by
  rw [← Option.not_isSome_iff_eq_none, (Cache.load_outcome hLoad).problem_iff]
  rintro ⟨bytes, ⟨q, mtime, hLocate⟩, hLocked | hCorrupt⟩
  · exact hLocked (hUnlocked _)
  · obtain ⟨doc, hHeld⟩ := hLoadable q _ hLocate bytes mtime (Disk.find?_of_locate hLocate)
    have hUsable := (Cache.readBytes_eq_usable_iff hVersion).mpr hHeld
    rcases c.readBytes_cases bytes with ⟨doc', -, hHolds⟩ | ⟨message, hOther, -⟩ | ⟨message, hOther, -⟩
    · exact hCorrupt.not_holds hHolds
    · rw [hUsable] at hOther
      cases hOther
    · rw [hUsable] at hOther
      cases hOther

/-- Of such a cache nothing is said when it is opened. All that a report can
say of it comes from saving. -/
theorem openIf_silent {plan : Plan} {opened : Option Cache × List Warning} {v : World}
    (hUnlocked : w.Unlocked) (hLooked : w.Looked v)
    (hLoadable : ∀ c, Opened w plan c → ∀ q item, w.disk.locate true c.file = .ok (.found q item) → Loadable w.disk q)
    (hOpened : ∀ c, opened.1 = some c → Opened w plan c)
    (hOpen : (openIf true plan).on v = (.ok opened, w')) : opened.2 = [] := by
  obtain ⟨file, u, c, found, hFile, hLoad, rfl⟩ := openIf_on_ok hOpen
  have hBefore := hLooked.trans ((looks_cacheFile _ _).run hFile)
  have hFacts := hOpened c rfl
  have hSame : c.file = file := (Cache.load_outcome hLoad).kept.1
  have hProblem : c.problem = none := by
    refine problem_of_loadable rfl (hBefore.unlocked hUnlocked) hLoad fun q item hLocate => ?_
    rw [hBefore.disk] at hLocate ⊢
    refine hLoadable c hFacts q item ?_
    rwa [hSame, ← show u.here.join file = file from Path.join_of_absolute (hSame ▸ hFacts.absolute) u.here]
  rw [loadWarnings, hProblem]
  rfl

/-- Save a cache as an analysis does, while the system may refuse
to go on writing. -/
def saveCacheAmid (fault : Option (List UInt8 × SystemError)) (cache : Cache) (files : List Path) :
    Action (List Warning) := do
  let (cache, _) ← cache.prune files
  match ← Action.attempt (cache.saveAmid fault) with
  | .ok _ => return []
  | .error e =>
    Action.log .warning .analysis ("Cannot write cache " ++ cache.file.text ++ ": " ++ e.message)
    return [⟨.cache, "Cannot write cache: " ++ e.message, some cache.file.text⟩]

def finishCacheAmid (fault : Option (List UInt8 × SystemError)) (p : Progress) (files : List Path) :
    Action (List Warning) := do
  match p.cache with
  | none => return []
  | some cache =>
    let warnings ← saveCacheAmid fault cache files
    let total := p.records.length
    if total ≠ 0 then
      Action.log .info .analysis ("Cache hit rate: " ++ Style.natText p.hits ++ "/" ++
        Style.natText total ++ " (" ++ percentText p.hits total ++ "%)")
    return warnings

def finishAmid (fault : Option (List UInt8 × SystemError)) (plan : Plan)
    (collected : Progress × Option Cache × List Warning) : Action Report := do
  let (progress, cache, loadWarnings) := collected
  let records := progress.records.map Classification.classify
  let graph := DependencyGraph.ofRecords records
  let cycles ← findCycles graph
  let saveWarnings ← finishCacheAmid fault progress plan.scan.files
  Action.log .info .analysis ("Graph has " ++ Style.natText graph.nodes.length ++ " nodes, " ++
    Style.natText graph.edges.length ++ " edges and " ++ Style.natText cycles.length ++ " cycles")
  let warnings :=
    scanWarnings plan.scan ++ loadWarnings ++ extractionWarnings progress.records ++ saveWarnings
  let use : CacheUse := ⟨cache.isSome, progress.hits, progress.misses⟩
  return reportOf plan.root plan.config (← Action.now) records graph cycles warnings use

/-- An analysis whose cache is saved while the system may refuse
to go on writing. -/
def runAmid (fault : Option (List UInt8 × SystemError)) (root : Path) (useCache : Bool) (given : Option Config) :
    Action Report :=
  start root given >>= fun plan => collect useCache plan >>= finishAmid fault plan

/-- Without a refusal of that kind this is the analysis as it is, so that
what is proved of one holds of the other. -/
theorem run_eq_runAmid (root : Path) (useCache : Bool) (given : Option Config) :
    run root useCache given = runAmid none root useCache given := run_eq root useCache given

/-- What an analysis with a cache does before it saves the cache, and the
cache as it is then. -/
def toSave (root : Path) (given : Option Config) : Action (Option Cache) := do
  let plan ← start root given
  let collected ← collect true plan
  let _ ← findCycles (.ofRecords (collected.1.records.map Classification.classify))
  match collected.1.cache with
  | none => return none
  | some c => return some (← c.prune plan.scan.files).1

/-- What is said where the system refuses to save a cache. -/
def refusalWarning (c : Cache) (e : SystemError) : Warning :=
  ⟨.cache, "Cannot write cache: " ++ e.message, some c.file.text⟩

variable {fault : Option (List UInt8 × SystemError)} {x : Progress × Option Cache × List Warning}
  {c : Cache} {e : SystemError} {v v' : World}

/-- Where saving the cache is refused, finishing it says so in one warning
and goes on. -/
theorem finishCacheAmid_refused {p : Progress} {old : Cache} {files : List Path} {count : Nat}
    (hCache : p.cache = some old) (hPrune : (old.prune files).on w = (.ok (c, count), v))
    (hRefused : (c.saveAmid fault).on v = (.error (.system e), v')) :
    ∃ u, v'.Looked u ∧ (finishCacheAmid fault p files).on w = (.ok [refusalWarning c e], u) := by
  have hAttempt : (attempt (c.saveAmid fault)).on v = (.ok (.error e), v') := by
    rw [on_attempt, hRefused]
  obtain ⟨u, hLooked, hSaved⟩ :
      ∃ u, v'.Looked u ∧ (saveCacheAmid fault old files).on w = (.ok [refusalWarning c e], u) := by
    rw [saveCacheAmid, on_bind_ok hPrune]
    dsimp only
    rw [on_bind_ok hAttempt]
    exact ⟨_, looks_log _ _ _ v', rfl⟩
  rw [finishCacheAmid, hCache]
  dsimp only
  rw [on_bind_ok hSaved]
  split
  · exact ⟨_, hLooked.trans (looks_log _ _ _ u), rfl⟩
  · exact ⟨u, hLooked, rfl⟩

/-- The analysis still gives its report, which differs from that of a save
that comes through in one warning only. -/
theorem finishAmid_refused (plan : Plan) {old : Cache} {cycles : List Cycle} {count : Nat} {u : World}
    (hCache : x.1.cache = some old)
    (hCycles : (findCycles (.ofRecords (x.1.records.map Classification.classify))).on w = (.ok cycles, u))
    (hPrune : (old.prune plan.scan.files).on u = (.ok (c, count), v))
    (hRefused : (c.saveAmid fault).on v = (.error (.system e), v')) :
    ∃ time w', v'.Looked w' ∧
      (finishAmid fault plan x).on w = (.ok (plan.report x time cycles [refusalWarning c e]), w') := by
  obtain ⟨u', hLooked, hFinish⟩ := finishCacheAmid_refused hCache hPrune hRefused
  rw [finishAmid]
  dsimp only
  rw [on_bind_ok hCycles, on_bind_ok hFinish]
  exact ⟨_, _, hLooked.trans ((looks_log _ _ _ u').trans (looks_now _)), rfl⟩

/-- An analysis gets as far as saving its cache by its stages: the plan, the
cache, the records, the cycles and the pruning. -/
theorem toSave_on_ok (hSaving : (toSave root given).on w = (.ok (some c), v)) :
    ∃ plan w₁ x w₂ cycles w₃ old count, (start root given).on w = (.ok plan, w₁) ∧
      (collect true plan).on w₁ = (.ok x, w₂) ∧
      (findCycles (.ofRecords (x.1.records.map Classification.classify))).on w₂ = (.ok cycles, w₃) ∧
      x.1.cache = some old ∧ (old.prune plan.scan.files).on w₃ = (.ok (c, count), v) := by
  obtain ⟨plan, w₁, hStart, hRest⟩ := of_on_bind hSaving
  obtain ⟨x, w₂, hCollect, hRest⟩ := of_on_bind hRest
  obtain ⟨cycles, w₃, hCycles, hRest⟩ := of_on_bind hRest
  rcases hCache : x.1.cache with _ | old
  · rw [hCache] at hRest
    cases (Prod.mk.inj hRest).1
  · rw [hCache] at hRest
    obtain ⟨⟨c', count⟩, w₄, hPrune, hEnd⟩ := of_on_bind hRest
    cases hEnd
    exact ⟨plan, w₁, x, w₂, cycles, w₃, old, count, hStart, hCollect, hCycles, hCache, hPrune⟩

/-- Finding out what is to be saved writes nothing. -/
theorem looks_toSave (root : Path) (given : Option Config) : Looks (toSave root given) := by
  refine (looks_start root given).bind fun plan => (looks_collect true plan).bind fun x => ?_
  refine (looks_findCycles _).bind fun _ => ?_
  split
  · exact looks_pure _
  · next c _ =>
    refine Looks.bind (fun w => ?_) fun _ => looks_pure _
    obtain ⟨w', hLooked, hPrune⟩ := c.prune_on plan.scan.files w
    rwa [hPrune]

/-- A world in which nothing is locked, at the end of a session in which
only analyses of this project wrote its cache. -/
structure Undisturbed (place : Place) (past : List Visit) (w : World) (root : Path) (given : Option Config) :
    Prop where
  tended : Tended place past w
  watched : ∀ q, CachePlace w root given q → q = place
  project : ∀ base, w.here.resolve w.disk root = .ok base →
    ∀ v ∈ past, ∀ other, v.Stored place other → other = base
  digests : ∀ v ∈ past, Distinguished v.world w
  unlocked : w.Unlocked

/-- There an analysis whose cache cannot be saved gives the report of the
analysis without a cache, with one more warning. -/
theorem refused_save_reported (hUndisturbed : Undisturbed place past w root given)
    (hSaving : (toSave root given).on w = (.ok (some c), v))
    (hRefused : (c.saveAmid fault).on v = (.error (.system e), v')) :
    ∃ report plain w' w'', (runAmid fault root true given).on w = (.ok report, w') ∧
      (run root false given).on w = (.ok plain, w'') ∧ Agree report plain ∧
      report.warnings = plain.warnings ++ [refusalWarning c e] ∧ Cache.Undone c.file w w' := by
  obtain ⟨hTended, hPlace, hProject, hDigests, hUnlocked⟩ := hUndisturbed
  obtain ⟨plan, w₁, x, w₂, cycles, w₃, old, count, hStart, hCollect, hCycles, hCache, hPrune⟩ := toSave_on_ok hSaving
  have hLooked := (looks_start root given).run hStart
  have hPlanned := gives_start hTended.session.kept.proper w.here root given w plan w₁ rfl rfl hStart
  have hCollected := gives_collect hPlanned true w₁ x w₂ hLooked.disk hLooked.here hCollect
  obtain ⟨time, w', hAfter, hFinish⟩ := finishAmid_refused plan hCache hCycles hPrune hRefused
  obtain ⟨p, time', w'', hSame, hPlain⟩ := collected_reported hTended.session hUnlocked hPlace
    (hProject _ hPlanned.root) hDigests hStart hCollect (detect_of_findCycles hCycles)
  -- what lies at the place of the cache can be loaded, so all that is said of the cache is the refusal
  have hSilent : x.2.2 = [] := by
    obtain ⟨_, hOpen⟩ := collect_opened hCollect
    refine openIf_silent hUnlocked hLooked (fun opened hOpened q item hLocate => ?_) hCollected.opened hOpen
    obtain ⟨u, hFile⟩ := cachePath_on_of_opened hStart hOpened
    obtain rfl := hPlace q ⟨opened.file, u, item, hFile, hLocate⟩
    exact hTended.loadable
  have hUndone : Cache.Undone c.file v v' := Cache.saveAmid_undone hRefused
  have hRun : (runAmid fault root true given).on w = (.ok (plan.report x time cycles [refusalWarning c e]), w') := by
    rw [runAmid, on_bind_ok hStart, on_bind_ok hCollect, hFinish]
  have hAgree := agree_report plan (y := (p, none, [])) hSame.symm hCollected.warnings (by simp) time time' cycles
    (show ∀ m ∈ [refusalWarning c e], m.kind = .cache by simp [refusalWarning])
  refine ⟨_, _, w', w'', hRun, hPlain, hAgree, ?_, hUndone.looked ((looks_toSave root given).run hSaving) hAfter⟩
  simp [Plan.report, reportOf, hSilent, hSame]

/-- A save that fails leaves nothing, wherever it stops: every file is as it
was, and so is the cache itself. An analysis whose cache cannot be saved, in
a session in which only analyses of its project wrote that, gives the report
of the analysis without a cache, with one more warning. -/
theorem failed_save_undone :
    (∀ (fault : Option (List UInt8 × SystemError)) (c : Cache) (w w' : World) (f : Failure),
      (c.saveAmid fault).on w = (.error f, w') → Cache.Undone c.file w w') ∧
    (∀ c : Cache, c.save = c.saveAmid none) ∧
    (∀ (root : Path) (useCache : Bool) (given : Option Config),
      run root useCache given = runAmid none root useCache given) ∧
    (∀ s : Cache.State, (Cache.Operation.save.step s).1 = .stopped →
      (Cache.Operation.save.step s).2.cache = s.cache ∧
        Cache.Undone s.cache.file s.world (Cache.Operation.save.step s).2.world) ∧
    ∀ (fault : Option (List UInt8 × SystemError)) (place : Place) (past : List Visit) (w : World) (root : Path)
      (given : Option Config) (c : Cache) (e : SystemError) (v v' : World), Undisturbed place past w root given →
      (toSave root given).on w = (.ok (some c), v) → (c.saveAmid fault).on v = (.error (.system e), v') →
      ∃ report plain w' w'', (runAmid fault root true given).on w = (.ok report, w') ∧
        (run root false given).on w = (.ok plain, w'') ∧ Agree report plain ∧
        report.warnings = plain.warnings ++ [refusalWarning c e] ∧ Cache.Undone c.file w w' := by
  refine ⟨fun fault c w w' f hRun => Cache.saveAmid_undone hRun, Cache.save_eq_saveAmid, run_eq_runAmid,
    fun s hStopped => Cache.save_stopped hStopped, ?_⟩
  intro fault place past w root given c e v v' hUndisturbed hSaving hRefused
  exact refused_save_reported hUndisturbed hSaving hRefused

namespace Sample

/-- A project in which a directory has the name of the cache file. -/
def hindered : World where
  disk := ⟨[(["p"], .directory), (["p", "a.ts"], .file (Text.Utf8.encode "import './b';") 7),
    (["p", ".cache"], .directory), (cachePlace, .directory)]⟩
  here := ⟨⟨.root, []⟩, []⟩
  watch := ⟨0, 1⟩

/-- The project after an analysis that could not save its cache. Only the
kernel is to evaluate it. -/
@[irreducible]
def unsaved : World := (run project true (some {})).leaving hindered

theorem unsaved_eq : unsaved = ((run project true (some {})).on hindered).2 := by
  unfold unsaved
  exact leaving_eq _ _

/-- Whether the system refuses to save a cache. -/
def refuses (cache : Option Cache) (w : World) : Bool :=
  match cache with
  | none => false
  | some c =>
    match c.save.on w with
    | (.error (.system _), _) => true
    | _ => false

/-- The analysis that is hindered changes no entry, and the cache would be
loaded from the watched place still. -/
theorem unsaved_facts : unsaved.here = hindered.here ∧ unsaved.locks = [] ∧
    (∀ entry ∈ hindered.disk.entries, unsaved.disk.find? entry.1 = some entry.2) ∧
    unsaved.here.resolve unsaved.disk project = .ok project ∧
    loadsFrom cachePlace unsaved.disk ((cachePath project (some {})).on unsaved) = true ∧
    passes refuses ((toSave project (some {})).on unsaved) = true := by
  decide +kernel

/-- The world after the hindered analysis is one in which nothing but
analyses of the project wrote its cache. -/
theorem unsaved_undisturbed :
    Undisturbed cachePlace [⟨hindered, .analysed project true (some {})⟩] unsaved project (some {}) := by
  obtain ⟨hHere, hLocks, hGrown, hRoot, hLoads, -⟩ := unsaved_facts
  refine ⟨?_, ?_, fun base hBase => ?_, ?_, ?_⟩
  · rw [unsaved_eq]
    exact (Tended.start (by decide) (.inr (by decide))).analysis project true (some {})
  · rintro q ⟨file, v, item, hFile, hLocate⟩
    exact eq_of_loadsFrom hLoads hFile hLocate
  · obtain rfl := Except.ok.inj (hRoot.symm.trans hBase)
    rw [List.forall_mem_singleton]
    exact fun other hStored => hStored.root_eq (by decide)
  · rw [List.forall_mem_singleton]
    exact distinguished_of_extends (Disk.extends_of_entries hGrown) hHere
  · intro key n hLock
    rw [hLocks] at hLock
    cases hLock

/-- The next analysis of the project cannot save its cache
either, and says so. -/
theorem unsaved_again : ∃ c e v v' report plain w' w'',
    (toSave project (some {})).on unsaved = (.ok (some c), v) ∧ c.save.on v = (.error (.system e), v') ∧
    (Cache.Operation.save.step ⟨c, v⟩).2.cache = c ∧ Cache.Undone c.file v v' ∧
    (run project true (some {})).on unsaved = (.ok report, w') ∧
    (run project false (some {})).on unsaved = (.ok plain, w'') ∧ Agree report plain ∧
    report.warnings = plain.warnings ++ [refusalWarning c e] ∧ Cache.Undone c.file unsaved w' := by
  obtain ⟨-, -, -, -, -, hRefuses⟩ := unsaved_facts
  obtain ⟨cache, v, hSaving, hRefused⟩ := exists_of_passes hRefuses
  obtain ⟨hUndone, hSave, hRun, hState, hReport⟩ := failed_save_undone
  obtain ⟨c, e, v', rfl, hError⟩ : ∃ c e v', cache = some c ∧ c.save.on v = (.error (.system e), v') := by
    unfold refuses at hRefused
    split at hRefused
    · cases hRefused
    · next c =>
      split at hRefused
      · next e v' hError => exact ⟨c, e, v', rfl, hError⟩
      · cases hRefused
  have hStopped : (Cache.Operation.save.step ⟨c, v⟩).1 = .stopped := by
    rw [Cache.Operation.step, Cache.Operation.perform, on_bind_error hError]
  obtain ⟨report, plain, w', w'', hReported, hRest⟩ := hReport none cachePlace _ unsaved project (some {}) c e v v'
    unsaved_undisturbed hSaving hError
  exact ⟨c, e, v, v', report, plain, w', w'', hSaving, hError, (hState ⟨c, v⟩ hStopped).1, hUndone none c v v' _ hError,
    (hRun project true (some {})) ▸ hReported, hRest⟩

end Sample

end SourceAtlas.Analysis
