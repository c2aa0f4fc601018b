import SourceAtlas.Proofs.Analysis.Confinement
import SourceAtlas.Proofs.Analysis.Rendering
import SourceAtlas.Proofs.Analysis.Resuming

/-!
Analyses of one project beside each other: with its cache and without, before something was written
and afterwards. They come to the same graph, as long as its files can be recorded and what was
written lies where no analysis looks.
-/
namespace SourceAtlas.Analysis

open SourceAtlas.Action

variable {place base : Place} {past : List Visit} {w w' v w₁ : World} {root top path : Path} {given : Option Config}
  {report plain : Report} {plan : Plan} {useCache : Bool} {ignoring : List IgnoreFile} {e : CacheEntry}
  {x : Progress × Option Cache × List Warning}

/-- A plan of which documents can tell. The names in it are strings, the
times of its files have 64 bits, and its sources hold less than 2⁶³ bytes. -/
structure Recordable (w : World) (plan : Plan) : Prop where
  root : plan.root.text.isString = true
  extensions : ∀ ext ∈ plan.config.extensions, ext.isString = true
  files : ∀ path ∈ plan.scan.files, path.text.isString = true
  faults : ∀ fault ∈ plan.scan.faults, fault.path.isString = true
  times : ∀ path ∈ plan.scan.files, ∀ place bytes mtime,
    w.disk.locate true (w.here.join path) = .ok (.found place (.file bytes mtime)) → Json.inRange mtime = true
  size : volume w plan.scan < 2 ^ 63
  count : extent plan.scan < 2 ^ 63

/-- A new entry of a recordable file can be written. -/
theorem Recordable.fits (hRecordable : Recordable w plan) (hPath : path ∈ plan.scan.files)
    (hFresh : Fresh w plan.root plan.config.extensions path e) : e.toDatum.fits = true := by
  obtain ⟨place, bytes, mtime, r, hLocate, hRecord, rfl⟩ := hFresh
  have hTime := hRecordable.times path hPath place bytes mtime hLocate
  have hBytes : bytesAt w path ≤ volume w plan.scan := List.le_sum_of_mem (List.mem_map_of_mem hPath)
  rw [bytesAt, World.content?_eq_some_iff.mpr ⟨place, mtime, hLocate⟩, Option.getD_some] at hBytes
  have hRanged : r.toDatum.ranged = true :=
    (Extraction.record_within hRecord).toDatum_ranged (n := 2 ^ 63) (by decide) (by have := hRecordable.size; omega)
  have hSpelled := Extraction.record_spelled (hRecordable.files path hPath) hRecordable.extensions hRecord
  rw [Datum.fits, CacheEntry.toDatum_legible_iff.mpr ⟨hRecordable.files path hPath, Text.isString_ofString _,
    Extraction.record_legible hRecord hSpelled⟩, Bool.and_true]
  simp [CacheEntry.toDatum, Datum.ranged_table, hTime, hRanged]

/-- Without a cache or with a faithful one the report on a recordable plan
names all files by strings. -/
theorem run_spelled {u : World} (hProper : w.disk.Proper) (hFaithful : useCache = true → FaithfulCache w root given)
    (hCache : useCache = true → ∀ file v, (cachePath root given).on w = (.ok file, v) → file.text.isString = true)
    (hStart : (start root given).on w = (.ok plan, w₁)) (hRecordable : Recordable w plan)
    (hRun : (run root useCache given).on w = (.ok report, u)) : report.Spelled := by
  rw [run_eq, on_bind_ok hStart] at hRun
  obtain ⟨x, w₂, hCollect, hFinish⟩ := of_on_bind hRun
  have hPlanned := gives_start hProper w.here root given w plan w₁ rfl rfl hStart
  have hLooked := (looks_start root given).run hStart
  have hMade := collect_made hPlanned hLooked
    (fun c hUse hOpened => (hFaithful hUse).trusted hPlanned.root hStart hOpened) hCollect
  have hCollected := gives_collect hPlanned useCache w₁ x w₂ hLooked.disk hLooked.here hCollect
  obtain ⟨_, hOpen⟩ := collect_opened hCollect
  obtain ⟨time, cycles, saved, _, _, -, -, hSave, -, rfl⟩ := finish_steps hFinish
  obtain ⟨result, rfl⟩ := finishCache_said hSave
  have hFile : ∀ c, x.2.1 = some c → c.file.text.isString = true := by
    intro c hOpened
    have hUse : useCache = true := by
      rw [← hCollected.cached, hOpened]
      rfl
    obtain ⟨v, hPath⟩ := cachePath_on_of_opened hStart (hCollected.opened c hOpened)
    exact hCache hUse c.file v hPath
  have hRecords : ∀ r ∈ x.1.records, r.Legible := by
    intro r hr
    obtain ⟨path, hPath, made⟩ := exists_of_forall₂_right hMade hr
    cases made with
    | read _ hRecord =>
        exact Extraction.record_legible hRecord
          (Extraction.record_spelled (hRecordable.files path hPath) hRecordable.extensions hRecord)
    | refused hFailed => exact hFailed ▸ Extraction.failed_legible (hRecordable.files path hPath) _ _ _
  refine ⟨hRecordable.root, List.forall_mem_map.mpr fun r hr => (hRecords r hr).classify.spelled, ?_⟩
  show ∀ m ∈ scanWarnings plan.scan ++ x.2.2 ++ extractionWarnings x.1.records ++ closingWarnings x.1.cache result,
    ∀ p ∈ m.path, p.isString = true
  have hSame : x.1.cache.map Cache.file = x.2.1.map Cache.file := by
    simpa [Option.map_map, Function.comp_def] using congrArg (Option.map Prod.fst) hCollected.added.cache
  rw [openIf_said hOpen, closingWarnings_congr hSame]
  refine List.forall_mem_append.mpr ⟨List.forall_mem_append.mpr ⟨List.forall_mem_append.mpr ⟨?_, ?_⟩, ?_⟩, ?_⟩
  · intro m hm p hp
    obtain ⟨fault, hFault, rfl⟩ := List.mem_map.mp hm
    obtain rfl := Option.some.inj hp
    exact hRecordable.faults fault hFault
  · intro m hm p hp
    obtain ⟨c, hc, hm⟩ := List.mem_flatMap.mp hm
    obtain ⟨message, -, rfl⟩ := List.mem_map.mp hm
    obtain rfl := Option.some.inj hp
    exact hFile c (Option.mem_toList.mp hc)
  · intro m hm p hp
    obtain ⟨r, hr, hSome⟩ := List.mem_filterMap.mp hm
    obtain ⟨message, -, rfl⟩ := Option.map_eq_some_iff.mp hSome
    obtain rfl := Option.some.inj hp
    exact (hRecords r hr).relativePath
  · intro m hm p hp
    obtain ⟨c, hc, hm⟩ := List.mem_flatMap.mp hm
    cases result with
    | ok c' => cases hm
    | error e =>
        obtain rfl := List.mem_singleton.mp hm
        obtain rfl := Option.some.inj hp
        exact hFile c (Option.mem_toList.mp hc)

/-- The entries that a faithful cache has from its file can
be written again. -/
theorem FaithfulCache.fits {c : Cache} (hFaithful : FaithfulCache w root given)
    (hStart : (start root given).on w = (.ok plan, w₁)) (hOpened : Opened w plan c) :
    Entries (fun e => e.toDatum.fits = true) (some c) := by
  obtain ⟨hSession, -, hPlace, -, -⟩ := hFaithful
  exact hOpened.entries.mono fun e hHeld => (stems_opened hSession hStart hOpened hPlace hHeld).1

/-- What is collected of recordable files can be saved, so it
comes to a report. -/
theorem stopsBy_finish_collected (hUnlocked : w.Unlocked) (hPlanned : Planned w.disk w.here root plan)
    (hFaithful : useCache = true → FaithfulCache w root given) (hStart : (start root given).on w = (.ok plan, w₁))
    (hReady : useCache = true → CacheReady w root given) (hRecordable : Recordable w plan)
    (hCollect : (collect useCache plan).on w₁ = (.ok x, v)) : StopsBy (fun _ => False) (finish plan x) := by
  have hLooked := (looks_start root given).run hStart
  have hCollected := gives_collect hPlanned useCache w₁ x v hLooked.disk hLooked.here hCollect
  obtain ⟨opened, u, hOpen, hRest⟩ := of_on_bind hCollect
  obtain ⟨progress, u', hFold, hResult⟩ := of_on_bind hRest
  obtain rfl := Except.ok.inj (Prod.mk.inj hResult).1
  refine stopsBy_finish plan fun c hCache => ?_
  obtain ⟨hAbsolute, hClean⟩ := hCollected.clean hStart hReady c hCache
  cases useCache with
  | false =>
      obtain rfl := Except.ok.inj (Prod.mk.inj hOpen).1
      have hNone := hCollected.added.cache
      rw [hCache] at hNone
      cases hNone
  | true =>
      obtain ⟨file, v₁, c₀, found, -, hLoad, rfl⟩ := openIf_on_ok hOpen
      have hLooked' := hLooked.trans ((looks_openIf true plan).run hOpen)
      obtain ⟨-, hProject, hVersion, -⟩ := Cache.load_entries rfl hLoad
      obtain ⟨hFiles, hNodup⟩ := hPlanned.files
      obtain ⟨c', rs, hSame, hContinues, -⟩ := addFiles_remember hUnlocked hFiles hNodup rfl hLooked' hFold
      obtain rfl := Option.some.inj (hSame.symm.trans hCache)
      have hAdded := gives_addFiles (Q := fun e => e.toDatum.fits = true)
        (fun path hPath e hFresh => hRecordable.fits hPath hFresh)
        ((hFaithful rfl).fits hStart (hCollected.opened c₀ rfl)) u progress u' hLooked'.disk hLooked'.here hFold
      refine (Cache.stopsBy_save_of_fits (c := c'.keepOnly plan.scan.files) hAbsolute hClean ?_ ?_ ?_ ?_).mono
        fun f hf => .inl hf
      · exact hContinues.version.trans hVersion
      · exact (congrArg Path.text (hContinues.project.trans hProject)) ▸ hRecordable.root
      · exact hContinues.created ▸ Cache.createdAt_isString rfl hLoad
      · intro p hp
        exact (hAdded.entries c' hCache p (List.mem_filter.mp hp).1).2

/-- Where nothing is locked an analysis of recordable files with a faithful
cache comes to a report if it does without a cache, and to the same graph. -/
theorem run_parity (hProper : w.disk.Proper) (hUnlocked : w.Unlocked)
    (hFaithful : useCache = true → FaithfulCache w root given) (hReady : useCache = true → CacheReady w root given)
    (hStart : (start root given).on w = (.ok plan, w₁)) (hRecordable : Recordable w plan)
    (hPlain : (run root false given).on w = (.ok plain, v)) :
    ∃ report w', (run root useCache given).on w = (.ok report, w') ∧ report.graph = plain.graph := by
  rw [run_eq, on_bind_ok hStart] at hPlain
  obtain ⟨x, w₂, hCollect, hFinish⟩ := of_on_bind hPlain
  have hLooked := (looks_start root given).run hStart
  have hPlanned := gives_start hProper w.here root given w plan w₁ rfl rfl hStart
  obtain ⟨opened, u, hOpen⟩ := openIf_answers hStart hReady
  have hWith := collect_unlocked hUnlocked hPlanned hLooked
    (fun c hUse hOpened => (hFaithful hUse).trusted hPlanned.root hStart hOpened) hOpen
  have hWithout := collect_unlocked hUnlocked hPlanned hLooked (fun _ hUse => absurd hUse Bool.false_ne_true)
    (show (openIf false plan).on w₁ = (.ok (none, []), w₁) from rfl)
  rcases hRecords : plan.scan.files.mapM (recordNow w plan.root plan.config.extensions) with e | rs
  · rw [hRecords] at hWithout
    obtain ⟨u', hRun⟩ := hWithout
    rw [hCollect] at hRun
    cases hRun
  rw [hRecords] at hWith hWithout
  obtain ⟨q, u₁, hRun, hAll⟩ := hWithout
  obtain ⟨rfl, rfl⟩ : x = (q, (none, [])) ∧ w₂ = u₁ := by simpa [hCollect] using hRun
  obtain ⟨p, u₂, hCached, hAll'⟩ := hWith
  have hStops := stopsBy_finish_collected hUnlocked hPlanned hFaithful hStart hReady hRecordable hCached
  rcases hEnd : (finish plan (p, opened)).on u₂ with ⟨f | report, u₃⟩
  · exact (hStops u₂ f u₃ hEnd).elim
  · refine ⟨report, u₃, by rw [run_eq, on_bind_ok hStart, on_bind_ok hCached, hEnd], ?_⟩
    obtain ⟨time, cycles, saved, -, -, rfl⟩ := finish_on_ok hEnd
    obtain ⟨time', cycles', saved', -, -, rfl⟩ := finish_on_ok hFinish
    simp only [Plan.report, reportOf, hAll, hAll']

/-- Writing the file of the cache disturbs no scan that does not search for
a file where it is written. -/
theorem spares_run (hProper : w.disk.Proper) {o : ScanOptions}
    (hAside : ∀ file v d arrival, useCache = true → (cachePath root given).on w = (.ok file, v) → w.disk.Paved file d →
      d.locate false file = .ok arrival → ¬ Scan.Searched o base arrival.place) :
    Scan.Spares o base w.disk ((run root useCache given).on w).2.disk := by
  cases useCache with
  | false =>
      rw [run_uncached_unchanged hProper]
      exact .refl o base _
  | true =>
      rcases run_cached_confined hProper root given with hSame | ⟨file, v, hPath, hConfined⟩
      · rw [hSame]
        exact .refl o base _
      cases hConfined with
      | paved hPaved => exact .of_directories hPaved.find?
      | @replaced between arrival bytes hPaved hLocate hNoDirectory hDisk =>
          rw [hDisk]
          exact (Scan.Spares.of_directories hPaved.find?).trans
            (.put (hAside file v between arrival rfl hPath hPaved hLocate)
              (Disk.no_directory_of_locate hLocate hNoDirectory) _ _)

/-- In a world an analysis sets out for these files: it finds this root
with this configuration, and its scan begins at this directory with
these ignore files. -/
structure SetsOut (w : World) (root : Path) (given : Option Config) (plan : Plan) (top : Path) (base : Place)
    (ignoring : List IgnoreFile) : Prop where
  resolved : w.here.resolve w.disk root = .ok plan.root
  config : ((configOf plan.root given).on w).1 = .ok plan.config
  scan : Scan.Begins w (scanOptions plan.config) plan.root top base ignoring

/-- An analysis does not see how the second world differs from the
first. It finds the same files, and every path that an import may lead
to is answered alike. -/
structure Unseen (root : Path) (given : Option Config) (plan : Plan) (w w' : World) : Prop where
  found : ∃ v, (start root given).on w' = (.ok plan, v)
  files : ∀ path ∈ plan.scan.files, ∃ arrival, w.disk.locate true (w.here.join path) = .ok arrival ∧
    w'.disk.locate true (w'.here.join path) = .ok arrival
  answers : ∀ path ∈ plan.scan.files, ∀ bytes, w.content? path = some bytes →
    ∀ p, Extraction.Candidate path plan.config.extensions bytes p → w'.hasFile p = w.hasFile p

/-- An analysis that sets out alike in both worlds does not see
directories that came, nor files that were written where it searches for
none. An entry that has come may not have too long a path, and none may be
what an import leads to. -/
theorem unseen_of_spares (hProper : w.disk.Proper) (hGrounded : w.disk.Grounded) (hUnlocked : w.Unlocked)
    (hProper' : w'.disk.Proper) (hUnlocked' : w'.Unlocked) (hBefore : SetsOut w root given plan top base ignoring)
    (hAfter : SetsOut w' root given plan top base ignoring)
    (hSpares : Scan.Spares (scanOptions plan.config) base w.disk w'.disk)
    (hShort : ∀ p, Scan.Beneath w' (scanOptions plan.config) top p → w'.disk.locate true p ≠ .error (.errno .nameTooLong))
    (hAnswers : ∀ path ∈ plan.scan.files, ∀ bytes, w.content? path = some bytes →
      ∀ p, Extraction.Candidate path plan.config.extensions bytes p → w'.hasFile p = w.hasFile p)
    (hStart : (start root given).on w = (.ok plan, w₁)) : Unseen root given plan w w' := by
  obtain ⟨-, -, found, v, hProject⟩ := project_of_start hBefore.resolved hBefore.config hUnlocked hStart
  obtain ⟨hForth, hBack⟩ := hSpares.preserves hProper hGrounded hUnlocked hProper' hUnlocked'
    hBefore.scan.directory hAfter.scan.directory
  obtain ⟨⟨v', hAgain⟩, hFiles⟩ := Scan.project_again hForth hBack hBefore.scan hAfter.scan hShort hProject
  refine ⟨start_of_project hAfter.resolved hAfter.config hUnlocked' hAgain, fun path hPath => ?_, hAnswers⟩
  have hPlanned := gives_start hProper w.here root given w plan w₁ rfl rfl hStart
  obtain ⟨_, -, -, hSound⟩ := hPlanned.scan
  have hAbsolute : path.isAbsolute = true := by simp [Path.isAbsolute, (hSound.found path hPath).anchor]
  obtain ⟨place, bytes, mtime, hLocate, hLocate'⟩ := hFiles path hPath
  exact ⟨_, by rwa [Path.join_of_absolute hAbsolute], by rwa [Path.join_of_absolute hAbsolute]⟩

namespace Unseen

variable (hUnseen : Unseen root given plan w w')

include hUnseen

theorem content (hPath : path ∈ plan.scan.files) : w'.content? path = w.content? path := by
  obtain ⟨arrival, hLocate, hLocate'⟩ := hUnseen.files path hPath
  rw [World.content?, World.content?, hLocate, hLocate']

/-- Files that can be recorded still can, when nothing has come that the
analysis would see. -/
theorem recordable (hRecordable : Recordable w plan) : Recordable w' plan := by
  have hVolume : volume w' plan.scan = volume w plan.scan := by
    rw [volume, volume]
    exact congrArg List.sum (List.map_congr_left fun path hPath => by rw [bytesAt, bytesAt, hUnseen.content hPath])
  refine { hRecordable with times := fun path hPath place bytes mtime hLocate => ?_, size := hVolume ▸ hRecordable.size }
  obtain ⟨arrival, hBefore, hAfter⟩ := hUnseen.files path hPath
  obtain rfl := Except.ok.inj (hAfter.symm.trans hLocate)
  exact hRecordable.times path hPath place bytes mtime hBefore

theorem records (hFiles : ∀ path ∈ plan.scan.files, ∃ bytes, w.content? path = some bytes) :
    plan.scan.files.mapM (recordNow w' plan.root plan.config.extensions) =
      plan.scan.files.mapM (recordNow w plan.root plan.config.extensions) := by
  refine mapM_congr fun path hPath => ?_
  obtain ⟨bytes, hContent⟩ := hFiles path hPath
  rw [recordNow, recordNow, hUnseen.content hPath, hContent, Option.getD_some]
  exact Extraction.record_eq (hUnseen.answers path hPath bytes hContent)

/-- What an analysis does not see does not change its graph, and so a file
that was saved in between is no matter. -/
theorem run_uncached (hProper : w.disk.Proper) (hProper' : w'.disk.Proper) (hUnlocked : w.Unlocked)
    (hUnlocked' : w'.Unlocked) (hStart : (start root given).on w = (.ok plan, w₁))
    (hPlain : (run root false given).on w = (.ok plain, v)) :
    ∃ report v', (run root false given).on w' = (.ok report, v') ∧ report.graph = plain.graph := by
  obtain ⟨w₂, hStart'⟩ := hUnseen.found
  have hPlanned := gives_start hProper w.here root given w plan w₁ rfl rfl hStart
  have hBefore := Analysis.run_uncached hProper hUnlocked hStart
  have hAfter := Analysis.run_uncached hProper' hUnlocked' hStart'
  rw [hUnseen.records fun path hPath => hPlanned.content hPath] at hAfter
  rcases hRecords : plan.scan.files.mapM (recordNow w plan.root plan.config.extensions) with e | rs <;>
    rw [hRecords] at hBefore hAfter
  · obtain ⟨v', hError⟩ := hBefore
    rw [hPlain] at hError
    cases hError
  · obtain ⟨report, v₁, hRun, hGraph⟩ := hBefore
    obtain ⟨report', v₂, hRun', hGraph'⟩ := hAfter
    obtain rfl := Except.ok.inj (Prod.mk.inj (hPlain.symm.trans hRun)).1
    exact ⟨report', v₂, hRun', hGraph'.trans hGraph.symm⟩

end Unseen

end SourceAtlas.Analysis
