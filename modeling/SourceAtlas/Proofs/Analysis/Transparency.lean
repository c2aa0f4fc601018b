import SourceAtlas.Proofs.Analysis.Session

/-!
A cache changes nothing but the time an analysis takes. At the end of every session in which only
analyses of one project wrote its cache, the report with the cache says what the report without says.
-/
namespace SourceAtlas.Analysis

open SourceAtlas.Action

variable {place : Place} {past : List Visit} {w w' : World} {root : Path} {given : Option Config}

/-- Two reports that say the same of a project. They may differ in what they
say of the cache and of the time. -/
structure Agree (a b : Report) : Prop where
  projectPath : a.projectPath = b.projectPath
  files : a.files = b.files
  graph : a.graph = b.graph
  cycles : a.cycles = b.cycles
  metrics : a.metrics = b.metrics
  inventory : a.inventory = b.inventory
  warnings : a.warnings.filter (·.kind ≠ .cache) = b.warnings.filter (·.kind ≠ .cache)
  totalFiles : a.summary.totalFiles = b.summary.totalFiles
  totalLines : a.summary.totalLines = b.summary.totalLines
  totalFunctions : a.summary.totalFunctions = b.summary.totalFunctions
  totalClasses : a.summary.totalClasses = b.summary.totalClasses
  errorCycles : a.summary.errorCycles = b.summary.errorCycles
  warningCycles : a.summary.warningCycles = b.summary.warningCycles

theorem filter_cacheWarnings {warnings : List Warning} (hCache : ∀ m ∈ warnings, m.kind = .cache) :
    warnings.filter (·.kind ≠ .cache) = [] := by
  rw [List.filter_eq_nil_iff]
  intro m hm
  simp [hCache m hm]

/-- What a report warns of besides the cache are the faults of its scan and
the files without an outline. -/
theorem Plan.report_warnings (plan : Plan) {x : Progress × Option Cache × List Warning}
    (hOpened : ∀ m ∈ x.2.2, m.kind = .cache) (time : Text) (cycles : List Cycle) {saved : List Warning}
    (hSaved : ∀ m ∈ saved, m.kind = .cache) :
    (plan.report x time cycles saved).warnings.filter (·.kind ≠ .cache) =
      scanWarnings plan.scan ++ extractionWarnings x.1.records := by
  have hScan : (scanWarnings plan.scan).filter (·.kind ≠ .cache) = scanWarnings plan.scan := by
    simp [scanWarnings]
  have hExtraction : (extractionWarnings x.1.records).filter (·.kind ≠ .cache) = extractionWarnings x.1.records := by
    rw [List.filter_eq_self]
    intro m hm
    simp [extractionWarnings_kind m hm]
  simp only [Plan.report, reportOf, List.filter_append, filter_cacheWarnings hOpened, filter_cacheWarnings hSaved,
    hScan, hExtraction, List.append_nil]

/-- Reports over the same records agree, whatever the warnings
about the cache are. -/
theorem agree_report (plan : Plan) {x y : Progress × Option Cache × List Warning}
    (hRecords : x.1.records = y.1.records) (hx : ∀ m ∈ x.2.2, m.kind = .cache)
    (hy : ∀ m ∈ y.2.2, m.kind = .cache) (time time' : Text) (cycles : List Cycle)
    {saved : List Warning} (hSaved : ∀ m ∈ saved, m.kind = .cache) :
    Agree (plan.report x time cycles saved) (plan.report y time' cycles []) := by
  have hWarnings : (plan.report x time cycles saved).warnings.filter (·.kind ≠ .cache) =
      (plan.report y time' cycles []).warnings.filter (·.kind ≠ .cache) := by
    rw [plan.report_warnings hx time cycles hSaved, plan.report_warnings hy time' cycles (by simp), hRecords]
  refine ⟨rfl, ?_, ?_, rfl, ?_, ?_, hWarnings, ?_, ?_, ?_, ?_, rfl, rfl⟩ <;>
    simp only [Plan.report, reportOf, Summary.ofParts, hRecords]

/-- Every entry that an analysis opens can be trusted if only analyses of
the same root wrote its file and digests tell contents apart. -/
theorem trusted_opened {plan : Plan} {c : Cache} (hSession : Session place past w)
    (hStart : (start root given).on w = (.ok plan, w')) (hOpened : Opened w plan c)
    (hPlace : ∀ q, CachePlace w root given q → q = place)
    (hProject : ∀ v ∈ past, ∀ other, v.Stored place other → other = plan.root)
    (hDigests : ∀ v ∈ past, Distinguished v.world w) : Entries (Trusted w plan.root) (some c) := by
  refine hOpened.entries.mono fun e hHeld => ?_
  obtain ⟨v, hv, other, hStored, hMade⟩ := (stems_opened hSession hStart hOpened hPlace hHeld).2
  obtain rfl := hProject v hv other hStored
  exact hMade.trusted (hDigests v hv)

/-- Where nothing is locked, an analysis that trusts its entries collects
the records made now. -/
theorem collect_unlocked {plan : Plan} {useCache : Bool} (hUnlocked : w.Unlocked)
    (hPlanned : Planned w.disk w.here root plan) (hLooked : w.Looked w')
    (hTrusted : ∀ c, useCache = true → Opened w plan c → Entries (Trusted w plan.root) (some c))
    {opened : Option Cache × List Warning} {v : World}
    (hOpen : (openIf useCache plan).on w' = (.ok opened, v)) :
    match plan.scan.files.mapM (recordNow w plan.root plan.config.extensions) with
    | .error e => ∃ v', (collect useCache plan).on w' = (.error (.system e), v')
    | .ok rs => ∃ p v', (collect useCache plan).on w' = (.ok (p, opened), v') ∧ p.records = rs := by
  have hOpenLooks := looks_openIf useCache plan w'
  rw [hOpen] at hOpenLooks
  obtain ⟨hUse, hOpened, -⟩ := gives_openIf hPlanned useCache w' opened v hLooked.disk hLooked.here hOpen
  have hEntries : Entries (Trusted w plan.root) opened.1 := by
    cases hCache : opened.1 with
    | none => exact entries_none _
    | some c => exact hTrusted c (by rw [← hUse, hCache]; rfl) (hOpened c hCache)
  have hFold := addFiles_unlocked plan.config.extensions hUnlocked hPlanned.files.1
    (p := { cache := opened.1 }) hEntries (hLooked.trans hOpenLooks)
  rw [collect, on_bind_ok hOpen]
  split
  · next e hRecords =>
    rw [hRecords] at hFold
    obtain ⟨v', hRun⟩ := hFold
    exact ⟨v', on_bind_error hRun _⟩
  · next rs hRecords =>
    rw [hRecords] at hFold
    obtain ⟨p, v', hRun, -, hAll⟩ := hFold
    refine ⟨p, v', ?_, by simpa using hAll⟩
    rw [on_bind_ok hRun, on_pure]

/-- What an analysis collects with the cache is also reported without it, if
its cycles can be found. -/
theorem collected_reported {plan : Plan} {x : Progress × Option Cache × List Warning} {w₁ w₂ : World}
    {cycles : List Cycle} (hSession : Session place past w) (hUnlocked : w.Unlocked)
    (hPlace : ∀ q, CachePlace w root given q → q = place)
    (hProject : ∀ v ∈ past, ∀ other, v.Stored place other → other = plan.root)
    (hDigests : ∀ v ∈ past, Distinguished v.world w) (hStart : (start root given).on w = (.ok plan, w₁))
    (hCollect : (collect true plan).on w₁ = (.ok x, w₂))
    (hCycles : Cycle.detect (.ofRecords (x.1.records.map Classification.classify)) = .ok cycles) :
    ∃ p time w', p.records = x.1.records ∧
      (run root false given).on w = (.ok (plan.report (p, none, []) time cycles []), w') := by
  have hLooked := looks_start root given w
  rw [hStart] at hLooked
  have hPlanned := gives_start hSession.kept.proper w.here root given w plan w₁ rfl rfl hStart
  have hTrusted : ∀ c, Opened w plan c → Entries (Trusted w plan.root) (some c) := fun c hOpened =>
    trusted_opened hSession hStart hOpened hPlace hProject hDigests
  -- the records with the cache are those made now, so they can be made without it
  obtain ⟨opened, v, hOpen, -⟩ := of_on_bind hCollect
  have hWith := collect_unlocked hUnlocked hPlanned hLooked (fun c _ => hTrusted c) hOpen
  have hWithout := collect_unlocked hUnlocked hPlanned hLooked (fun c _ => hTrusted c)
    (show (openIf false plan).on w₁ = (.ok (none, []), w₁) from rfl)
  rcases hRecords : plan.scan.files.mapM (recordNow w plan.root plan.config.extensions) with e | rs
  · rw [hRecords] at hWith
    obtain ⟨v', hRun⟩ := hWith
    rw [hCollect] at hRun
    cases hRun
  rw [hRecords] at hWith hWithout
  obtain ⟨p, v₁, hRun, hAll⟩ := hWith
  obtain ⟨rfl, -⟩ : x = (p, opened) ∧ w₂ = v₁ := by simpa [hCollect] using hRun
  obtain ⟨q, v₂, hPlain, hAll'⟩ := hWithout
  have hCollected := gives_collect hPlanned false w₁ _ _ hLooked.disk hLooked.here hPlain
  have hSame : q.records = p.records := hAll'.trans hAll.symm
  obtain ⟨time, v₃, hEnd⟩ := finish_uncached plan (x := (q, none, []))
    (by simpa using hCollected.added.cache) (hSame ▸ hCycles) v₂
  refine ⟨q, time, v₃, hSame, ?_⟩
  rw [run_eq, on_bind_ok hStart, on_bind_ok hPlain, hEnd]

/-- At the end of a session in which only analyses of this project wrote the
file of its cache, an analysis that nothing locks out and that gives a
report with the cache gives one without, and the two agree. -/
theorem cached_report_agrees {start : Path} {report : Report} (hSession : Session place past w)
    (hPlace : ∀ q, CachePlace w root given q → q = place)
    (hRoot : w.here.resolve w.disk root = .ok start)
    (hProject : ∀ v ∈ past, ∀ other, v.Stored place other → other = start)
    (hDigests : ∀ v ∈ past, Distinguished v.world w) (hUnlocked : w.Unlocked)
    (hCached : (run root true given).on w = (.ok report, w')) :
    ∃ plain w'', (run root false given).on w = (.ok plain, w'') ∧ Agree report plain := by
  rw [run_eq] at hCached
  obtain ⟨plan, w₁, hStart, hRest⟩ := of_on_bind hCached
  obtain ⟨x, w₂, hCollect, hFinish⟩ := of_on_bind hRest
  have hLooked := looks_start root given w
  rw [hStart] at hLooked
  have hPlanned := gives_start hSession.kept.proper w.here root given w plan w₁ rfl rfl hStart
  obtain rfl := Except.ok.inj (hRoot.symm.trans hPlanned.root)
  have hCollected := gives_collect hPlanned true w₁ _ _ hLooked.disk hLooked.here hCollect
  obtain ⟨time, cycles, saved, hCycles, hSaved, rfl⟩ := finish_on_ok hFinish
  obtain ⟨p, time', v, hSame, hPlain⟩ := collected_reported hSession hUnlocked hPlace hProject hDigests hStart hCollect
    hCycles
  exact ⟨_, v, hPlain, agree_report plan hSame.symm hCollected.warnings (by simp) time time' cycles hSaved⟩

/-- Both analyses of the project give reports, and these agree, though one
of them takes a record from the cache. -/
theorem Sample.reports_agree : ∃ report plain w' w'',
    (run project true (some {})).on after = (.ok report, w') ∧
    (run project false (some {})).on after = (.ok plain, w'') ∧ report.files.length = 3 ∧ report.summary.cacheHits = 1 ∧
    Agree report plain := by
  obtain ⟨hRoot, -, hReports, -⟩ := after_reports
  obtain ⟨report, w', hRun, hLength, hHits⟩ := exists_of_reports hReports
  obtain ⟨plain, w'', hPlain, hAgree⟩ := cached_report_agrees session place_eq hRoot stored_eq
    distinguished unlocked hRun
  exact ⟨report, plain, w', w'', hRun, hPlain, hLength, hHits, hAgree⟩

end SourceAtlas.Analysis
