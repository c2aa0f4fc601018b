import SourceAtlas.Proofs.Analysis.Identity
import SourceAtlas.Proofs.Graph.Cycles
import SourceAtlas.Proofs.Walk

/-!
When an analysis without a cache gives a report. A file that cannot be read, decoded or parsed does
not stop it; an import that leads to a path too long to be asked about does.
-/
namespace SourceAtlas.Analysis

open SourceAtlas.Action

variable {w w₁ : World} {root : Path} {given : Option Config}

/-- What an analysis needs before it walks: its configuration, and a root
that can be listed. -/
def prepare (root : Path) (given : Option Config) : Action (Config × Scan.Opening) := do
  let root ← Action.resolve root
  let config ← configOf root given
  let x ← Scan.opening (scanOptions config) root
  return (config, x)

/-- Where the scan is stuck nowhere, an analysis finds its files, and then
it depends on these what becomes of it. -/
theorem start_of_prepare {config : Config} {x : Scan.Opening}
    (hPrepare : (prepare root given).on w = (.ok (config, x), w₁))
    (hClear : ∀ p, Scan.Walked w.disk (scanOptions config) x.root p →
      ¬ Scan.Stuck w.disk (scanOptions config) x.ignoring p) :
    ∃ plan w', (start root given).on w = (.ok plan, w') ∧ plan.config = config := by
  obtain ⟨base, w₂, hRoot, hRest⟩ := of_on_bind hPrepare
  obtain ⟨config', w₃, hConfig, hRest⟩ := of_on_bind hRest
  obtain ⟨x', w₄, hOpening, hResult⟩ := of_on_bind hRest
  obtain ⟨rfl, rfl⟩ := Prod.mk.inj (Except.ok.inj (Prod.mk.inj hResult).1)
  have hLooked := looks_resolve root w
  rw [hRoot] at hLooked
  have hLooked' := looks_configOf base given w₂
  rw [hConfig] at hLooked'
  rw [← hLooked.disk, ← hLooked'.disk] at hClear
  obtain ⟨found, w', hProject⟩ := Scan.project_of_opening hOpening hClear
  rw [start, on_bind_ok hRoot, on_bind_ok hConfig, on_bind_ok hProject]
  exact ⟨_, _, rfl, rfl⟩

/-- A file whose content stops the analysis once it is read. -/
def Halts (w : World) (plan : Plan) (path : Path) : Prop :=
  ∃ bytes, w.content? path = some bytes ∧ Extraction.Stops w path plan.config.extensions bytes

/-- A report with one record and one node for each file of
the scan, in order. -/
structure Complete (w : World) (plan : Plan) (report : Report) : Prop where
  records : List.Forall₂ (Extracted w plan.root) plan.scan.files report.files
  nodes : report.graph.nodes.map Node.id = plan.scan.files.map fun path => path.relativeText plan.root
  distinct : (report.graph.nodes.map Node.id).Nodup

theorem complete_report {plan : Plan} {base : Path} (hSound : Scan.Sound w.disk base plan.scan)
    {x : Progress × Option Cache × List Warning}
    (hRecords : List.Forall₂ (Extracted w plan.root) plan.scan.files x.1.records) (time : Text)
    (cycles : List Cycle) (warnings : List Warning) :
    Complete w plan (plan.report x time cycles warnings) := by
  have hClassified : List.Forall₂ (Extracted w plan.root) plan.scan.files
      (x.1.records.map Classification.classify) := by
    rw [List.forall₂_map_right_iff]
    exact hRecords.imp fun path r hExtracted => ⟨hExtracted.file, hExtracted.relative, hExtracted.failure⟩
  have hIds : (plan.report x time cycles warnings).graph.nodes.map Node.id =
      plan.scan.files.map fun path => path.relativeText plan.root := by
    rw [plan.report_ids]
    exact map_eq_of_forall₂ hClassified fun _ _ hExtracted => hExtracted.relative
  exact ⟨hClassified, hIds, hIds ▸ relativeTexts_nodup hSound plan.root⟩

/-- Without a cache an analysis comes to a report if none of
its files halts it. -/
theorem run_completes (hProper : w.disk.Proper) {plan : Plan}
    (hStart : (start root given).on w = (.ok plan, w₁))
    (hClear : ∀ path ∈ plan.scan.files, ¬ Halts w plan path) :
    ∃ report w', (run root false given).on w = (.ok report, w') ∧ Complete w plan report := by
  have hLooked := looks_start root given w
  rw [hStart] at hLooked
  have hPlanned := gives_start hProper w.here root given w plan w₁ rfl rfl hStart
  obtain ⟨base, -, -, hSound⟩ := hPlanned.scan
  have hFiles : ∀ path ∈ plan.scan.files, ∃ bytes, w.content? path = some bytes ∧
      ¬ Extraction.Stops w path plan.config.extensions bytes := by
    intro path hPath
    obtain ⟨bytes, hContent⟩ := hPlanned.content hPath
    exact ⟨bytes, hContent, fun hStops => hClear path hPath ⟨bytes, hContent, hStops⟩⟩
  obtain ⟨records, w₂, hFold, hExtracted⟩ :=
    addFiles_uncached hFiles (p := { cache := none }) rfl plan.root hLooked
  obtain ⟨x, hCollect, hCache, rfl⟩ : ∃ x, (collect false plan).on w₁ = (.ok x, w₂) ∧
      x.1.cache = none ∧ x.1.records = records := by
    rw [collect, on_bind_ok (show (openIf false plan).on w₁ = (.ok (none, []), w₁) from rfl)]
    rw [on_bind_ok hFold]
    exact ⟨_, rfl, rfl, rfl⟩
  obtain ⟨cycles, hCycles⟩ := Cycle.detect_ofRecords (x.1.records.map Classification.classify)
  obtain ⟨time, w', hFinish⟩ := finish_uncached plan hCache hCycles w₂
  refine ⟨_, w', ?_, complete_report hSound hExtracted time cycles []⟩
  rw [run_eq, on_bind_ok hStart, on_bind_ok hCollect, hFinish]

/-- Where nothing is locked an analysis fails at a file that halts it,
whatever the other files are. -/
theorem run_halts (hProper : w.disk.Proper) (hUnlocked : w.Unlocked) {plan : Plan}
    (hStart : (start root given).on w = (.ok plan, w₁)) {path : Path} (hPath : path ∈ plan.scan.files)
    (hHalts : Halts w plan path) :
    ∃ e w', (run root false given).on w = (.error (.system e), w') := by
  have hRun := run_uncached hProper hUnlocked hStart
  obtain ⟨bytes, hContent, hStops⟩ := hHalts
  obtain ⟨e, hRecords⟩ : ∃ e,
      plan.scan.files.mapM (recordNow w plan.root plan.config.extensions) = .error e := by
    refine mapM_eq_error_iff.mpr ⟨path, hPath, ?_⟩
    rw [recordNow, hContent, Option.getD_some]
    exact Extraction.record_eq_error_iff.mpr hStops
  rw [hRecords] at hRun
  exact ⟨e, hRun⟩

/-- An analysis without a cache whose root can be listed and whose
configuration is valid, and which is stuck nowhere on its way, gives a
report with one record and one node for each file that it found, unless
an import of one of them is blocked. A file that cannot be read, decoded
or parsed has a record that says so. -/
theorem uncached_analysis_outcome {config : Config} {x : Scan.Opening} (hProper : w.disk.Proper)
    (hPrepare : (prepare root given).on w = (.ok (config, x), w₁))
    (hClear : ∀ p, Scan.Walked w.disk (scanOptions config) x.root p →
      ¬ Scan.Stuck w.disk (scanOptions config) x.ignoring p) :
    ∃ plan v, (start root given).on w = (.ok plan, v) ∧ plan.config = config ∧
      ((∀ path ∈ plan.scan.files, ¬ Halts w plan path) →
        ∃ report w', (run root false given).on w = (.ok report, w') ∧ Complete w plan report) ∧
      (w.Unlocked → (∃ path ∈ plan.scan.files, Halts w plan path) →
        ∃ e w', (run root false given).on w = (.error (.system e), w')) := by
  obtain ⟨plan, v, hStart, hConfig⟩ := start_of_prepare hPrepare hClear
  refine ⟨plan, v, hStart, hConfig, run_completes hProper hStart, ?_⟩
  rintro hUnlocked ⟨path, hPath, hHalts⟩
  exact run_halts hProper hUnlocked hStart hPath hHalts

namespace Sample

def source : Path := ⟨.root, ["p", "a.ts"]⟩

def neighbour : Path := ⟨.root, ["p", "c.ts"]⟩

/-- Whether an analysis begins without ignore rules. -/
def noRules (x : Config × Scan.Opening) (_ : World) : Bool :=
  x.1 = {} && x.2.root = project && x.2.ignoring = []

def twoFiles (plan : Plan) (_ : World) : Bool := plan.root = project && plan.scan.files = [source, neighbour]

theorem before_prepared : passes noRules ((prepare project (some {})).on before) = true ∧
    passes twoFiles ((start project (some {})).on before) = true := by
  decide +kernel

theorem before_walked {p : Path} (hWalked : Scan.Walked before.disk (scanOptions {}) project p) :
    p = source ∨ p = neighbour := by
  induction hWalked with
  | @top place n hStart hName =>
      obtain rfl : (["p"] : Place) = place := by
        have hProject : before.disk.locate true project = .ok (.found ["p"] .directory) := by decide
        simpa [hProject] using hStart
      have hNames : before.disk.names ["p"] = (["a.ts", "c.ts"] : Place) := by decide
      rw [hNames, List.mem_cons, List.mem_singleton] at hName
      rcases hName with rfl | rfl
      · exact .inl rfl
      · exact .inr rfl
  | @down q place n _ hEnters _ ih =>
      have hNone : before.disk.isDirectory q = .ok false := by
        rcases ih with rfl | rfl <;> decide +kernel
      rw [Disk.isDirectory, Disk.test, Disk.entry_eq_ok_iff.mpr hEnters.directory] at hNone
      cases hNone

theorem before_clear (p : Path) (hWalked : Scan.Walked before.disk (scanOptions {}) project p) :
    ¬ Scan.Stuck before.disk (scanOptions {}) [] p := by
  rintro (hLong | ⟨-, -, -, e, hIgnores⟩)
  · revert hLong
    rcases before_walked hWalked with rfl | rfl <;> decide +kernel
  · cases hIgnores

theorem before_content {p : Path} (hFile : p = source ∨ p = neighbour) :
    before.content? p = some (Text.Utf8.encode "import './b';") ∧
      (Extraction.record before p project [".ts"] (Text.Utf8.encode "import './b';")).toBool = true := by
  rcases hFile with rfl | rfl <;> decide +kernel

theorem before_runs {plan : Plan} (hFiles : plan.scan.files = [source, neighbour]) (hConfig : plan.config = {}) :
    ∀ path ∈ plan.scan.files, ¬ Halts before plan path := by
  rintro path hPath ⟨bytes, hContent, hStops⟩
  rw [hFiles, List.mem_cons, List.mem_singleton] at hPath
  obtain ⟨hBytes, hOk⟩ := before_content hPath
  obtain rfl := Option.some.inj (hContent.symm.trans hBytes)
  rw [hConfig] at hStops
  obtain ⟨e, hError⟩ : ∃ e, Extraction.record before path project _ _ = .error e :=
    Extraction.record_eq_error_iff.mpr hStops
  rw [hError] at hOk
  cases hOk

/-- A file that cannot be read at the first attempt does not
stop the analysis. -/
theorem locked_file_reported : ∃ plan report w', (run project false (some {})).on before = (.ok report, w') ∧
    plan.scan.files = [source, neighbour] ∧ Complete before plan report := by
  obtain ⟨⟨config, x⟩, w₁, hPrepare, hEntry⟩ := exists_of_passes before_prepared.1
  simp only [noRules, Bool.and_eq_true, decide_eq_true_eq] at hEntry
  obtain ⟨⟨rfl, hRoot⟩, hIgnoring⟩ := hEntry
  have hClear : ∀ p, Scan.Walked before.disk (scanOptions {}) x.root p →
      ¬ Scan.Stuck before.disk (scanOptions {}) x.ignoring p := by
    rw [hRoot, hIgnoring]
    exact before_clear
  obtain ⟨plan, v, hStart, hConfig, hReports, -⟩ :=
    uncached_analysis_outcome (by decide) hPrepare hClear
  obtain ⟨plan', v', hStart', hFile⟩ := exists_of_passes before_prepared.2
  obtain rfl : plan = plan' := Except.ok.inj (Prod.mk.inj (hStart.symm.trans hStart')).1
  simp only [twoFiles, Bool.and_eq_true, decide_eq_true_eq] at hFile
  obtain ⟨report, w', hRun, hComplete⟩ := hReports (before_runs hFile.2 hConfig)
  exact ⟨plan, report, w', hRun, hFile.2, hComplete⟩

end Sample

end SourceAtlas.Analysis
