import SourceAtlas.Proofs.Analysis.Session

/-!
How the records of a report name their files. A record is named as seen from the root that it was
made for; that is the root of the analysis, or of an earlier one that wrote the same cache.
-/
namespace SourceAtlas.Analysis

open SourceAtlas.Action

variable {place : Place} {past : List Visit} {w w' : World} {root path : Path} {given : Option Config}

/-- Whose record a file has: that of this analysis, or of an earlier one
that wrote the cache. -/
def Origin (place : Place) (past : List Visit) (start origin : Path) : Prop :=
  origin = start ∨ ∃ v ∈ past, v.Stored place origin

/-- A record of a file, named as seen from the root it was made for. -/
structure Identified (place : Place) (past : List Visit) (start path : Path) (r : Record) : Prop where
  file : r.path = path.text
  relative : ∃ origin, Origin place past start origin ∧ r.relativePath = path.relativeText origin

/-- The record of an entry names its file as seen from the root that the
entry was made for. -/
theorem Made.names {start : Path} {e : CacheEntry} (hMade : Made w start e) (hNamed : path.Named)
    (hKey : e.path = path.text) :
    e.record.path = path.text ∧ e.record.relativePath = path.relativeText start := by
  obtain ⟨hNamed', hPath, -, -, hRecord⟩ := hMade
  obtain rfl := Path.text_injective hNamed'.readable hNamed.readable (hPath.symm.trans hKey)
  obtain ⟨hSame, hRelative, -⟩ := Extraction.record_eq_ok hRecord
  exact ⟨hSame, hRelative⟩

/-- A record that an analysis files is identified if its entries stem from
the session. -/
theorem Filed.identified {Q : CacheEntry → Prop} {start : Path} {r : Record} (hFiled : Filed Q start path r)
    (hEntries : ∀ e, Q e → (∃ v, Made v start e) ∨ Stems place past e) (hNamed : path.Named) :
    Identified place past start path (Classification.classify r) := by
  cases hFiled with
  | made hPath hRelative => exact ⟨hPath, start, .inl rfl, hRelative⟩
  | @remembered e hEntry hKey hPath hRelative =>
      rcases hEntries e hEntry with ⟨v, hMade⟩ | ⟨v, hv, origin, hStored, hMade⟩
      · obtain ⟨hSame, hFrom⟩ := hMade.names hNamed hKey
        exact ⟨hPath.trans hSame, start, .inl rfl, hRelative.trans hFrom⟩
      · obtain ⟨hSame, hFrom⟩ := hMade.names hNamed hKey
        exact ⟨hPath.trans hSame, origin, .inr ⟨v, hv, hStored⟩, hRelative.trans hFrom⟩

/-- Where only analyses of one root wrote the cache, every record is named
as seen from it. -/
theorem Identified.relativePath_eq {start : Path} {r : Record} (hIdentified : Identified place past start path r)
    (hProject : ∀ v ∈ past, ∀ other, v.Stored place other → other = start) :
    r.relativePath = path.relativeText start := by
  obtain ⟨origin, hOrigin, hRelative⟩ := hIdentified.relative
  rcases hOrigin with rfl | ⟨v, hv, hStored⟩
  · exact hRelative
  · obtain rfl := hProject v hv origin hStored
    exact hRelative

theorem relativePaths_eq {start : Path} {files : List Path} {records : List Record}
    (hRecords : List.Forall₂ (Identified place past start) files records)
    (hProject : ∀ v ∈ past, ∀ other, v.Stored place other → other = start) :
    records.map Record.relativePath = files.map fun path => path.relativeText start :=
  map_eq_of_forall₂ hRecords fun _ _ hIdentified => hIdentified.relativePath_eq hProject

/-- Files found by a scan have different names as seen from any directory,
within it or outside of it. -/
theorem relativeTexts_nodup {d : Disk} {base : Path} {s : Scan} (hSound : Scan.Sound d base s) (start : Path) :
    (s.files.map fun path => path.relativeText start).Nodup := by
  refine List.Nodup.map_on (fun p hp q hq hSame => ?_) hSound.nodup
  have hFound := hSound.found p hp
  have hFound' := hSound.found q hq
  exact Path.relativeText_injective hFound.named hFound'.named hFound.anchor hFound'.anchor hSame

/-- The cache that an analysis opened has an entry made for a root, and the
entry stands in for a file as it is now. -/
def RememberedFrom (w : World) (opened : Option Cache) (path other : Path) : Prop :=
  ∃ e v, current? w opened path = some e ∧ Made v other e

/-- Two roots name a file alike if they are the same, or if the file lies
below neither. -/
def SameView (path other start : Path) : Prop :=
  other = start ∨ path.relativeTo? other = none ∧ path.relativeTo? start = none

/-- The record that is chosen for a file is named as seen from the root of
the analysis exactly if no entry of another root stands in for the file. -/
theorem Chosen.relativePath_eq_iff {opened : Option Cache} {start : Path} {r : Record}
    (hChosen : Chosen w opened start path r) (hNamed : path.Named) (hAnchor : path.anchor = .root)
    (hEntries : Entries (fun e => ∃ v other, Made v other e) opened) :
    r.relativePath = path.relativeText start ↔
      ∀ other, RememberedFrom w opened path other → SameView path other start := by
  rw [Chosen] at hChosen
  rcases hCurrent : current? w opened path with _ | e <;> rw [hCurrent] at hChosen
  · refine ⟨fun _ other hFrom => ?_, fun _ => hChosen.2⟩
    obtain ⟨e, v, hSome, -⟩ := hFrom
    rw [hCurrent] at hSome
    cases hSome
  · have hEntry : e.path = path.text ∧ ∃ v other, Made v other e := by
      rw [current?] at hCurrent
      split at hCurrent
      · obtain ⟨hKey, -, hMade⟩ := hEntries.of_current? hCurrent
        exact ⟨hKey, hMade⟩
      · cases hCurrent
    obtain ⟨hKey, v, other, hMade⟩ := hEntry
    constructor
    · rintro hRelative other' ⟨e', v', hSome, hMade'⟩
      obtain rfl := Option.some.inj (hCurrent.symm.trans hSome)
      refine (Path.relativeText_eq_iff hNamed hAnchor).mp ?_
      rw [← (hMade'.names hNamed hKey).2, ← hChosen.2, hRelative]
    · intro hAll
      have hSame := (Path.relativeText_eq_iff hNamed hAnchor).mpr (hAll other ⟨e, v, hCurrent, hMade⟩)
      rw [hChosen.2, (hMade.names hNamed hKey).2, hSame]

/-- Where nothing is locked, the entries of the cache that was opened decide
on all records. -/
theorem collect_chosen {useCache : Bool} {plan : Plan} (hUnlocked : w.Unlocked)
    (hPlanned : Planned w.disk w.here root plan) {v v' : World} (hLooked : w.Looked v)
    {x : Progress × Option Cache × List Warning} (hCollect : (collect useCache plan).on v = (.ok x, v')) :
    List.Forall₂ (Chosen w x.2.1 plan.root) plan.scan.files x.1.records := by
  obtain ⟨opened, v₁, hOpen, hRest⟩ := of_on_bind hCollect
  obtain ⟨progress, v₂, hFold, hResult⟩ := of_on_bind hRest
  obtain rfl := Except.ok.inj (Prod.mk.inj hResult).1
  have hLooked' := looks_openIf useCache plan v
  rw [hOpen] at hLooked'
  obtain ⟨_, -, -, hSound⟩ := hPlanned.scan
  have hNodup : (plan.scan.files.map Path.text).Nodup := by
    refine List.Nodup.map_on (fun p hp q hq hSame => ?_) hSound.nodup
    exact Path.text_injective (hSound.found p hp).named.readable (hSound.found q hq).named.readable hSame
  obtain ⟨rs, hRecords, hChosen⟩ := addFiles_chosen hUnlocked (fun p hp => hPlanned.content hp) hNodup
    (fun _ _ _ => rfl) (hLooked.trans hLooked') hFold
  rw [show progress.records = rs by simpa using hRecords]
  exact hChosen

/-- At the end of every session a report has one record for each file of the
scan, in order, which names the file and is named as seen from the root of
this analysis or of an earlier one that wrote the same cache. Where nothing
is locked it is named as seen from this root exactly if the cache has no
current entry of the file from another one. If all that wrote the cache were
of this root, the nodes of the graph have different names, as seen from it. -/
theorem report_identity {useCache : Bool} {report : Report} (hSession : Session place past w)
    (hPlace : useCache = true → ∀ q, CachePlace w root given q → q = place)
    (hRun : (run root useCache given).on w = (.ok report, w')) :
    ∃ plan v opened v', (start root given).on w = (.ok plan, v) ∧
      (openIf useCache plan).on v = (.ok opened, v') ∧
      w.here.resolve w.disk root = .ok plan.root ∧
      List.Forall₂ (Identified place past plan.root) plan.scan.files report.files ∧
      (w.Unlocked → List.Forall₂ (fun path r => r.relativePath = path.relativeText plan.root ↔
        ∀ other, RememberedFrom w opened.1 path other → SameView path other plan.root)
        plan.scan.files report.files) ∧
      ((∀ v ∈ past, ∀ other, v.Stored place other → other = plan.root) →
        report.graph.nodes.map Node.id = plan.scan.files.map (fun path => path.relativeText plan.root) ∧
        (report.graph.nodes.map Node.id).Nodup) := by
  rw [run_eq] at hRun
  obtain ⟨plan, w₁, hStart, hRest⟩ := of_on_bind hRun
  obtain ⟨x, w₂, hCollect, hFinish⟩ := of_on_bind hRest
  have hLooked := looks_start root given w
  rw [hStart] at hLooked
  have hPlanned := gives_start hSession.kept.proper w.here root given w plan w₁ rfl rfl hStart
  obtain ⟨base, -, -, hSound⟩ := hPlanned.scan
  have hCollected := gives_collect hPlanned useCache w₁ x w₂ hLooked.disk hLooked.here hCollect
  obtain ⟨time, cycles, saved, -, -, rfl⟩ := finish_on_ok hFinish
  obtain ⟨rs, hRecords, hFiled⟩ := hCollected.added.records
  have hKnown : ∀ e, Known w plan x.2.1 e → (∃ v, Made v plan.root e) ∨ Stems place past e := by
    rintro e (hMade | ⟨c, hCache, hHeld⟩)
    · exact .inl ⟨w, hMade⟩
    · have hUse : useCache = true := by
        rw [← hCollected.cached, hCache]
        rfl
      exact .inr (stems_opened hSession hStart (hCollected.opened c hCache) (hPlace hUse) hHeld).2
  have hIdentified : List.Forall₂ (Identified place past plan.root) plan.scan.files
      (x.1.records.map Classification.classify) := by
    rw [show x.1.records = rs by simpa using hRecords, List.forall₂_map_right_iff]
    refine ((List.forall₂_and_left _ _).mpr ⟨hSound.found, hFiled⟩).imp fun path r hBoth => ?_
    exact hBoth.2.identified hKnown hBoth.1.named
  obtain ⟨v, hOpen⟩ := collect_opened hCollect
  refine ⟨plan, w₁, x.2, v, hStart, hOpen, hPlanned.root, hIdentified, fun hUnlocked => ?_,
    fun hProject => ?_⟩
  · have hChosen := collect_chosen hUnlocked hPlanned hLooked hCollect
    have hMade : Entries (fun e => ∃ v other, Made v other e) x.2.1 := by
      intro c hc p hp
      refine ((hCollected.opened c hc).entries c rfl p hp).imp_right fun hHeld => ?_
      rcases hKnown p.2 (.inr ⟨c, hc, hHeld⟩) with ⟨v, hMade⟩ | ⟨v, -, other, -, hMade⟩
      · exact ⟨v, plan.root, hMade⟩
      · exact ⟨v.world, other, hMade⟩
    show List.Forall₂ _ _ (x.1.records.map Classification.classify)
    rw [List.forall₂_map_right_iff]
    refine ((List.forall₂_and_left _ _).mpr ⟨hSound.found, hChosen⟩).imp fun path r hBoth => ?_
    exact hBoth.2.relativePath_eq_iff hBoth.1.named hBoth.1.anchor hMade
  · rw [plan.report_ids, relativePaths_eq hIdentified hProject]
    exact ⟨rfl, relativeTexts_nodup hSound plan.root⟩

/-- The nodes of the report on the project have different names, as seen
from its root. -/
theorem Sample.nodes_named : ∃ (report : Report) (w' : World) (files : List Path),
    (run project true (some {})).on after = (.ok report, w') ∧ report.files.length = 3 ∧ report.summary.cacheHits = 1 ∧
    report.graph.nodes.map Node.id = files.map (fun path => path.relativeText project) ∧
    (report.graph.nodes.map Node.id).Nodup := by
  obtain ⟨hRoot, -, hReports, -⟩ := after_reports
  obtain ⟨report, w', hRun, hLength, hHits⟩ := exists_of_reports hReports
  obtain ⟨plan, v, opened, v', -, -, hCanonical, -, -, hNamed⟩ :=
    report_identity session (fun _ => place_eq) hRun
  obtain hSame : project = plan.root := Except.ok.inj (hRoot.symm.trans hCanonical)
  rw [← hSame] at hNamed
  obtain ⟨hIds, hNodup⟩ := hNamed stored_eq
  exact ⟨report, w', plan.scan.files, hRun, hLength, hHits, hIds, hNodup⟩

end SourceAtlas.Analysis
