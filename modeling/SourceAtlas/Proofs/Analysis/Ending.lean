import SourceAtlas.Proofs.Analysis.Identity
import SourceAtlas.Proofs.Analysis.Transparency
import SourceAtlas.Proofs.Cache.RoundTrip
import SourceAtlas.Proofs.Report

/-!
How an analysis ends once its records are there. It stops only as saving its cache does, and what its
report shows is all there.
-/
namespace SourceAtlas

open SourceAtlas.Action

namespace Analysis

variable {place : Place} {past : List Visit} {w w' w₁ : World} {root : Path} {given : Option Config}
  {report plain : Report} {plan : Plan} {useCache : Bool}

section Stops

variable {P : Failure → Prop}

theorem stopsBy_finishCache {p : Progress} {files : List Path}
    (hSave : ∀ c, p.cache = some c → StopsBy (fun f => f.IsRefusal ∨ P f) (c.keepOnly files).save) :
    StopsBy P (finishCache p files) := by
  rw [finishCache]
  split
  · exact stopsBy_pure _
  · next c hCache =>
    have hSaved : StopsBy P (saveCache c files) := by
      intro w f w' hRun
      obtain ⟨v, -, hPruned⟩ := c.prune_on files w
      rw [saveCache, on_bind_ok hPruned] at hRun
      refine StopsBy.bind ((hSave c hCache).attempt fun f hf => hf) (fun saved => ?_) v f w' hRun
      split
      · exact stopsBy_pure _
      · exact (stopsBy_log _ _ _).bind fun _ => stopsBy_pure _
    refine hSaved.bind fun warnings => ?_
    dsimp only
    split
    · exact (stopsBy_log _ _ _).bind fun _ => stopsBy_pure _
    · exact stopsBy_pure _

/-- Once the records are there an analysis stops only as
saving its cache does. -/
theorem stopsBy_finish (plan : Plan) {x : Progress × Option Cache × List Warning}
    (hSave : ∀ c, x.1.cache = some c →
      StopsBy (fun f => f.IsRefusal ∨ P f) (c.keepOnly plan.scan.files).save) :
    StopsBy P (finish plan x) := by
  have hCycles : StopsBy P (findCycles (.ofRecords (x.1.records.map Classification.classify))) := by
    intro w f w' hRun
    obtain ⟨cycles, hDetect⟩ := Cycle.detect_ofRecords (x.1.records.map Classification.classify)
    rw [findCycles, hDetect] at hRun
    cases hRun
  refine hCycles.bind fun cycles => (stopsBy_finishCache hSave).bind fun warnings => ?_
  exact (stopsBy_log _ _ _).bind fun _ => stopsBy_now.bind fun _ => stopsBy_pure _

end Stops

/-- The project has a place for its cache, under a path that
the system takes. -/
def CacheReady (w : World) (root : Path) (given : Option Config) : Prop :=
  ∃ file w', (cachePath root given).on w = (.ok file, w') ∧ file.Clean ∧
    w.disk.locate true (w.here.join file) ≠ .error (.errno .nameTooLong)

theorem openIf_answers (hStart : (start root given).on w = (.ok plan, w₁))
    (hReady : useCache = true → CacheReady w root given) :
    ∃ opened v, (openIf useCache plan).on w₁ = (.ok opened, v) := by
  cases useCache with
  | false => exact ⟨_, _, rfl⟩
  | true =>
      obtain ⟨file, v, hFile, -, hShort⟩ := hReady rfl
      have hLooked := (looks_start root given).run hStart
      -- the path of the cache is the same after the scan
      have hSame := cachePath_of_start hStart hLooked.disk hLooked.here
      rw [hFile] at hSame
      have hCacheFile : (plan.config.cacheFile plan.root).on w₁ =
          (.ok file, ((plan.config.cacheFile plan.root).on w₁).2) := Prod.ext hSame.symm rfl
      have hLooked' := hLooked.trans (looks_cacheFile plan.root plan.config w₁)
      obtain ⟨⟨c, present⟩, v', hLoad⟩ := Cache.load_answers (c := { file := file, project := plan.root })
        (by rwa [hLooked'.disk, hLooked'.here])
      simp only [openIf, if_true, openCache, bind_assoc]
      rw [on_bind_ok hCacheFile, on_bind_ok hLoad]
      dsimp only
      split <;> exact ⟨_, _, rfl⟩

/-- The cache that an analysis saves has the path of the project's cache, so
that saving it can be refused but cannot stop the analysis. -/
theorem Collected.clean {x : Progress × Option Cache × List Warning}
    (hCollected : Collected w plan useCache x) (hStart : (start root given).on w = (.ok plan, w₁))
    (hReady : useCache = true → CacheReady w root given) :
    ∀ c, x.1.cache = some c → c.file.isAbsolute = true ∧ c.file.Clean := by
  intro c hCache
  rcases hOpened : x.2.1 with _ | c'
  · have hNone : x.1.cache = none := by simpa [hOpened] using hCollected.added.cache
    rw [hNone] at hCache
    cases hCache
  · obtain ⟨c'', hSome, hFile, -⟩ : ∃ c'', x.1.cache = some c'' ∧ c''.file = c'.file ∧
        c''.version = c'.version := by
      simpa [hOpened] using hCollected.added.cache
    obtain rfl := Option.some.inj (hCache.symm.trans hSome)
    have hFacts := hCollected.opened c' hOpened
    have hUse : useCache = true := by
      rw [← hCollected.cached, hOpened]
      rfl
    obtain ⟨file, v, hPath, hClean, -⟩ := hReady hUse
    obtain ⟨v', hPath'⟩ := cachePath_on_of_opened hStart hFacts
    obtain rfl : file = c'.file := Except.ok.inj (Prod.mk.inj (hPath.symm.trans hPath')).1
    exact ⟨hFile ▸ hFacts.absolute, hFile ▸ hClean⟩

/-- From the report of an analysis nothing is missing, and its cycles are
those of its graph. -/
theorem run_showable (hRun : (run root useCache given).on w = (.ok report, w')) :
    report.Showable ∧ Cycle.detect report.graph = .ok report.cycles := by
  rw [run_eq] at hRun
  obtain ⟨plan, w₁, -, hRest⟩ := of_on_bind hRun
  obtain ⟨x, w₂, -, hFinish⟩ := of_on_bind hRest
  obtain ⟨time, cycles, saved, hCycles, -, rfl⟩ := finish_on_ok hFinish
  refine ⟨⟨fun e he => DependencyGraph.ofRecords_edges he, Metrics.counted _ _ _, fun c hc => ?_⟩, hCycles⟩
  rcases (DependencyGraph.ofRecords (x.1.records.map Classification.classify)).adjacency_cases with
    ⟨e, he, hStray, -⟩ | ⟨-, m, hAdjacency, drawn⟩
  · exact absurd (DependencyGraph.ofRecords_edges he).1 hStray
  · rw [Cycle.detect_of_drawn hAdjacency drawn] at hCycles
    obtain rfl := Except.ok.inj hCycles
    obtain ⟨members, hMembers, rfl⟩ := List.mem_map.mp hc
    have hLong := (drawn.isRound hMembers).long
    rintro hNone
    rw [show members = [] from hNone] at hLong
    simp at hLong

/-- Without a cache the nodes of a report have different names, since the
files of a scan have. -/
theorem uncached_nodup (hProper : w.disk.Proper) (hRun : (run root false given).on w = (.ok report, w')) :
    (report.graph.nodes.map Node.id).Nodup := by
  rw [run_eq] at hRun
  obtain ⟨plan, w₁, hStart, hRest⟩ := of_on_bind hRun
  obtain ⟨x, w₂, hCollect, hFinish⟩ := of_on_bind hRest
  have hLooked := looks_start root given w
  rw [hStart] at hLooked
  have hPlanned := gives_start hProper w.here root given w plan w₁ rfl rfl hStart
  obtain ⟨base, -, -, hSound⟩ := hPlanned.scan
  have hCollected := gives_collect hPlanned false w₁ x w₂ hLooked.disk hLooked.here hCollect
  obtain ⟨time, cycles, saved, -, -, rfl⟩ := finish_on_ok hFinish
  obtain ⟨rs, hRecords, hFiled⟩ := hCollected.added.records
  have hIdentified : List.Forall₂ (Identified [] [] plan.root) plan.scan.files
      (x.1.records.map Classification.classify) := by
    rw [show x.1.records = rs by simpa using hRecords, List.forall₂_map_right_iff]
    refine ((List.forall₂_and_left _ _).mpr ⟨hSound.found, hFiled⟩).imp fun path r hBoth => ?_
    refine hBoth.2.identified (fun e hKnown => ?_) hBoth.1.named
    rcases hKnown with hMade | ⟨c, hCache, -⟩
    · exact .inl ⟨w, hMade⟩
    · have hNone := hCollected.cached
      rw [hCache] at hNone
      cases hNone
  rw [plan.report_ids, relativePaths_eq hIdentified (by simp)]
  exact relativeTexts_nodup hSound plan.root

end Analysis

end SourceAtlas
