import SourceAtlas.Proofs.Analysis.Session
import SourceAtlas.Proofs.Cache.Confinement
import SourceAtlas.Proofs.Config
import SourceAtlas.Verification

/-!
What the program does to the tree it analyses. Without a cache nothing, with one only what writing
its file takes, and where it stops nothing either way.
-/
namespace SourceAtlas

namespace Action

variable {α β : Type} {a : Action α} {f : α → Action β}

/-- An action that changes the disk only if it comes through. -/
def KeepsOnStop (a : Action α) : Prop :=
  ∀ (w : World) (e : Failure) (w' : World), a.on w = (.error e, w') → w'.disk = w.disk

/-- What keeps the disk when it stops keeps it after some looking, too. -/
theorem KeepsOnStop.after_looks (hLooks : Looks a) (hNext : ∀ x, KeepsOnStop (f x)) :
    KeepsOnStop (a >>= f) := by
  intro w e w' hRun
  have hLooked := hLooks w
  rw [on_bind] at hRun
  rcases hStep : a.on w with ⟨e' | x, v⟩ <;> rw [hStep] at hRun hLooked
  · obtain ⟨-, rfl⟩ := Prod.mk.inj hRun
    exact hLooked.disk
  · exact (hNext x v e w' hRun).trans hLooked.disk

/-- What cannot stop any more may come after the disk was changed: there is
no failure left that would have to keep it. -/
theorem KeepsOnStop.then_unstoppable (hFirst : KeepsOnStop a)
    (hNext : ∀ x, StopsBy (fun _ => False) (f x)) : KeepsOnStop (a >>= f) := by
  intro w e w' hRun
  rw [on_bind] at hRun
  rcases hStep : a.on w with ⟨e' | x, v⟩ <;> rw [hStep] at hRun
  · obtain ⟨-, rfl⟩ := Prod.mk.inj hRun
    exact hFirst w e' v hStep
  · exact (hNext x v e w' hRun).elim

/-- An attempt does not stop for refusals of the system, so only other
failures count. -/
theorem keepsOnStop_attempt
    (hStops : ∀ (w : World) (e : Failure) (w' : World), a.on w = (.error e, w') →
      e.IsRefusal ∨ w'.disk = w.disk) : KeepsOnStop (attempt a) := by
  intro w e w' hRun
  rw [on_attempt] at hRun
  rcases hStep : a.on w with ⟨e' | x, v⟩ <;> rw [hStep] at hRun
  · cases e' with
    | system _ => cases (Prod.mk.inj hRun).1
    | _ =>
        obtain ⟨-, rfl⟩ := Prod.mk.inj hRun
        refine (hStops w _ v hStep).resolve_left ?_
        rintro ⟨_, hSystem⟩
        cases hSystem
  · cases (Prod.mk.inj hRun).1

end Action

namespace Analysis

open SourceAtlas.Action Disk

variable {w w' : World} {root : Path} {given : Option Config} {plan : Plan} {useCache : Bool}

section Saving

variable {c : Cache} {folder : Path} (hFile : c.file = Scan.child folder Config.cacheFileName)
  (hAbsolute : folder.isAbsolute = true)

include hFile hAbsolute

/-- Saving the cache writes the one file and makes directories above it,
whether it comes through or is refused. -/
theorem saveCache_confined (files : List Path) :
    Moves (World.OnDisk (Confined c.file)) (saveCache c files) := by
  intro w
  obtain ⟨v, hLooked, hPruned⟩ := c.prune_on files w
  have hSave : Moves (World.OnDisk (Confined c.file)) (c.keepOnly files).save :=
    Cache.save_confined (c := c.keepOnly files) hFile hAbsolute (by decide)
  rw [saveCache, on_bind_ok hPruned, World.OnDisk, ← hLooked.disk]
  refine onDisk_then_looks hSave.attempt (fun result => ?_) v
  split
  · exact looks_pure _
  · exact (looks_log _ _ _).bind fun _ => looks_pure _

/-- Saving the cache never stops the analysis: a refusal is taken note of. -/
theorem saveCache_keeps (files : List Path) : KeepsOnStop (saveCache c files) := by
  intro w e w' hRun
  obtain ⟨v, hLooked, hPruned⟩ := c.prune_on files w
  rw [saveCache, on_bind_ok hPruned] at hRun
  rw [← hLooked.disk]
  refine KeepsOnStop.then_unstoppable (keepsOnStop_attempt fun u e u' hSave => ?_) (fun result => ?_) v e w' hRun
  · exact Cache.save_stops (c := c.keepOnly files) hFile hAbsolute (by decide) hSave
  · split
    · exact stopsBy_pure _
    · exact (stopsBy_log _ _ _).bind fun _ => stopsBy_pure _

variable {x : Progress × Option Cache × List Warning} (hCache : x.1.cache = some c)

include hCache

/-- Finishing an analysis does no more to the disk than
saving its cache does. -/
theorem finish_confined (plan : Plan) : Moves (World.OnDisk (Confined c.file)) (finish plan x) := by
  refine onDisk_after_looks (.refl c.file) (looks_findCycles _) fun cycles => ?_
  rw [finishCache, hCache]
  refine onDisk_then_looks (onDisk_then_looks (saveCache_confined hFile hAbsolute plan.scan.files)
    fun warnings => ?_) fun _ => (looks_log _ _ _).bind fun _ => looks_now.bind fun _ => looks_pure _
  dsimp only
  split
  · exact (looks_log _ _ _).bind fun _ => looks_pure _
  · exact looks_pure _

theorem finish_keeps (plan : Plan) : KeepsOnStop (finish plan x) := by
  refine KeepsOnStop.after_looks (looks_findCycles _) fun cycles => ?_
  rw [finishCache, hCache]
  refine KeepsOnStop.then_unstoppable (KeepsOnStop.then_unstoppable
    (saveCache_keeps hFile hAbsolute plan.scan.files) fun warnings => ?_)
    fun _ => (stopsBy_log _ _ _).bind fun _ => stopsBy_now.bind fun _ => stopsBy_pure _
  dsimp only
  split
  · exact (stopsBy_log _ _ _).bind fun _ => stopsBy_pure _
  · exact stopsBy_pure _

end Saving

/-- The file of an opened cache stands under its own name in a directory,
wherever the configuration puts that. -/
theorem Opened.child {c : Cache} (hOpened : Opened w plan c) :
    ∃ folder, c.file = Scan.child folder Config.cacheFileName ∧ folder.isAbsolute = true := by
  obtain ⟨v, v', -, -, hFile⟩ := hOpened.file
  obtain ⟨base, directory, hPlaced, hSame⟩ := Config.cacheFile_on_ok hFile
  exact ⟨directory, hSame, hPlaced.isAbsolute⟩

/-- An analysis looks until it finishes, and then the disk is as it
was. If it finishes with a cache, that is the one at the path of
the project's cache. -/
theorem run_stages (hProper : w.disk.Proper) (root : Path) (useCache : Bool) (given : Option Config) :
    ((run root useCache given).on w).2.disk = w.disk ∨ ∃ plan x v, v.disk = w.disk ∧
      (run root useCache given).on w = (finish plan x).on v ∧
      (x.1.cache = none → useCache = false) ∧ ∀ c, x.1.cache = some c → useCache = true ∧
        (∃ u, (cachePath root given).on w = (.ok c.file, u)) ∧
        ∃ folder, c.file = Scan.child folder Config.cacheFileName ∧ folder.isAbsolute = true := by
  rw [run_eq]
  rcases hStart : (start root given).on w with ⟨e | plan, w₁⟩
  · rw [on_bind_error hStart]
    exact .inl ((looks_start root given).run hStart).disk
  have hLooked := (looks_start root given).run hStart
  have hPlanned := gives_start hProper w.here root given w plan w₁ rfl rfl hStart
  rw [on_bind_ok hStart]
  rcases hCollect : (collect useCache plan).on w₁ with ⟨e | x, w₂⟩
  · rw [on_bind_error hCollect]
    exact .inl (((looks_collect useCache plan).run hCollect).disk.trans hLooked.disk)
  have hLooked' := hLooked.trans ((looks_collect useCache plan).run hCollect)
  have hCollected := gives_collect hPlanned useCache w₁ x w₂ hLooked.disk hLooked.here hCollect
  have hSame : x.1.cache.map (fun c => (c.file, c.version)) = x.2.1.map fun c => (c.file, c.version) :=
    hCollected.added.cache
  refine .inr ⟨plan, x, w₂, hLooked'.disk, by rw [on_bind_ok hCollect], fun hNone => ?_, fun c hCache => ?_⟩
  · rw [hNone, Option.map_none] at hSame
    rw [← hCollected.cached, Option.map_eq_none_iff.mp hSame.symm]
    rfl
  · rw [hCache, Option.map_some] at hSame
    obtain ⟨c', hOpened, hPair⟩ := Option.map_eq_some_iff.mp hSame.symm
    have hFile : c'.file = c.file := (Prod.mk.inj hPair).1
    have hFacts := hCollected.opened c' hOpened
    rw [← hFile]
    exact ⟨by rw [← hCollected.cached, hOpened]; rfl, cachePath_on_of_opened hStart hFacts, hFacts.child⟩

/-- An analysis without its cache leaves the disk as it was,
whatever it comes to. -/
theorem run_uncached_unchanged (hProper : w.disk.Proper) (root : Path) (given : Option Config) :
    ((run root false given).on w).2.disk = w.disk := by
  rcases run_stages hProper root false given with hSame | ⟨plan, x, v, hDisk, hRun, -, hCached⟩
  · exact hSame
  · rw [hRun, ← hDisk]
    refine (looks_finish ?_ v).disk
    cases hCache : x.1.cache with
    | none => rfl
    | some c => cases (hCached c hCache).1

/-- An analysis that stops leaves the disk as it was, with the
cache in use or not. -/
theorem run_stopped_unchanged (hProper : w.disk.Proper) {f : Failure}
    (hRun : (run root useCache given).on w = (.error f, w')) : w'.disk = w.disk := by
  rcases run_stages hProper root useCache given with hSame | ⟨plan, x, v, hDisk, hFinish, -, hCached⟩
  · rwa [hRun] at hSame
  · rw [hRun] at hFinish
    rw [← hDisk]
    cases hCache : x.1.cache with
    | none => exact ((looks_finish hCache).run hFinish.symm).disk
    | some c =>
        obtain ⟨-, -, folder, hFile, hAbsolute⟩ := hCached c hCache
        exact finish_keeps hFile hAbsolute hCache plan v f w' hFinish.symm

/-- An analysis with a cache changes nothing, or only what writing the file
of the cache may change. -/
theorem run_cached_confined (hProper : w.disk.Proper) (root : Path) (given : Option Config) :
    ((run root true given).on w).2.disk = w.disk ∨ ∃ file v, (cachePath root given).on w = (.ok file, v) ∧
      w.disk.Confined file ((run root true given).on w).2.disk := by
  rcases run_stages hProper root true given with hSame | ⟨plan, x, v, hDisk, hRun, hNone, hCached⟩
  · exact .inl hSame
  · rw [hRun, ← hDisk]
    cases hCache : x.1.cache with
    | none => cases hNone hCache
    | some c =>
        obtain ⟨-, ⟨u, hPath⟩, folder, hFile, hAbsolute⟩ := hCached c hCache
        exact .inr ⟨c.file, u, hPath, finish_confined hFile hAbsolute hCache plan v⟩

theorem clearCache_eq (root : Path) (given : Option Config) : clearCache root given =
    Action.resolve root >>= fun root => configOf root given >>= fun config =>
      config.cacheFile root >>= fun file => Cache.remove { file := file, project := root } := by
  cases given <;> simp only [clearCache, configOf, pure_bind]

/-- Clearing the cache changes nothing, or only takes away the entry that
the path of its file names. -/
theorem clearCache_cleared (w : World) (root : Path) (given : Option Config) :
    ((clearCache root given).on w).2.disk = w.disk ∨ ∃ file v, (cachePath root given).on w = (.ok file, v) ∧
      w.disk.Cleared file ((clearCache root given).on w).2.disk := by
  rw [clearCache_eq]
  rcases hRoot : (Action.resolve root).on w with ⟨e | start, w₁⟩
  · rw [on_bind_error hRoot]
    exact .inl ((looks_resolve root).run hRoot).disk
  have hLooked₁ := (looks_resolve root).run hRoot
  rw [on_bind_ok hRoot]
  rcases hConfig : (configOf start given).on w₁ with ⟨e | config, w₂⟩
  · rw [on_bind_error hConfig]
    exact .inl (((looks_configOf start given).run hConfig).disk.trans hLooked₁.disk)
  have hLooked₂ := hLooked₁.trans ((looks_configOf start given).run hConfig)
  rw [on_bind_ok hConfig]
  rcases hFile : (config.cacheFile start).on w₂ with ⟨e | file, w₃⟩
  · rw [on_bind_error hFile]
    exact .inl (((looks_cacheFile start config).run hFile).disk.trans hLooked₂.disk)
  have hLooked₃ := hLooked₂.trans ((looks_cacheFile start config).run hFile)
  obtain ⟨base, directory, hPlaced, rfl⟩ := Config.cacheFile_on_ok hFile
  refine .inr ⟨_, w₃, by rw [cachePath, on_bind_ok hRoot, on_bind_ok hConfig, hFile], ?_⟩
  rw [on_bind_ok hFile, ← hLooked₃.disk]
  exact Cache.remove_cleared (c := { file := Scan.child directory Config.cacheFileName, project := start })
    hPlaced.isAbsolute w₃

/-- Analyses without a cache, comparisons of analyses and whatever stops
leave the disk as it was. With a cache an analysis makes at most the
directories above its file and replaces the entry which the path of the file
names; clearing takes away at most this entry. Nothing else stays of either,
and where the cache has no path nothing happens at all. -/
theorem writes_confined (hProper : w.disk.Proper) (root : Path) (given : Option Config) :
    ((run root false given).on w).2.disk = w.disk ∧
    ((Verification.run root given).on w).2.disk = w.disk ∧
    (∀ useCache f w', (run root useCache given).on w = (.error f, w') → w'.disk = w.disk) ∧
    (∀ f v, (cachePath root given).on w = (.error f, v) →
      ((run root true given).on w).2.disk = w.disk ∧ ((clearCache root given).on w).2.disk = w.disk) ∧
    ∀ file v, (cachePath root given).on w = (.ok file, v) →
      w.disk.Confined file ((run root true given).on w).2.disk ∧
      w.disk.Cleared file ((clearCache root given).on w).2.disk := by
  have hOnce := run_uncached_unchanged hProper root given
  refine ⟨hOnce, ?_, fun useCache f w' hRun => run_stopped_unchanged hProper hRun, fun f v hNone => ?_,
    fun file v hPath => ?_⟩
  · rw [Verification.run]
    rcases hFirst : (run root false given).on w with ⟨e | first, w₁⟩ <;> rw [hFirst] at hOnce
    · rw [on_bind_error hFirst]
      exact hOnce
    · have hTwice := run_uncached_unchanged (w := w₁) (hOnce ▸ hProper) root given
      rw [on_bind_ok hFirst]
      rcases hSecond : (run root false given).on w₁ with ⟨e | second, w₂⟩ <;> rw [hSecond] at hTwice
      · rw [on_bind_error hSecond]
        exact hTwice.trans hOnce
      · rw [on_bind_ok hSecond]
        cases Verification.differing first second <;> exact hTwice.trans hOnce
  · have hNoPath : ∀ file u, (cachePath root given).on w ≠ (.ok file, u) := by
      intro file u hSome
      cases hNone.symm.trans hSome
    constructor
    · refine (run_cached_confined hProper root given).resolve_right ?_
      rintro ⟨file, u, hSome, -⟩
      exact hNoPath file u hSome
    · refine (clearCache_cleared w root given).resolve_right ?_
      rintro ⟨file, u, hSome, -⟩
      exact hNoPath file u hSome
  · constructor
    · rcases run_cached_confined hProper root given with hSame | ⟨file', u, hPath', hConfined⟩
      · rw [hSame]
        exact .refl file _
      · cases hPath.symm.trans hPath'
        exact hConfined
    · rcases clearCache_cleared w root given with hSame | ⟨file', u, hPath', hCleared⟩
      · exact .kept hSame
      · cases hPath.symm.trans hPath'
        exact hCleared

namespace Sample

/-- A project whose cache file is a link to a file beside its directory. -/
def pointing : World where
  disk := ⟨[(["p"], .directory), (["p", "a.ts"], .file [] 7), (["p", "kept"], .file [1] 8),
    (["p", ".cache"], .directory), (["p", ".cache", "analysis-cache.json"], .link "../kept")]⟩
  here := ⟨⟨.root, []⟩, []⟩
  locks := []
  watch := ⟨0, 1⟩

/-- The cache of the sample is looked for at the link, and analysing leaves
the file that the link leads to as it was. -/
theorem pointing_placed : passes (fun file _ => file = ⟨.root, cachePlace⟩)
      ((cachePath project (some {})).on pointing) = true ∧
    ((run project true (some {})).on pointing).2.disk.find? ["p", "kept"] = some (.file [1] 8) ∧
    ((run project true (some {})).on pointing).2.disk.find? cachePlace ≠ some (.link "../kept") := by
  decide +kernel

/-- The link is replaced by the file of the cache, and the file that it led
to is kept. -/
theorem link_replaced : pointing.disk.Proper ∧
    pointing.disk.Confined ⟨.root, cachePlace⟩ ((run project true (some {})).on pointing).2.disk ∧
    pointing.disk.Cleared ⟨.root, cachePlace⟩ ((clearCache project (some {})).on pointing).2.disk ∧
    ((run project true (some {})).on pointing).2.disk.find? ["p", "kept"] = some (.file [1] 8) ∧
    ((run project true (some {})).on pointing).2.disk.find? cachePlace ≠ some (.link "../kept") := by
  have hProper : pointing.disk.Proper := by decide
  obtain ⟨hPlaced, hKept, hReplaced⟩ := pointing_placed
  obtain ⟨file, v, hPath, hFile⟩ := exists_of_passes hPlaced
  obtain rfl : file = ⟨.root, cachePlace⟩ := by simpa using hFile
  obtain ⟨-, -, -, -, hWrites⟩ := writes_confined hProper project (some {})
  obtain ⟨hConfined, hCleared⟩ := hWrites _ v hPath
  exact ⟨hProper, hConfined, hCleared, hKept, hReplaced⟩

end Sample

end Analysis

end SourceAtlas
