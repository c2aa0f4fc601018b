import SourceAtlas.Proofs.Analysis.Remembering
import SourceAtlas.Proofs.Cache.Rewriting
import SourceAtlas.Proofs.Scan.Again

/-!
An analysis that finds every file remembered. It looks into none of them, and the file of its cache holds the
same entries afterwards.
-/
namespace SourceAtlas.Analysis

open SourceAtlas.Action

/-- What decides on an analysis before single files do: its root, its
configuration, the root of the scan with its place, the ignore files and the
directory of the cache. -/
structure Bearings where
  root : Path
  config : Config
  top : Path
  base : Place
  ignoring : List IgnoreFile
  folder : Path

namespace Bearings

def file (b : Bearings) : Path := Scan.child b.folder Config.cacheFileName

def cache (b : Bearings) : Cache := { file := b.file, project := b.root }

end Bearings

/-- In a world an analysis finds these bearings. -/
structure Bears (w : World) (root : Path) (given : Option Config) (b : Bearings) : Prop where
  resolved : w.here.resolve w.disk root = .ok b.root
  config : ((configOf b.root given).on w).1 = .ok b.config
  scan : Scan.Begins w (scanOptions b.config) b.root b.top b.base b.ignoring
  folder : ((Config.cacheDirectory b.root b.config.cacheDir).on w).1 = .ok b.folder

variable {w w' v v' : World} {root : Path} {given : Option Config} {b : Bearings} {plan : Plan}
  {found : Path × Scan}

/-- Where nothing is locked, reading the configuration changes nothing. -/
theorem configOf_world (hUnlocked : w.Unlocked) (root : Path) (given : Option Config) :
    ((configOf root given).on w).2 = w := by
  cases given with
  | some c => rfl
  | none =>
      have hAsk := ask_on Disk.isFile (root.join (Path.parse Config.fileName)) w
      rw [configOf, Config.load, isFile]
      split at hAsk
      · next present hPresent =>
        rw [on_bind_ok hAsk]
        cases present with
        | false => rfl
        | true =>
            obtain ⟨place, bytes, mtime, hLocate⟩ := Disk.found_of_isFile hPresent
            have hRead := readBytes_open (hUnlocked _) hLocate
            have hAttempt : (attempt (readBytes (root.join (Path.parse Config.fileName)))).on w =
                (.ok (.ok bytes), w) := by
              rw [on_attempt, hRead]
            simp only [if_true]
            rw [on_bind_ok hAttempt]
            dsimp only
            split <;> rfl
      · rw [on_bind_error hAsk]

section Starting

variable {base : Path} {config : Config} (hRoot : w.here.resolve w.disk root = .ok base)
  (hConfig : ((configOf base given).on w).1 = .ok config) (hUnlocked : w.Unlocked)

include hRoot hConfig hUnlocked

/-- An analysis begins with the scan. -/
theorem start_on : (start root given).on w = (Scan.project (scanOptions config) base >>= fun found => do
      Action.log .info .analysis ("Found " ++ Number.Style.natText found.2.files.length ++
        " source files under " ++ base.text)
      return (⟨base, config, found.2⟩ : Plan)).on w := by
  have hResolve : (Action.resolve root).on w = (.ok base, w) := by rw [resolve_on, hRoot]
  have hLoad : (configOf base given).on w = (.ok config, w) := Prod.ext hConfig (configOf_world hUnlocked _ _)
  rw [start, on_bind_ok hResolve, on_bind_ok hLoad]

theorem project_of_start (hStart : (start root given).on w = (.ok plan, w')) :
    plan.root = base ∧ plan.config = config ∧
      ∃ top v, (Scan.project (scanOptions config) base).on w = (.ok (top, plan.scan), v) := by
  rw [start_on hRoot hConfig hUnlocked] at hStart
  obtain ⟨⟨top, scan⟩, v, hProject, hRest⟩ := of_on_bind hStart
  obtain ⟨_, v', -, hPlan⟩ := of_on_bind hRest
  obtain rfl := Except.ok.inj (Prod.mk.inj hPlan).1
  exact ⟨rfl, rfl, top, v, hProject⟩

theorem start_of_project (hProject : (Scan.project (scanOptions config) base).on w = (.ok found, v)) :
    ∃ w', (start root given).on w = (.ok ⟨base, config, found.2⟩, w') := by
  rw [start_on hRoot hConfig hUnlocked, on_bind_ok hProject]
  exact ⟨_, rfl⟩

end Starting

namespace Bears

/-- The file of the cache is found by looking only. -/
theorem cacheFile_on (hBears : Bears w root given b) (hLooked : w.Looked v) :
    ∃ v', (b.config.cacheFile b.root).on v = (.ok b.file, v') ∧ w.Looked v' := by
  have hHere : ((b.config.cacheFile b.root).on w).1 = .ok b.file := by
    have hFolder : (Config.cacheDirectory b.root b.config.cacheDir).on w =
        (.ok b.folder, ((Config.cacheDirectory b.root b.config.cacheDir).on w).2) := Prod.ext hBears.folder rfl
    rw [Config.cacheFile, on_bind_ok hFolder]
    rfl
  have hThere := settled_cacheFile b.root b.config v w hLooked.disk hLooked.here
  rw [hHere] at hThere
  exact ⟨_, Prod.ext hThere rfl, hLooked.trans ((looks_cacheFile _ _) v)⟩

theorem folder_named (hBears : Bears w root given b) (hProper : w.disk.Proper) :
    b.folder.isAbsolute = true ∧ b.folder.Named := by
  have hTop := Standpoint.resolve_named hProper hBears.scan.resolved hBears.scan.directory
  obtain ⟨v, hFile, -⟩ := hBears.cacheFile_on (.refl w)
  have hRoot : b.root.isAbsolute = true := Standpoint.resolve_isAbsolute hBears.resolved
  have hCanonical : w.disk.canonical (w.here.join b.root) = .ok b.top := by
    rw [Path.join_of_absolute hRoot]
    exact (Standpoint.resolve_of_absolute hRoot).mp hBears.scan.resolved
  obtain ⟨hAbsolute, hNamed, -⟩ := gives_cacheFile hCanonical hTop b.config w _ v rfl rfl hFile
  exact ⟨hAbsolute, fun n hn => hNamed n (List.mem_append_left _ hn)⟩

/-- A document in the file of the cache is taken over, without a warning. -/
theorem opens (hBears : Bears w root given b) (hProper : w.disk.Proper) (hUnlocked : w.Unlocked)
    {place : Place} {mtime : Int} {text : List Char} {doc : CacheDocument}
    (hFile : w.disk.locate true b.file = .ok (.found place (.file (Text.Utf8.encodeChars text) mtime)))
    (hText : Json.document doc.toDatum = .ok text) (hVersion : doc.version = 1) (hLooked : w.Looked v) (scan : Scan) :
    ∃ v', (openIf true ⟨b.root, b.config, scan⟩).on v = (.ok (some (b.cache.ofDocument doc), []), v') := by
  obtain ⟨v₁, hCacheFile, hLooked₁⟩ := hBears.cacheFile_on hLooked
  have hAbsolute : b.file.isAbsolute = true := (hBears.folder_named hProper).1
  have hHere : v₁.here.join b.cache.file = b.file := Path.join_of_absolute hAbsolute _
  have hThere : v₁.disk.locate true (v₁.here.join b.cache.file) =
      .ok (.found place (.file (Text.Utf8.encodeChars text) mtime)) := by
    rw [hHere, hLooked₁.disk, hFile]
  obtain ⟨v₂, hLoad⟩ := Cache.load_on_file (c := b.cache) (hLooked₁.unlocked hUnlocked _) hThere
  rw [Cache.readBytes_document hText, if_pos (show doc.version = b.cache.version from hVersion)] at hLoad
  have hOpen : (openCache b.root b.config).on v = (.ok (b.cache.ofDocument doc, []), v₂) := by
    rw [openCache, on_bind_ok hCacheFile]
    exact on_bind_ok hLoad _
  refine ⟨v₂, ?_⟩
  rw [openIf]
  simp only [if_true]
  rw [on_bind_ok hOpen]
  rfl

end Bears

/-- An analysis ends with its report where its cache can be saved, whatever
was logged before. -/
theorem finish_saving (plan : Plan) {x : Progress × Option Cache × List Warning} {c : Cache} {Q : World → Prop}
    (hCache : x.1.cache = some c) (hSave : ∀ v, w.Looked v → ∃ c' v', (c.keepOnly plan.scan.files).save.on v =
      (.ok c', v') ∧ Q v') :
    ∃ time cycles v w', Cycle.detect (.ofRecords (x.1.records.map Classification.classify)) = .ok cycles ∧
      (finish plan x).on w = (.ok (plan.report x time cycles []), w') ∧ Q v ∧ v.Looked w' := by
  obtain ⟨cycles, hCycles⟩ := Cycle.detect_ofRecords (x.1.records.map Classification.classify)
  obtain ⟨w₁, hLooked₁, hFind⟩ := findCycles_on (.ofRecords (x.1.records.map Classification.classify)) w
  rw [hCycles] at hFind
  obtain ⟨w₂, hLooked₂, hPrune⟩ := c.prune_on plan.scan.files w₁
  obtain ⟨c', v, hSaved, hThere⟩ := hSave w₂ (hLooked₁.trans hLooked₂)
  have hAttempt : (attempt (c.keepOnly plan.scan.files).save).on w₂ = (.ok (.ok c'), v) := by
    rw [on_attempt, hSaved]
  have hSaveCache : (saveCache c plan.scan.files).on w₁ = (.ok [], v) := by
    rw [saveCache, on_bind_ok hPrune]
    exact on_bind_ok hAttempt _
  obtain ⟨w₃, hLooked₃, hFinish⟩ : ∃ w₃, v.Looked w₃ ∧
      (finishCache x.1 plan.scan.files).on w₁ = (.ok [], w₃) := by
    rw [finishCache, hCache]
    dsimp only
    rw [on_bind_ok hSaveCache]
    split
    · exact ⟨_, looks_log _ _ _ v, rfl⟩
    · exact ⟨v, .refl v, rfl⟩
  have hEnd : ∃ time w', (finish plan x).on w = (.ok (plan.report x time cycles []), w') ∧ w₃.Looked w' := by
    rw [finish]
    dsimp only
    rw [on_bind_ok hFind, on_bind_ok hFinish]
    exact ⟨_, _, rfl, (looks_log _ _ _ w₃).trans (looks_now _)⟩
  obtain ⟨time, w', hRun, hLooked⟩ := hEnd
  exact ⟨time, cycles, v, w', hCycles, hRun, hThere, hLooked₃.trans hLooked⟩

/-- A world in which the file of the cache holds a document, and a cache
that takes it over remembers all files that a scan finds. -/
structure Resumes (w : World) (root : Path) (given : Option Config) (b : Bearings) (directory : Place)
    (found : Path × Scan) (rs : List Record) (doc : CacheDocument) : Prop where
  proper : w.disk.Proper
  unlocked : w.Unlocked
  bears : Bears w root given b
  legible : b.root.text.isString = true
  scan : ∃ v, (Scan.project (scanOptions b.config) b.root).on w = (.ok found, v)
  covers : Cache.Covers doc found.2.files
  remembers : List.Forall₂ (Remembers w b.config.extensions (b.cache.ofDocument doc)) found.2.files rs
  replaceable : Cache.Replaceable w.disk b.folder Config.cacheFileName directory
  file : ∃ text mtime, Json.document doc.toDatum = .ok text ∧
    w.disk.find? (directory ++ [Config.cacheFileName]) = some (.file (Text.Utf8.encodeChars text) mtime)

/-- The file at a place has other bytes, and nothing else has changed that
an analysis sees. -/
structure Overwritten (place : Place) (bytes : List UInt8) (w v : World) : Prop where
  here : v.here = w.here
  unlocked : v.Unlocked
  disk : v.disk = w.disk.put place (.file bytes writtenTime)

/-- The file at a place was overwritten by a document that covers the files
and has the entries and the age of a given one. -/
def Rewritten (place : Place) (files : List Path) (doc : CacheDocument) (w v : World) : Prop :=
  ∃ text doc', Json.document doc'.toDatum = .ok text ∧ Cache.Covers doc' files ∧
    doc'.entries = doc.entries ∧ doc'.createdAt = doc.createdAt ∧ Overwritten place (Text.Utf8.encodeChars text) w v

theorem Overwritten.looked {place : Place} {bytes : List UInt8} (hOverwritten : Overwritten place bytes w v)
    (hLooked : v.Looked v') : Overwritten place bytes w v' where
  here := hLooked.here.trans hOverwritten.here
  unlocked := hLooked.unlocked hOverwritten.unlocked
  disk := hLooked.disk.trans hOverwritten.disk

theorem Overwritten.again {place : Place} {bytes bytes' : List UInt8} (hFirst : Overwritten place bytes w v)
    (hSecond : Overwritten place bytes' v v') : Overwritten place bytes' w v' where
  here := hSecond.here.trans hFirst.here
  unlocked := hSecond.unlocked
  disk := by rw [hSecond.disk, hFirst.disk, Disk.put_put]

theorem Rewritten.looked {place : Place} {files : List Path} {doc : CacheDocument}
    (hRewritten : Rewritten place files doc w v) (hLooked : v.Looked v') : Rewritten place files doc w v' := by
  obtain ⟨text, doc', hText, hCovers, hEntries, hCreated, hOverwritten⟩ := hRewritten
  exact ⟨text, doc', hText, hCovers, hEntries, hCreated, hOverwritten.looked hLooked⟩

namespace Resumes

variable {directory : Place} {rs : List Record} {doc : CacheDocument}

/-- The cache is saved as it was opened, but for the time of writing, if all
that it has is still wanted. -/
theorem saves (hResumes : Resumes w root given b directory found rs doc) (hLooked : w.Looked v) :
    ∃ c' v', ((b.cache.ofDocument doc).keepOnly found.2.files).save.on v = (.ok c', v') ∧
      Rewritten (directory ++ [Config.cacheFileName]) found.2.files doc w v' := by
  obtain ⟨text, mtime, hText, -⟩ := hResumes.file
  have hDocument : ∀ time, ((b.cache.ofDocument doc).keepOnly found.2.files).toDocument time =
      { doc with projectPath := b.root.text, updatedAt := time } := by
    intro time
    rw [hResumes.covers.keepOnly, hResumes.covers.toDocument rfl]
    rfl
  obtain ⟨time, text', c', v', hSaved, hText', hHere, hLocks, hDisk⟩ := Cache.save_on (w := v)
    (c := (b.cache.ofDocument doc).keepOnly found.2.files) rfl
    (hResumes.bears.folder_named hResumes.proper).1 (by decide) (hLooked.disk.symm ▸ hResumes.replaceable)
    (fun time hTime => hDocument time ▸ Cache.document_again hText hResumes.legible hTime)
  refine ⟨c', v', hSaved, text', _, hText', ?_, by rw [hDocument], by rw [hDocument], hHere.trans hLooked.here, ?_,
    by rw [hDisk, hLooked.disk]⟩
  · rw [hDocument]
    exact hResumes.covers.written _ _
  · intro key n hLock
    exact hLooked.unlocked hResumes.unlocked key n (hLocks ▸ hLock)

/-- An analysis that finds all files remembered looks into none of them, and
writes the entries that it found. -/
theorem run (hResumes : Resumes w root given b directory found rs doc) :
    ∃ time cycles w', Cycle.detect (.ofRecords (rs.map Classification.classify)) = .ok cycles ∧
      (Analysis.run root true given).on w = (.ok (Plan.report ⟨b.root, b.config, found.2⟩
        (⟨some (b.cache.ofDocument doc), rs, rs.length, 0⟩, some (b.cache.ofDocument doc), []) time cycles []), w') ∧
      Rewritten (directory ++ [Config.cacheFileName]) found.2.files doc w w' := by
  obtain ⟨text, mtime, hText, hThere⟩ := hResumes.file
  obtain ⟨v, hScan⟩ := hResumes.scan
  -- the scan, the cache and the files
  obtain ⟨w₁, hStart⟩ := start_of_project hResumes.bears.resolved hResumes.bears.config hResumes.unlocked hScan
  have hLooked₁ := (looks_start root given).run hStart
  obtain ⟨w₂, hOpen⟩ := hResumes.bears.opens hResumes.proper hResumes.unlocked
    (hResumes.replaceable.locate hThere) hText hResumes.covers.version hLooked₁ found.2
  have hLooked₂ := hLooked₁.trans ((looks_openIf _ _).run hOpen)
  obtain ⟨w₃, hFold⟩ := addFiles_remembered b.root (p := { cache := some (b.cache.ofDocument doc) })
    hResumes.unlocked hResumes.remembers rfl hLooked₂
  have hLooked₃ := hLooked₂.trans ((looks_foldlM (looks_addFile _ _) _ _).run hFold)
  rw [List.nil_append, Nat.zero_add, hResumes.remembers.length_eq] at hFold
  obtain ⟨time, cycles, v', w', hCycles, hFinish, hRewritten, hLooked⟩ :=
    finish_saving ⟨b.root, b.config, found.2⟩
      (x := (⟨some (b.cache.ofDocument doc), rs, rs.length, 0⟩, some (b.cache.ofDocument doc), []))
      rfl fun v hLooked => hResumes.saves (hLooked₃.trans hLooked)
  refine ⟨time, cycles, w', hCycles, ?_, hRewritten.looked hLooked⟩
  rw [run_eq, on_bind_ok hStart, collect, bind_assoc, on_bind_ok hOpen, bind_assoc]
  exact (on_bind_ok hFold _).trans hFinish

end Resumes

end SourceAtlas.Analysis
