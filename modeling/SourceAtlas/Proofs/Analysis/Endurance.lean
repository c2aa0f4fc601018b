import SourceAtlas.Proofs.Analysis.Completion
import SourceAtlas.Proofs.Analysis.Ending
import SourceAtlas.Proofs.Cache.Legibility
import SourceAtlas.Proofs.Refresh
import SourceAtlas.Proofs.World.Twins

/-!
What the content of a cache file can do to an analysis. Whatever it holds, an analysis that comes to
a report without the cache comes to one with it, unless an entry that is used has an import that
cannot be looked up, or one that is kept has a number that cannot be written. All other trouble with
the cache is a warning.
-/
namespace SourceAtlas

open SourceAtlas.Action

namespace Cache

variable {c c' : Cache} {w w' : World} {found : Bool}

/-- The document of a cache can be written if its entries can and its other
texts are strings. -/
theorem toDocument_fits (hVersion : c.version = 1) (hProject : c.project.text.isString = true)
    (hCreated : ∀ t ∈ c.createdAt, t.isString = true) (hFits : ∀ p ∈ c.entries, p.2.toDatum.fits = true)
    {time : Text} (hTime : time.isString = true) : (c.toDocument time).toDatum.fits = true := by
  have hEntry : ∀ e ∈ (c.toDocument time).entries, e.toDatum.ranged = true ∧ e.toDatum.legible = true := by
    intro e he
    obtain ⟨key, hEntry⟩ := mem_toDocument_entries he
    exact Bool.and_eq_true_iff.mp (hFits _ hEntry)
  refine CacheDocument.fits_iff.mpr ⟨?version, fun e he => (hEntry e he).1, hProject, ?createdAt, hTime,
    fun e he => CacheEntry.toDatum_legible_iff.mp (hEntry e he).2⟩
  case version =>
    rw [show (c.toDocument time).version = c.version from rfl, hVersion]
    rfl
  case createdAt =>
    rw [toDocument]
    dsimp only
    split_ifs
    · exact hTime
    · rcases hMade : c.createdAt with _ | t
      · rfl
      · exact hCreated t hMade

/-- A cache whose entries can all be written is saved unless
the system refuses. -/
theorem stopsBy_save_of_fits (hAbsolute : c.file.isAbsolute = true) (hClean : c.file.Clean)
    (hVersion : c.version = 1) (hProject : c.project.text.isString = true)
    (hCreated : ∀ t ∈ c.createdAt, t.isString = true) (hFits : ∀ p ∈ c.entries, p.2.toDatum.fits = true) :
    StopsBy Failure.IsRefusal c.save := by
  intro w f w' hRun
  have hNow : now.on w = (.ok (Text.ofString (Watch.text (w.watch.micros + w.watch.step))), _) := rfl
  rw [save, on_bind_ok hNow] at hRun
  obtain ⟨text, hText⟩ := Json.document_eq_ok_iff.mpr
    (toDocument_fits hVersion hProject hCreated hFits
      (Text.isString_ofString (Watch.text (w.watch.micros + w.watch.step))))
  simp only [hText] at hRun
  refine StopsBy.bind (stopsBy_writeReplacing hAbsolute hClean _) (fun _ => ?_) _ f w' hRun
  exact (stopsBy_log _ _ _).bind fun _ => stopsBy_pure _

/-- An entry that loading takes from a file: the last of its path in the
document there. -/
def Carried (w : World) (file : Path) (e : CacheEntry) : Prop :=
  ∃ bytes doc, FileAt w file bytes ∧ Holds 1 bytes doc ∧
    doc.entries.reverse.find? (fun e' => e'.path = e.path) = some e

/-- Every entry of a loaded cache stands under its path and was
carried by the file. -/
theorem carried_of_load (hVersion : c.version = 1) (hLoad : c.load.on w = (.ok (c', found), w')) :
    (c'.entries.map Prod.fst).Nodup ∧ ∀ q ∈ c'.entries, q.1 = q.2.path ∧ Carried w c.file q.2 := by
  have hOutcome := load_outcome hLoad
  cases found with
  | false => simp [hOutcome.nothing rfl]
  | true =>
      obtain ⟨-, hNodup, hEntries⟩ := hOutcome.whole rfl
      obtain ⟨-, bytes, doc, hFile, hHolds⟩ := hOutcome.found_iff.mp rfl
      refine ⟨hNodup, ?_⟩
      intro q hq
      have hLast := (Assoc.get?_eq_some_iff hNodup).mpr hq
      rw [hEntries bytes doc hFile hHolds] at hLast
      have hPath : q.2.path = q.1 := by simpa using List.find?_some hLast
      rw [← hPath] at hLast
      exact ⟨hPath.symm, bytes, doc, hFile, hVersion ▸ hHolds, hLast⟩

/-- What a file carries is made of strings, as everything is that was read
from a document. -/
theorem Carried.legible {file : Path} {e : CacheEntry} (hCarried : Carried w file e) : e.Legible := by
  obtain ⟨bytes, doc, -, hHolds, hLast⟩ := hCarried
  exact hHolds.legible.entries e (List.mem_reverse.mp (List.mem_of_find?_eq_some hLast))

/-- What a file carries is a matter of the disk, and not of the locks. -/
theorem Carried.congr {file : Path} {e : CacheEntry} (hDisk : w'.disk = w.disk) (hHere : w'.here = w.here)
    (hCarried : Carried w' file e) : Carried w file e := by
  obtain ⟨bytes, doc, ⟨place, mtime, hLocate⟩, hRest⟩ := hCarried
  rw [hDisk, hHere] at hLocate
  exact ⟨bytes, doc, ⟨place, mtime, hLocate⟩, hRest⟩

end Cache

namespace Analysis

variable {w w₁ v₁ v₂ : World} {root file path : Path} {given : Option Config} {plan : Plan} {c₀ : Cache}
  {done : List Path} {e : CacheEntry}

/-- The names of the files that an analysis looks at. -/
def Plan.names (plan : Plan) : Set Text := {name | ∃ path ∈ plan.scan.files, path.text = name}

/-- The content of a file is still the one that an entry was made from. -/
def Current (w : World) (path : Path) (e : CacheEntry) : Prop :=
  ∃ place bytes mtime, w.disk.locate true (w.here.join path) = .ok (.found place (.file bytes mtime)) ∧
    e.isCurrent (.ofBytes bytes mtime) = true

/-- An entry that an analysis makes of a file as it is now. -/
def New (w : World) (plan : Plan) (e : CacheEntry) : Prop :=
  ∃ path ∈ plan.scan.files, Fresh w plan.root plan.config.extensions path e

/-- What the file of a cache holds does no harm to an analysis. -/
structure Bearable (w : World) (plan : Plan) (file : Path) : Prop where
  /-- A record that stands in for its file has no import that cannot be looked up. -/
  imports : ∀ path ∈ plan.scan.files, ∀ e, Cache.Carried w file e → e.path = path.text →
    Current w path e → ∀ i ∈ e.record.imports, i.kind ≠ .external →
      ¬ Resolution.Blocked w (Path.parse e.record.path) plan.config.extensions i.source
  /-- An entry that is kept, for it is current or its file cannot be read, has integers of 64 bits. -/
  numbers : ∀ path ∈ plan.scan.files, ∀ e, Cache.Carried w file e → e.path = path.text →
    Current w path e ∨ ¬ w.OpenAt (w.here.join path).text → e.toDatum.ranged = true

/-- Looking up the imports of a new record changes nothing: they were looked
up on this disk when it was made. -/
theorem New.refresh (hNew : New w plan e) (hNamed : ∀ path ∈ plan.scan.files, path.Named) :
    Resolution.refresh w plan.config.extensions e.record = .ok e.record := by
  obtain ⟨path, hPath, place, bytes, mtime, r, -, hRecord, rfl⟩ := hNew
  rw [Extraction.refresh_record (hNamed path hPath).readable hRecord, hRecord]

/-- The cache of an analysis on its way. Each entry is new or was in the
file; an entry of the file that stands for a file that was looked at is
current, or what it stands for cannot be read. -/
structure Midway (w : World) (plan : Plan) (file : Path) (done : List Path) (c : Cache) : Prop where
  place : c.file = file
  version : c.version = 1
  project : c.project = plan.root
  created : ∀ t ∈ c.createdAt, t.isString = true
  nodup : (c.entries.map Prod.fst).Nodup
  entries : ∀ q ∈ c.entries, q.1 = q.2.path ∧ (New w plan q.2 ∨ Cache.Carried w file q.2 ∧
    ∀ path ∈ done, path.text = q.1 → Current w path q.2 ∨ ¬ w.OpenAt (w.here.join path).text)

namespace Midway

variable {c : Cache} {path : Path}

/-- A file is looked at whose entry is current, or which cannot be read. The
cache stays as it is. -/
theorem skip (hMidway : Midway w plan file done c) (hPath : ∀ q ∈ c.entries, path.text = q.1 →
    Current w path q.2 ∨ ¬ w.OpenAt (w.here.join path).text) :
    Midway w plan file (done ++ [path]) c where
  place := hMidway.place
  version := hMidway.version
  project := hMidway.project
  created := hMidway.created
  nodup := hMidway.nodup
  entries q hq := by
    obtain ⟨hKey, hEntry⟩ := hMidway.entries q hq
    refine ⟨hKey, hEntry.imp_right fun hOld => ⟨hOld.1, ?_⟩⟩
    intro path' hDone hText
    rcases List.mem_append.mp hDone with hBefore | hNow
    · exact hOld.2 path' hBefore hText
    · obtain rfl := List.mem_singleton.mp hNow
      exact hPath q hq hText

/-- A file is looked at and remembered. The new entry takes the place of
whatever the file of the cache had for it. -/
theorem put (hMidway : Midway w plan file done c) {r : Record} {f : Fingerprint}
    (hNew : New w plan ⟨path.text, f.digest, f.mtime, r⟩) :
    Midway w plan file (done ++ [path]) (c.put path r f) where
  place := hMidway.place
  version := hMidway.version
  project := hMidway.project
  created := hMidway.created
  nodup := Assoc.nodup_put hMidway.nodup _ _
  entries q hq := by
    rcases Assoc.mem_put_of_nodup hMidway.nodup hq with rfl | ⟨hOld, hOther⟩
    · exact ⟨rfl, .inl hNew⟩
    · obtain ⟨hKey, hEntry⟩ := hMidway.entries q hOld
      refine ⟨hKey, hEntry.imp_right fun hKept => ⟨hKept.1, ?_⟩⟩
      intro path' hDone hText
      rcases List.mem_append.mp hDone with hBefore | hNow
      · exact hKept.2 path' hBefore hText
      · obtain rfl := List.mem_singleton.mp hNow
        exact absurd hText.symm hOther

/-- After all files what is kept can be written, for it is new or was in the
file and is current. -/
theorem fits (hMidway : Midway w plan file plan.scan.files c) (hBearable : Bearable w plan file)
    (hWritable : ∀ e, New w plan e → e.toDatum.fits = true) :
    ∀ q ∈ (c.keepOnly plan.scan.files).entries, q.2.toDatum.fits = true := by
  intro q hq
  obtain ⟨hMem, hWanted⟩ := List.mem_filter.mp hq
  obtain ⟨path, hPath, hText⟩ := List.mem_map.mp (List.contains_iff_mem.mp hWanted)
  obtain ⟨hKey, hNew | ⟨hCarried, hKept⟩⟩ := hMidway.entries q hMem
  · exact hWritable q.2 hNew
  · have hRanged := hBearable.numbers path hPath q.2 hCarried (hKey.symm.trans hText.symm) (hKept path hPath hText)
    rw [Datum.fits, hRanged, Bool.true_and]
    exact CacheEntry.toDatum_legible_iff.mpr hCarried.legible

end Midway

theorem parallel_readFingerprinted {path : Path} {paths : Set Text} (hAbsolute : path.isAbsolute = true)
    (hPath : path.text ∈ paths) : Parallel paths (readFingerprinted path) := by
  have hRead : Parallel paths (readWithTime path) := by
    apply (parallel_modified path).bind
    intro mtime
    exact (parallel_readBytes hAbsolute hPath).bind fun bytes => parallel_pure _
  apply hRead.attempt.bind
  intro found
  split
  · exact parallel_pure _
  · exact (parallel_log _ _ _).bind fun _ => parallel_pure _

/-- Using a remembered record opens no file. -/
theorem twin_addRead_hit {paths : Set Text} {path : Path} {extensions : List Text} {p : Progress}
    {content : Option (List UInt8 × Fingerprint)} {r : Record}
    (hHit : remembered? p.cache path content = some r) :
    Moves (World.Twin paths) (addRead root extensions p path content) := by
  rw [addRead, hHit]
  apply (twin_log _ _ _).bind
  intro _
  apply twin_get.bind
  intro w
  split
  · exact twin_throw _
  · exact twin_pure _

/-- A remembered record is that of a current entry. -/
theorem current_of_hit {c : Cache} {path : Path} {found : List UInt8 × Fingerprint} {r : Record}
    {place : Place} {mtime : Int}
    (hLocate : w.disk.locate true (w.here.join path) = .ok (.found place (.file found.1 mtime)))
    (hPrint : found.2 = .ofBytes found.1 mtime) (hHit : remembered? (some c) path (some found) = some r) :
    ∃ e, Assoc.get? path.text c.entries = some e ∧ e.record = r ∧ Current w path e := by
  rw [remembered?_eq (some c) path found.1 found.2] at hHit
  obtain ⟨e, hEntry, hRecord⟩ := Option.map_eq_some_iff.mp hHit
  obtain ⟨hGet, hCurrent⟩ := current?_eq_some_iff.mp hEntry
  exact ⟨e, hGet, hRecord, place, found.1, mtime, hLocate, hPrint ▸ hCurrent⟩

section Lockstep

variable (hFiles : ∀ path ∈ plan.scan.files, path.Named ∧ path.isAbsolute = true ∧
  ∃ bytes, w.content? path = some bytes) (hBearable : Bearable w plan file)

include hFiles hBearable

/-- A current entry can be used: its imports can be looked up, as those of a
record made now can. -/
theorem Midway.usable {c : Cache} {path : Path} (hMidway : Midway w plan file done c)
    (hPath : path ∈ plan.scan.files) (hGet : Assoc.get? path.text c.entries = some e)
    (hCurrent : Current w path e) : ∃ r, Resolution.refresh w plan.config.extensions e.record = .ok r := by
  obtain ⟨hKey, hNew | ⟨hCarried, -⟩⟩ := hMidway.entries _ (Assoc.mem_of_get? hGet)
  · exact ⟨e.record, hNew.refresh fun path hPath => (hFiles path hPath).1⟩
  · rcases hRefresh : Resolution.refresh w plan.config.extensions e.record with f | r
    · obtain ⟨i, hi, hInner, hBlocked⟩ := Resolution.refresh_eq_error_iff.mp ⟨f, hRefresh⟩
      exact absurd hBlocked (hBearable.imports path hPath e hCarried hKey.symm hCurrent i hi hInner)
    · exact ⟨r, rfl⟩

/-- Where a file is added without a cache, it is added with one, and the two
analyses stay in step. -/
theorem addFile_endures {path : Path} (hPath : path ∈ plan.scan.files) {p p' q : Progress} {c : Cache}
    {u u' v : World} (hPlain : (addFile plan.root plan.config.extensions p path).on u = (.ok p', u'))
    (hNone : p.cache = none) (hCache : q.cache = some c) (hMidway : Midway w plan file done c)
    (hLooked : w.Looked v) (hTwin : u.Twin plan.names v) :
    p'.cache = none ∧ ∃ q' c' v', (addFile plan.root plan.config.extensions q path).on v = (.ok q', v') ∧
      q'.cache = some c' ∧ Midway w plan file (done ++ [path]) c' ∧ u'.Twin plan.names v' := by
  obtain ⟨hNamed, hAbsolute, bytes, hContent⟩ := hFiles path hPath
  have hName : path.text ∈ plan.names := ⟨path, hPath, rfl⟩
  rw [addFile_eq] at hPlain ⊢
  -- both read the same
  obtain ⟨content, u₁, hRead, hAdd⟩ := of_on_bind hPlain
  obtain ⟨v₁, hRead', hTwin₁⟩ := (parallel_readFingerprinted hAbsolute hName).run hTwin hRead
  have hLooked₁ := hLooked.trans ((looks_readFingerprinted path).run hRead')
  have hFound := gives_readFingerprinted_file w path v content v₁ hLooked.disk hLooked.here hRead'
  -- without a cache a record is made
  have hMiss : remembered? p.cache path content = none := by
    rw [hNone]
    rfl
  rw [addRead_missed _ _ hMiss] at hAdd
  obtain ⟨r, u₂, hExtract, hResult⟩ := of_on_bind hAdd
  obtain ⟨hProgress, rfl⟩ := Prod.mk.inj hResult
  obtain rfl := Except.ok.inj hProgress
  refine ⟨by simp [hNone, remembering], ?_⟩
  rw [on_bind_ok hRead']
  rcases hHit : remembered? q.cache path content with _ | r'
  · rw [addRead_missed _ _ hHit]
    obtain ⟨v₂, hExtract', hTwin₂⟩ :=
      (Extraction.parallel_extract hAbsolute hName _ _ _).run hTwin₁ hExtract
    rw [on_bind_ok hExtract', hCache]
    cases content with
    | none =>
        refine ⟨_, c, v₂, rfl, rfl, hMidway.skip fun _ _ _ => .inr ?_, hTwin₂⟩
        intro hOpen
        obtain ⟨place, mtime, hLocate⟩ := World.content?_eq_some_iff.mp hContent
        rw [← hLooked.disk, ← hLooked.here] at hLocate
        rw [readFingerprinted_open (by rw [hLooked.here]; exact hLooked.locks _ hOpen) hLocate] at hRead'
        cases hRead'
    | some found =>
        obtain ⟨place, mtime, hLocate, hPrint⟩ := hFound found rfl
        have hGiven := Extraction.gives_extract w path plan.root plan.config.extensions _ v₁ r v₂
          hLooked₁.disk hLooked₁.here hExtract'
        have hNew : New w plan ⟨path.text, found.2.digest, found.2.mtime, r⟩ := by
          rw [hPrint]
          exact ⟨path, hPath, place, found.1, mtime, r, hLocate, hGiven.2.2 found.1 rfl, rfl⟩
        exact ⟨_, c.put path r found.2, v₂, rfl, rfl, hMidway.put hNew, hTwin₂⟩
  · cases content with
    | none => rw [hCache] at hHit; cases hHit
    | some found =>
        obtain ⟨place, mtime, hLocate, hPrint⟩ := hFound found rfl
        rw [Option.map_some, Extraction.extract_some] at hExtract
        have hTwin₂ : u₁.Twin plan.names u₂ := (Extraction.twin_fromContent _ _ _ _).run hExtract
        obtain ⟨e, hGet, rfl, hCurrent⟩ := current_of_hit hLocate hPrint (hCache ▸ hHit)
        obtain ⟨r₂, hRefresh⟩ := hMidway.usable hFiles hBearable hPath hGet hCurrent
        obtain ⟨v₂, -, hRun⟩ := addRead_hit plan.root plan.config.extensions hHit v₁
        rw [Resolution.refresh_congr hLooked₁.disk hLooked₁.here, hRefresh] at hRun
        have hTwin₃ : v₁.Twin plan.names v₂ := (twin_addRead_hit hHit).run hRun
        refine ⟨_, c, v₂, hRun, hCache, hMidway.skip ?_, hTwin₂.symm.trans (hTwin₁.trans hTwin₃)⟩
        intro q' hq' hText
        rw [← Assoc.get?_eq_some_iff hMidway.nodup, ← hText, hGet] at hq'
        obtain rfl := Option.some.inj hq'
        exact .inl hCurrent

/-- Where all files are added without a cache, they are with one. The two
ways go in step, file by file. -/
theorem addFiles_endure {files : List Path} (hAll : ∀ path ∈ files, path ∈ plan.scan.files)
    {p p' q : Progress} {c : Cache} {u u' v : World}
    (hPlain : (files.foldlM (addFile plan.root plan.config.extensions) p).on u = (.ok p', u'))
    (hNone : p.cache = none) (hCache : q.cache = some c) (hMidway : Midway w plan file done c)
    (hLooked : w.Looked v) (hTwin : u.Twin plan.names v) :
    ∃ q' c' v', (files.foldlM (addFile plan.root plan.config.extensions) q).on v = (.ok q', v') ∧
      q'.cache = some c' ∧ Midway w plan file (done ++ files) c' := by
  induction files generalizing p q c u v done with
  | nil => exact ⟨q, c, v, rfl, hCache, by simpa using hMidway⟩
  | cons path files ih =>
      rw [List.foldlM_cons] at hPlain ⊢
      obtain ⟨p₁, u₁, hStep, hRest⟩ := of_on_bind hPlain
      obtain ⟨hNone₁, q₁, c₁, v₁, hStep', hCache₁, hMidway₁, hTwin₁⟩ := addFile_endures hFiles hBearable
        (hAll path (List.mem_cons_self ..)) hStep hNone hCache hMidway hLooked hTwin
      obtain ⟨q', c', v', hRest', hCache', hMidway'⟩ := ih
        (fun path hPath => hAll path (List.mem_cons_of_mem _ hPath)) hRest hNone₁ hCache₁ hMidway₁
        (hLooked.trans ((looks_addFile _ _ _ _).run hStep')) hTwin₁
      rw [on_bind_ok hStep', List.append_cons]
      exact ⟨q', c', v', hRest', hCache', hMidway'⟩

end Lockstep

/-- The warnings of a report: besides those of the scan and of the files
there is at most one about loading the cache and one about saving it. -/
def Warned (plan : Plan) (report : Report) : Prop :=
  ∃ loaded extracted saved,
    report.warnings = scanWarnings plan.scan ++ loaded ++ extracted ++ saved ∧
    (loaded.length ≤ 1 ∧ ∀ m ∈ loaded, m.kind = .cache) ∧ (∀ m ∈ extracted, m.kind = .extraction) ∧
    (saved.length ≤ 1 ∧ ∀ m ∈ saved, m.kind = .cache)

/-- Finding where the cache is kept uses up no lock. -/
theorem twin_cacheFile {paths : Set Text} (root : Path) (config : Config) :
    Moves (World.Twin paths) (config.cacheFile root) := by
  have hDirectory : Moves (World.Twin paths) (Config.cacheDirectory root config.cacheDir) := by
    rw [Config.cacheDirectory]
    split
    · exact twin_throw _
    · split
      · exact twin_throw _
      · apply (twin_canonical _).bind
        intro base
        apply (twin_canonical _).bind
        intro path
        split
        · exact twin_pure _
        · exact twin_throw _
  exact hDirectory.bind fun _ => twin_pure _

/-- The cache that an analysis opens is one that it may go on with, and the
analysis is in step with one that opens none. -/
theorem opened_midway (hPlanned : Planned w.disk w.here root plan)
    (hStart : (start root given).on w = (.ok plan, w₁)) {v : World}
    (hFile : (cachePath root given).on w = (.ok file, v))
    (hSteady : file.text ∈ plan.names → w.OpenAt file.text) {opened : Option Cache × List Warning} {v₁ : World}
    (hOpen : (openIf true plan).on w₁ = (.ok opened, v₁)) :
    ∃ c, opened = (some c, loadWarnings c) ∧ Midway w plan file [] c ∧ c.file.isAbsolute = true ∧
      w₁.Twin plan.names v₁ := by
  have hLooked := (looks_start root given).run hStart
  obtain ⟨file', v₂, c, found, hPath, hLoad, rfl⟩ := openIf_on_ok hOpen
  obtain ⟨-, hOpened, -⟩ := gives_openIf hPlanned true w₁ _ v₁ hLooked.disk hLooked.here hOpen
  obtain ⟨v₃, hSame⟩ := cachePath_on_of_opened hStart (hOpened c rfl)
  have hLooked₂ := hLooked.trans ((looks_cacheFile _ _).run hPath)
  obtain ⟨hPlace, hProject, hVersion, -⟩ := Cache.load_entries rfl hLoad
  replace hPlace : c.file = file' := hPlace
  obtain rfl : c.file = file := Except.ok.inj (Prod.mk.inj (hSame.symm.trans hFile)).1
  obtain ⟨hNodup, hEntries⟩ := Cache.carried_of_load rfl hLoad
  have hAbsolute : file'.isAbsolute = true := hPlace ▸ (hOpened c rfl).absolute
  have hCreated := Cache.createdAt_isString rfl hLoad
  refine ⟨c, rfl, ⟨rfl, hVersion, hProject, hCreated, hNodup, ?_⟩, (hOpened c rfl).absolute, ?_⟩
  · intro q hq
    obtain ⟨hKey, hCarried⟩ := hEntries q hq
    have hHere : Cache.Carried v₂ c.file q.2 := hPlace ▸ hCarried
    exact ⟨hKey, .inr ⟨hHere.congr hLooked₂.disk hLooked₂.here, nofun⟩⟩
  · have hTwin : w₁.Twin plan.names v₂ := (twin_cacheFile _ _).run hPath
    apply hTwin.trans
    apply (Cache.opens_load hAbsolute).run hLoad
    intro hName
    exact hLooked₂.locks _ (hPlace ▸ hSteady (hPlace ▸ hName))

/-- An analysis that comes to a report without the cache comes to one with
it, whatever the file of the cache holds, unless that does harm. What is
wrong with the file is a warning, and so is what keeps the cache from being
saved. The path of the file must be one that the system takes, and a file
that is looked at itself must not be locked for a while only. -/
theorem cached_run_completes {plain : Report} {v v' : World} (hProper : w.disk.Proper)
    (hPlain : (run root false given).on w = (.ok plain, v))
    (hStart : (start root given).on w = (.ok plan, w₁))
    (hFile : (cachePath root given).on w = (.ok file, v')) (hClean : file.Clean)
    (hShort : ¬ Resolution.TooLong w file) (hSteady : file.text ∈ plan.names → w.OpenAt file.text)
    (hRoot : plan.root.text.isString = true) (hWritable : ∀ e, New w plan e → e.toDatum.fits = true)
    (hBearable : Bearable w plan file) :
    ∃ report w', (run root true given).on w = (.ok report, w') ∧ Warned plan report := by
  have hLooked := (looks_start root given).run hStart
  have hPlanned := gives_start hProper w.here root given w plan w₁ rfl rfl hStart
  obtain ⟨base, -, -, hSound⟩ := hPlanned.scan
  have hFiles : ∀ path ∈ plan.scan.files, path.Named ∧ path.isAbsolute = true ∧
      ∃ bytes, w.content? path = some bytes := by
    intro path hPath
    have hFound := hSound.found path hPath
    exact ⟨hFound.named, by simp [Path.isAbsolute, hFound.anchor], hPlanned.content hPath⟩
  -- without the cache all files are added
  obtain ⟨p, v₀, hFold⟩ : ∃ p v₀,
      (plan.scan.files.foldlM (addFile plan.root plan.config.extensions) { cache := none }).on w₁ =
        (.ok p, v₀) := by
    rw [run_eq, on_bind_ok hStart] at hPlain
    obtain ⟨x, u, hCollect, -⟩ := of_on_bind hPlain
    obtain ⟨opened, u', hOpen, hRest⟩ := of_on_bind hCollect
    cases hOpen
    obtain ⟨p, u'', hFold, -⟩ := of_on_bind hRest
    exact ⟨p, u'', hFold⟩
  -- with the cache they are added in step with that
  obtain ⟨opened, v₁, hOpen⟩ : ∃ opened v₁, (openIf true plan).on w₁ = (.ok opened, v₁) :=
    openIf_answers hStart fun _ => ⟨file, v', hFile, hClean, hShort⟩
  obtain ⟨c, rfl, hMidway, hAbsolute, hTwin⟩ := opened_midway hPlanned hStart hFile hSteady hOpen
  obtain ⟨q, c', v₂, hFold', hCache, hMidway'⟩ := addFiles_endure hFiles hBearable (fun _ hPath => hPath)
    hFold rfl (q := { cache := some c }) rfl hMidway (hLooked.trans ((looks_openIf _ _).run hOpen)) hTwin
  rw [List.nil_append] at hMidway'
  have hStops : StopsBy (fun _ => False) (finish plan (q, some c, loadWarnings c)) := by
    apply stopsBy_finish (P := fun _ => False)
    intro c'' hSame
    obtain rfl := Option.some.inj (hCache.symm.trans hSame)
    have hPlace : (c'.keepOnly plan.scan.files).file = file := hMidway'.place
    have hSaves : StopsBy Failure.IsRefusal (c'.keepOnly plan.scan.files).save :=
      Cache.stopsBy_save_of_fits (by rwa [hPlace, ← hMidway.place]) (hPlace ▸ hClean) hMidway'.version
        (congrArg Path.text hMidway'.project ▸ hRoot) hMidway'.created (hMidway'.fits hBearable hWritable)
    exact hSaves.mono fun f hf => .inl hf
  have hSame : (run root true given).on w = (finish plan (q, some c, loadWarnings c)).on v₂ := by
    rw [run_eq, on_bind_ok hStart, collect, bind_assoc, on_bind_ok hOpen, bind_assoc]
    exact on_bind_ok hFold' _
  rcases hEnd : (finish plan (q, some c, loadWarnings c)).on v₂ with ⟨f | report, w'⟩
  · exact (hStops v₂ f w' hEnd).elim
  · refine ⟨report, w', hSame.trans hEnd, ?_⟩
    obtain ⟨time, cycles, saved, u, u', -, -, hSave, -, rfl⟩ := finish_steps hEnd
    exact ⟨loadWarnings c, extractionWarnings q.records, saved, rfl, loadWarnings_kind c,
      extractionWarnings_kind, finishCache_warnings hSave⟩

namespace Sample

/-- A document whose only entry has no digest, and as its time a text of a
number that no document can hold. -/
def overladen : Datum := .table [
  ("version", .int 1), ("project_path", .text ""), ("created_at", .text ""), ("updated_at", .text ""),
  ("entries", .list [.table [
    ("path", .text "/p/a.ts"), ("digest", .text ""), ("mtime_ns", .text "99999999999999999999"),
    ("record", .table [("path", .text "/p/a.ts"), ("relative_path", .text "a.ts")])]])]

def overladenBytes : List UInt8 := Text.Utf8.encodeChars ((Json.document overladen).toOption.getD [])

/-- A project of one empty file with this document in the file of its cache. -/
def laden : World where
  disk := ⟨[(["p"], .directory), (["p", "a.ts"], .file [] 7), (["p", ".cache"], .directory),
    (cachePlace, .file overladenBytes 1)]⟩
  here := ⟨⟨.root, []⟩, []⟩
  watch := ⟨0, 1⟩

def ladenFile : Path := ⟨.root, cachePlace⟩

/-- Whether an analysis begins with one file and the settings that a project
has by default. -/
def onePlan (plan : Plan) (_ : World) : Bool :=
  plan.root = project && plan.config = {} && plan.scan.files = [source]

/-- Without its cache the project is analysed to a report on one file, and
the cache is looked for in the file with the document. -/
theorem laden_begins : passes onePlan ((start project (some {})).on laden) = true ∧
    reports 1 0 ((run project false (some {})).on laden) = true ∧
    passes (fun file _ => file = ladenFile) ((cachePath project (some {})).on laden) = true := by
  decide +kernel

theorem laden_source :
    laden.disk.locate true (laden.here.join source) = .ok (.found ["p", "a.ts"] (.file [] 7)) := by
  rfl

theorem laden_cache :
    laden.disk.locate true (laden.here.join ladenFile) = .ok (.found cachePlace (.file overladenBytes 1)) := by
  rfl

/-- Whether there is a document with one entry, which has no digest and
cannot be written. -/
def isOverladen : Schema.Checked CacheDocument → Bool
  | .valid ⟨_, _, _, _, [e]⟩ => e.digest = "" && !e.toDatum.fits
  | _ => false

/-- A document that passes the test has one entry, without a digest, which
cannot be written. -/
theorem exists_of_isOverladen {checked : Schema.Checked CacheDocument} (hChecked : isOverladen checked = true) :
    ∃ doc e, checked = .valid doc ∧ doc.entries = [e] ∧ e.digest = "" ∧ e.toDatum.fits = false := by
  unfold isOverladen at hChecked
  split at hChecked
  · next e =>
    simp only [Bool.and_eq_true, decide_eq_true_eq, Bool.not_eq_true'] at hChecked
    exact ⟨_, e, rfl, rfl, hChecked⟩
  · cases hChecked

/-- The document is read as one with such an entry. -/
theorem overladen_read : isOverladen (CacheDocument.read overladen.sorted) = true := by decide +kernel

theorem overladen_version : overladen.sorted.SaysVersion 1 := by
  by_contra hOther
  have hOther' := CacheDocument.otherVersion_iff.mpr hOther
  revert hOther'
  decide +kernel

theorem overladen_plain : overladen.Plain := by
  have hRecord : (Datum.table [("path", .text "/p/a.ts"), ("relative_path", .text "a.ts")]).Plain := by
    apply Datum.Plain.table
    · decide
    · simp [Datum.Plain.text]
  have hEntry : (Datum.table [("path", .text "/p/a.ts"), ("digest", .text ""),
      ("mtime_ns", .text "99999999999999999999"),
      ("record", .table [("path", .text "/p/a.ts"), ("relative_path", .text "a.ts")])]).Plain := by
    apply Datum.Plain.table
    · decide
    · simp [Datum.Plain.text, hRecord]
  apply Datum.Plain.table
  · decide
  · simp [Datum.Plain.text, Datum.Plain.int, Datum.Plain.list, hEntry]

/-- The text of the time is written as any other text. -/
theorem overladen_datum : Cache.datum? overladenBytes = some overladen.sorted := by
  obtain ⟨text, hText⟩ := Json.document_eq_ok_iff.mpr (show overladen.fits = true by decide +kernel)
  rw [overladenBytes, hText, Cache.datum?]
  simp only [Except.toOption, Option.getD_some, Text.Utf8.decode_encodeChars,
    Json.parse_document overladen_plain hText]

/-- The bytes in the file hold that document, in the version of the cache. -/
theorem overladen_holds : ∃ doc e, Cache.Holds 1 overladenBytes doc ∧ doc.entries = [e] ∧ e.digest = "" ∧
    e.toDatum.fits = false := by
  obtain ⟨doc, e, hRead, hEntry⟩ := exists_of_isOverladen overladen_read
  obtain ⟨fields, hTable⟩ := CacheDocument.table_of_read hRead
  have hVersion := overladen_version
  rw [hTable] at hRead hVersion
  exact ⟨doc, e, ⟨fields, overladen_datum.trans (congrArg some hTable), hVersion, hRead⟩, hEntry⟩

/-- The file of the cache holds one entry, which is the one that cannot be
written. -/
theorem laden_carries : ∃ e, (∀ e', Cache.Carried laden ladenFile e' ↔ e' = e) ∧ e.digest = "" ∧
    e.toDatum.fits = false := by
  obtain ⟨doc, e, hHolds, hOne, hEntry⟩ := overladen_holds
  have hFile : Cache.FileAt laden ladenFile overladenBytes := ⟨_, _, laden_cache⟩
  refine ⟨e, fun e' => ⟨?_, ?_⟩, hEntry⟩
  · rintro ⟨bytes, doc', hFile', hHolds', hLast⟩
    obtain rfl := hFile.unique hFile'
    obtain rfl := hHolds.unique hHolds'
    rw [hOne] at hLast
    exact List.mem_singleton.mp (List.mem_of_find?_eq_some hLast)
  · rintro rfl
    exact ⟨_, doc, hFile, hHolds, by simp [hOne]⟩

/-- Whether the record of the source can be written. -/
def writable : Bool :=
  match Extraction.record laden source project [".ts"] [] with
  | .ok r => (CacheEntry.mk source.text (Digest.Sha256.hex []) 7 r).toDatum.fits
  | .error _ => false

/-- The record of the empty source can be written. -/
theorem source_writable : writable = true := by decide +kernel

/-- Every entry that is made of a file of this project can be written, there
being only one. -/
theorem new_writable {plan : Plan} {e : CacheEntry} (hRoot : plan.root = project) (hConfig : plan.config = {})
    (hFiles : plan.scan.files = [source]) (hNew : New laden plan e) : e.toDatum.fits = true := by
  obtain ⟨path, hPath, place, bytes, mtime, r, hLocate, hRecord, rfl⟩ := hNew
  rw [hFiles, List.mem_singleton] at hPath
  subst hPath
  rw [laden_source] at hLocate
  cases hLocate
  rw [hRoot, hConfig] at hRecord
  have hFits := source_writable
  rw [writable, show Extraction.record laden source project [".ts"] [] = .ok r from hRecord] at hFits
  exact hFits

/-- The document can be borne, though its entry cannot be written: the entry
is current for nothing, and it gives way to a new one. -/
theorem overladen_bearable {plan : Plan} (hFiles : plan.scan.files = [source]) :
    Bearable laden plan ladenFile := by
  obtain ⟨e, hCarries, hDigest, -⟩ := laden_carries
  have hStale : ¬ Current laden source e := by
    rintro ⟨place, bytes, mtime, hLocate, hCurrent⟩
    rw [laden_source] at hLocate
    cases hLocate
    simp only [CacheEntry.isCurrent, Bool.and_eq_true, decide_eq_true_eq, hDigest] at hCurrent
    exact absurd hCurrent.2 (by decide +kernel)
  constructor <;> rw [hFiles, List.forall_mem_singleton] <;> intro e' hCarried hPath
  · obtain rfl := (hCarries e').mp hCarried
    exact fun hCurrent => absurd hCurrent hStale
  · obtain rfl := (hCarries e').mp hCarried
    rintro (hCurrent | hLocked)
    · exact absurd hCurrent hStale
    · exact absurd (by rintro n ⟨⟩) hLocked

/-- A document with a number that cannot be written does not stop an
analysis if its entry is not current. -/
theorem overladen_cache_endured : ∃ plan report w' e, Cache.Carried laden ladenFile e ∧
    e.toDatum.fits = false ∧ (run project true (some {})).on laden = (.ok report, w') ∧ Warned plan report := by
  obtain ⟨e, hCarries, -, hUnfit⟩ := laden_carries
  obtain ⟨hBegins, hReports, hPlace⟩ := laden_begins
  obtain ⟨plan, w₁, hStart, hPlan⟩ := exists_of_passes hBegins
  simp only [onePlan, Bool.and_eq_true, decide_eq_true_eq] at hPlan
  obtain ⟨⟨hRoot, hConfig⟩, hFiles⟩ := hPlan
  obtain ⟨plain, v, hPlain, -, -⟩ := exists_of_reports hReports
  obtain ⟨file, v', hFile, hSame⟩ := exists_of_passes hPlace
  obtain rfl := of_decide_eq_true hSame
  obtain ⟨report, w', hRun, hWarned⟩ := cached_run_completes (by decide) hPlain hStart hFile (by decide)
    (by rw [Resolution.TooLong, laden_cache]; nofun) (fun _ n hLock => by cases hLock)
    (by rw [hRoot]; decide) (fun e hNew => new_writable hRoot hConfig hFiles hNew) (overladen_bearable hFiles)
  exact ⟨plan, report, w', e, (hCarries e).mpr rfl, hUnfit, hRun, hWarned⟩

end Sample

end Analysis

end SourceAtlas
