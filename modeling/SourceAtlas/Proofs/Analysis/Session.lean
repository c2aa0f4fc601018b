import SourceAtlas.Proofs.Analysis.Run

/-!
Analyses one after another, with anything else happening to the world in between. Whatever entry
the file at a watched place holds was made by an earlier analysis that wrote this file.
-/
namespace SourceAtlas.Analysis

open SourceAtlas.Action

/-- What happened to a world. -/
inductive Deed where
  /-- Something outside the program: files and links, locks, the clock, the working directory. -/
  | edited
  | analysed (root : Path) (useCache : Bool) (given : Option Config)
  | cleared (root : Path) (given : Option Config)

/-- A world of a session and what happened to it. -/
structure Visit where
  world : World
  deed : Deed

/-- No entry can be loaded from a place, and no link stands there. Missing
files and bytes that loading rejects are harmless. -/
structure Harmless (d : Disk) (place : Place) : Prop where
  noLink : ∀ target, d.find? place ≠ some (.link target)
  noEntry : ∀ e, ¬ Held d place e

/-- A session up to a world, the last visit first. Nothing but the program
itself puts a cache at the watched place; it may be taken away or
overwritten. -/
inductive Session (place : Place) : List Visit → World → Prop where
  | start {w : World} (hProper : w.disk.Proper) (hPlace : Harmless w.disk place) : Session place [] w
  | edit {past : List Visit} {w w' : World} (hPast : Session place past w) (hProper : w'.disk.Proper)
      (hPlace : w'.disk.find? place = w.disk.find? place ∨ Harmless w'.disk place) :
      Session place (⟨w, .edited⟩ :: past) w'
  | analysis {past : List Visit} {w : World} (hPast : Session place past w) (root : Path)
      (useCache : Bool) (given : Option Config) :
      Session place (⟨w, .analysed root useCache given⟩ :: past) ((run root useCache given).on w).2
  | clearing {past : List Visit} {w : World} (hPast : Session place past w) (root : Path)
      (given : Option Config) :
      Session place (⟨w, .cleared root given⟩ :: past) ((clearCache root given).on w).2

/-- A visit that was an analysis of a root and changed what
stands at a place. -/
def Visit.Stored (v : Visit) (place : Place) (start : Path) : Prop :=
  ∃ root given, v.deed = .analysed root true given ∧
    v.world.here.resolve v.world.disk root = .ok start ∧
    ((run root true given).on v.world).2.disk.find? place ≠ v.world.disk.find? place

/-- The root that something was stored for is the one that
was to be analysed. -/
theorem Visit.Stored.root_eq {w : World} {place : Place} {root start base : Path} {useCache : Bool}
    {given : Option Config} (hStored : Visit.Stored ⟨w, .analysed root useCache given⟩ place start)
    (hRoot : w.here.resolve w.disk root = .ok base) : start = base := by
  obtain ⟨_, _, hDeed, hStart, -⟩ := hStored
  obtain ⟨rfl, -⟩ := Deed.analysed.inj hDeed
  exact Except.ok.inj (hStart.symm.trans hRoot)

/-- An entry that was made in a visit which changed what stands at a place. -/
def Stems (place : Place) (past : List Visit) (e : CacheEntry) : Prop :=
  ∃ v ∈ past, ∃ start, v.Stored place start ∧ Made v.world start e

/-- What is known of a watched place: every entry there was made by a visit
that changed it, and can be written again. -/
structure Kept (place : Place) (past : List Visit) (w : World) : Prop where
  proper : w.disk.Proper
  noLink : ∀ target, w.disk.find? place ≠ some (.link target)
  entries : ∀ e, Held w.disk place e → e.toDatum.fits = true ∧ Stems place past e

variable {place : Place} {past : List Visit} {w w' : World}

theorem Stems.cons {e : CacheEntry} (hStems : Stems place past e) (v : Visit) :
    Stems place (v :: past) e := by
  obtain ⟨u, hu, hOrigin⟩ := hStems
  exact ⟨u, List.mem_cons_of_mem _ hu, hOrigin⟩

theorem Held.congr {d d' : Disk} {e : CacheEntry} (hSame : d'.find? place = d.find? place)
    (hHeld : Held d' place e) : Held d place e := by
  obtain ⟨bytes, mtime, doc, hFind, hRest⟩ := hHeld
  exact ⟨bytes, mtime, doc, hSame ▸ hFind, hRest⟩

/-- A visit that leaves the place alone keeps what is known of it, whatever
else it does. -/
theorem Kept.of_same (hKept : Kept place past w) (hProper : w'.disk.Proper)
    (hSame : w'.disk.find? place = w.disk.find? place) (v : Visit) : Kept place (v :: past) w' where
  proper := hProper
  noLink target := hSame ▸ hKept.noLink target
  entries e hHeld := (hKept.entries e (hHeld.congr hSame)).imp_right fun hStems => hStems.cons v

/-- At a place with nothing to load every entry is accounted for, since
there is none. -/
theorem Kept.of_harmless (hProper : w.disk.Proper) (hHarmless : Harmless w.disk place) :
    Kept place past w :=
  ⟨hProper, hHarmless.noLink, fun e hHeld => absurd hHeld (hHarmless.noEntry e)⟩

/-- A place where nothing stands but possibly a directory is harmless. -/
theorem harmless_of_vacant {d : Disk} (hVacant : ∀ item, d.find? place = some item → item = .directory) :
    Harmless d place where
  noLink target hFind := by cases hVacant _ hFind
  noEntry := by
    rintro e ⟨bytes, mtime, doc, hFile, -⟩
    cases hVacant _ hFile

theorem harmless_of_directory {d : Disk} (hFind : d.find? place = some .directory) : Harmless d place :=
  harmless_of_vacant fun _ hItem => Option.some.inj (hItem.symm.trans hFind)

theorem harmless_of_none {d : Disk} (hFind : d.find? place = none) : Harmless d place :=
  harmless_of_vacant fun item hItem => by
    rw [hFind] at hItem
    cases hItem

/-- What is known of the place stays known while the rest of the disk grows. -/
theorem Kept.grows (hKept : Kept place past w) (hGrows : w.disk.Grows w'.disk) (v : Visit) :
    Kept place (v :: past) w' := by
  have hProper := hGrows.proper hKept.proper
  rcases hGrows.find? place with hSame | ⟨-, hNew⟩
  · exact hKept.of_same hProper hSame v
  · exact .of_harmless hProper (harmless_of_directory hNew)

/-- What is known of the place stays known when the cache is taken away. -/
theorem Kept.shrunk (hKept : Kept place past w) (hShrunk : Cache.Shrunk w w') (v : Visit) :
    Kept place (v :: past) w' := by
  have hProper := hShrunk.proper hKept.proper
  rcases hShrunk.find? place with hSame | hGone
  · exact hKept.of_same hProper hSame v
  · exact .of_harmless hProper (harmless_of_none hGone)

/-- A cache is loaded from the place it is saved to, unless a
link stands there. -/
theorem loaded_where_saved {d d' : Disk} {file : Path} {arrival : Disk.Arrival} {found : Place}
    {item : Item} (hExtends : Disk.Extends d d') (hSaved : d'.locate false file = .ok arrival)
    (hNoLink : ∀ target, d.find? arrival.place ≠ some (.link target))
    (hLoaded : d.locate true file = .ok (.found found item)) : found = arrival.place := by
  obtain ⟨found', item', hLocate, hSame⟩ := Disk.locate_unfollowed hLoaded
  obtain rfl := Except.ok.inj ((hExtends.locate hLocate).symm.trans hSaved)
  rcases hSame with hSame | ⟨target, rfl⟩
  · exact hSame.symm
  · exact absurd (Disk.find?_of_locate hLocate) (hNoLink target)

/-- Clearing the cache of a project at most takes files away. -/
theorem shrunk_clearCache (root : Path) (given : Option Config) :
    Moves Cache.Shrunk (clearCache root given) := by
  refine (Cache.shrunk_of_looks (looks_resolve root)).bind fun root => ?_
  have hConfig := looks_configOf root given
  cases given with
  | some c => exact (Cache.shrunk_of_looks (looks_cacheFile root c)).bind fun _ => Cache.shrunk_remove _
  | none =>
      exact (Cache.shrunk_of_looks hConfig).bind fun c =>
        (Cache.shrunk_of_looks (looks_cacheFile root c)).bind fun _ => Cache.shrunk_remove _

/-- An analysis that saves a cache at the place puts entries there that it
made or loaded from there. -/
theorem Kept.saved {root start : Path} {given : Option Config} {c : Cache} {bytes : List UInt8}
    {doc : CacheDocument} (hKept : Kept place past w)
    (hRoot : w.here.resolve w.disk root = .ok start)
    (hEntries : ∀ p ∈ c.entries, Made w start p.2 ∨ HeldAt w.disk c.file p.2)
    (hHeld : Cache.held? bytes = some doc) (hDocument : ∀ e ∈ doc.entries, e.toDatum.fits = true ∧ ∃ key, (key, e) ∈ c.entries)
    (hSaved : w.disk.Saved c.file bytes ((run root true given).on w).2.disk) :
    Kept place (⟨w, .analysed root true given⟩ :: past) ((run root true given).on w).2 := by
  have hProper := hSaved.proper hKept.proper
  cases hSaved with
  | failed hGrows => exact hKept.grows hGrows _
  | @replaced d₁ d₂ arrival hGrows hExtends hLocate hThere hElse _ =>
      by_cases hSame : ((run root true given).on w).2.disk.find? place = w.disk.find? place
      · exact hKept.of_same hProper hSame _
      by_cases hPlace : place = arrival.place
      · subst hPlace
        refine ⟨hProper, by simp [hThere], ?_⟩
        rintro e ⟨bytes', mtime, doc', hFind, hHeld', he⟩
        obtain ⟨rfl, -⟩ : bytes = bytes' ∧ _ := by simpa [hThere] using hFind
        obtain rfl := Option.some.inj (hHeld.symm.trans hHeld')
        obtain ⟨hFits, key, hKey⟩ := hDocument e he
        refine ⟨hFits, ?_⟩
        rcases hEntries _ hKey with hMade | ⟨found, item, hLoaded, hOld⟩
        · exact ⟨_, List.mem_cons_self .., start, ⟨root, given, rfl, hRoot, hSame⟩, hMade⟩
        · have hFound : found = arrival.place :=
            loaded_where_saved (fun p i hp => hExtends p i (hGrows.extends p i hp)) hLocate
              hKept.noLink hLoaded
          subst hFound
          exact (hKept.entries e hOld).2.cons _
      · rcases hGrows.find? place with hOld | ⟨-, hNew⟩
        · exact absurd ((hElse place hPlace).trans hOld) hSame
        · exact .of_harmless hProper (harmless_of_directory ((hElse place hPlace).trans hNew))

/-- An analysis keeps what is known of the place: if it saves there,
each entry that it saves is one it made itself or one that it had
loaded from there. -/
theorem Kept.analysis (hKept : Kept place past w) (root : Path) (useCache : Bool)
    (given : Option Config) :
    Kept place (⟨w, .analysed root useCache given⟩ :: past) ((run root useCache given).on w).2 := by
  cases run_effect hKept.proper root useCache given with
  | none hHere hDisk =>
      exact hKept.of_same (hDisk ▸ hKept.proper) (by rw [hDisk]) _
  | saved hUse hRoot hEntries hSaved =>
      subst hUse
      rcases hSaved.disk with hGrows | ⟨bytes, doc, hHeld, hDocument, hDisk⟩
      · exact hKept.grows hGrows _
      · exact hKept.saved hRoot hEntries hHeld hDocument hDisk

/-- Along every session the entries at the watched place were made by
analyses that wrote there. -/
theorem Session.kept (hSession : Session place past w) : Kept place past w := by
  induction hSession with
  | start hProper hPlace => exact .of_harmless hProper hPlace
  | edit _ hProper hPlace ih =>
      rcases hPlace with hSame | hHarmless
      · exact ih.of_same hProper hSame _
      · exact .of_harmless hProper hHarmless
  | analysis _ root useCache given ih => exact ih.analysis root useCache given
  | clearing _ root given ih => exact ih.shrunk (shrunk_clearCache root given _) _

variable {root : Path} {given : Option Config}

/-- The file that keeps the cache of a project. -/
def cachePath (root : Path) (given : Option Config) : Action Path := do
  let root ← Action.resolve root
  let config ← configOf root given
  config.cacheFile root

/-- The place of the file that an analysis would load its cache from. -/
def CachePlace (w : World) (root : Path) (given : Option Config) (place : Place) : Prop :=
  ∃ file w' item, (cachePath root given).on w = (.ok file, w') ∧
    w.disk.locate true file = .ok (.found place item)

/-- Where the cache of a project is kept is a matter of the disk, and
not of the locks. -/
theorem settled_cacheFile (root : Path) (c : Config) : Settled (c.cacheFile root) := by
  have hDirectory : Settled (Config.cacheDirectory root c.cacheDir) := by
    rw [Config.cacheDirectory]
    split
    · exact settled_throw _
    · split
      · exact settled_throw _
      · refine (settled_canonical _).bind (looks_canonical _) fun base => ?_
        refine (settled_canonical _).bind (looks_canonical _) fun path => ?_
        split
        · exact settled_pure _
        · exact settled_throw _
  exact hDirectory.bind (looks_cacheDirectory _ _) fun _ => settled_pure _

/-- The path of the project's cache is what the plan of an analysis makes of
it, on the same disk. -/
theorem cachePath_of_start {plan : Plan} {v : World} (hStart : (start root given).on w = (.ok plan, w'))
    (hDisk : v.disk = w.disk) (hHere : v.here = w.here) :
    ((cachePath root given).on w).1 = ((plan.config.cacheFile plan.root).on v).1 := by
  obtain ⟨found, w₁, hRoot, hRest⟩ := of_on_bind hStart
  obtain ⟨config, w₂, hConfig, hRest⟩ := of_on_bind hRest
  obtain ⟨scan, w₃, -, hRest⟩ := of_on_bind hRest
  obtain ⟨_, w₄, -, hRest⟩ := of_on_bind hRest
  obtain rfl := Except.ok.inj (Prod.mk.inj hRest).1
  have hLooked := ((looks_resolve root).run hRoot).trans ((looks_configOf found given).run hConfig)
  rw [cachePath, on_bind_ok hRoot, on_bind_ok hConfig]
  exact settled_cacheFile found config w₂ v (hLooked.disk.trans hDisk.symm) (hLooked.here.trans hHere.symm)

/-- An analysis opens the cache at the path of the project's cache, which is
where a session watches. -/
theorem cachePath_on_of_opened {plan : Plan} {c : Cache} (hStart : (start root given).on w = (.ok plan, w'))
    (hOpened : Opened w plan c) : ∃ v, (cachePath root given).on w = (.ok c.file, v) := by
  obtain ⟨v, v', hDisk, hHere, hFile⟩ := hOpened.file
  have hSame := cachePath_of_start hStart hDisk hHere
  rw [hFile] at hSame
  exact ⟨((cachePath root given).on w).2, Prod.ext hSame rfl⟩

/-- At the end of a session every entry that an analysis opens was made by
one that wrote its file, and can be written again. -/
theorem stems_opened {plan : Plan} {c : Cache} {e : CacheEntry} (hSession : Session place past w)
    (hStart : (start root given).on w = (.ok plan, w')) (hOpened : Opened w plan c)
    (hPlace : ∀ q, CachePlace w root given q → q = place) (hHeld : HeldAt w.disk c.file e) :
    e.toDatum.fits = true ∧ Stems place past e := by
  obtain ⟨found, item, hLocate, hHeld⟩ := hHeld
  obtain ⟨v, hFile⟩ := cachePath_on_of_opened hStart hOpened
  obtain rfl := hPlace found ⟨c.file, v, item, hFile, hLocate⟩
  exact hSession.kept.entries e hHeld

/-- Worlds of which the second has every entry of the first are told apart
by nothing at all. -/
theorem distinguished_of_extends {v : World} (hExtends : Disk.Extends v.disk w.disk)
    (hHere : w.here = v.here) : Distinguished v w := by
  intro path a b ha hb _
  obtain ⟨found, mtime, hLocate⟩ := World.content?_eq_some_iff.mp ha
  have hLater := hExtends.locate hLocate
  rw [← hHere] at hLater
  rw [World.content?_eq_some_iff.mpr ⟨found, mtime, hLater⟩] at hb
  exact Option.some.inj hb

namespace Sample

/-- A project of two files, of which one cannot be read at
the first attempt. -/
def before : World where
  disk := ⟨[(["p"], .directory), (["p", "a.ts"], .file (Text.Utf8.encode "import './b';") 7),
    (["p", "c.ts"], .file (Text.Utf8.encode "import './b';") 8)]⟩
  here := ⟨⟨.root, []⟩, []⟩
  locks := [("/p/a.ts", 1)]
  watch := ⟨0, 1⟩

def project : Path := ⟨.root, ["p"]⟩

/-- The project after an analysis with the cache. Only the kernel is to
evaluate it. -/
@[irreducible]
def analysed : World := (run project true (some {})).leaving before

theorem analysed_eq : analysed = ((run project true (some {})).on before).2 := by
  unfold analysed
  exact leaving_eq _ _

/-- A world in which the file that is imported has been written too. -/
def extended (w : World) : World := { w with disk := w.disk.put ["p", "b.ts"] (.file [] 9) }

theorem extended_here (w : World) : (extended w).here = w.here := rfl

/-- Writing the imported file is a step of a session that
watches another place. -/
theorem session_extended {place : Place} {past : List Visit} (hSession : Session place past w)
    (hPlace : place ≠ ["p", "b.ts"]) : Session place (⟨w, .edited⟩ :: past) (extended w) :=
  hSession.edit (hSession.kept.proper.put (by decide) _) (.inl (Disk.find?_put_of_ne hPlace _ _))

/-- A file that is new leaves no two contents to be told apart. -/
theorem distinguished_extended (hFree : w.disk.find? ["p", "b.ts"] = none) :
    Distinguished w (extended w) :=
  distinguished_of_extends (Disk.extends_put hFree _) (extended_here w)

def after : World := extended analysed

def cachePlace : Place := ["p", ".cache", "analysis-cache.json"]

def visits : List Visit := [⟨analysed, .edited⟩, ⟨before, .analysed project true (some {})⟩]

theorem before_root : before.here.resolve before.disk project = .ok project := by decide

theorem session : Session cachePlace visits after := by
  have hFirst : Session cachePlace [⟨before, .analysed project true (some {})⟩] analysed := by
    rw [analysed_eq]
    exact (Session.start (by decide) (harmless_of_none (by decide))).analysis project true (some {})
  exact session_extended hFirst (by decide)

/-- The analysis leaves every entry of the disk as it was. -/
theorem analysed_grows : analysed.here = before.here ∧ analysed.disk.find? ["p", "b.ts"] = none ∧
    ∀ e ∈ before.disk.entries, analysed.disk.find? e.1 = some e.2 := by
  decide +kernel

/-- No world of the session holds other contents under a
digest of the last one. -/
theorem distinguished : ∀ v ∈ visits, Distinguished v.world after := by
  obtain ⟨hHere, hFree, hGrown⟩ := analysed_grows
  have hExtends : Disk.Extends before.disk (extended analysed).disk :=
    (Disk.extends_of_entries hGrown).trans (Disk.extends_put hFree _)
  rw [visits, List.forall_mem_cons, List.forall_mem_singleton]
  exact ⟨distinguished_extended hFree,
    distinguished_of_extends hExtends ((extended_here analysed).trans hHere)⟩

/-- Whether an analysis gave a report on so many files, of which it took so
many from a cache. -/
def reports (count hits : Nat) (result : Except Failure Report × World) : Bool :=
  match result.1 with
  | .ok report => report.files.length = count && report.summary.cacheHits = hits
  | .error _ => false

/-- A run that passes the test has given a report with that
many files and hits. -/
theorem exists_of_reports {count hits : Nat} {result : Except Failure Report × World}
    (hReports : reports count hits result = true) :
    ∃ report w', result = (.ok report, w') ∧ report.files.length = count ∧ report.summary.cacheHits = hits := by
  obtain ⟨e | report, w'⟩ := result
  · cases hReports
  · exact ⟨report, w', rfl, by simpa [reports] using hReports⟩

/-- Whether a cache is loaded from a place, going by the path that
was found for it. -/
def loadsFrom (place : Place) (d : Disk) (result : Except Failure Path × World) : Bool :=
  match result.1 with
  | .ok file =>
    match d.locate true file with
    | .ok arrival => arrival.place = place
    | .error _ => false
  | .error _ => false

theorem eq_of_loadsFrom {place found : Place} {d : Disk} {result : Except Failure Path × World}
    {file : Path} {item : Item} (hLoads : loadsFrom place d result = true)
    (hResult : result = (.ok file, w)) (hLocate : d.locate true file = .ok (.found found item)) :
    found = place := by
  subst hResult
  simp only [loadsFrom, hLocate] at hLoads
  exact of_decide_eq_true hLoads

/-- The last analysis reports on three files and takes one of them from the
cache, which is the one at the watched place. -/
theorem after_reports : after.here.resolve after.disk project = .ok project ∧
    after.locks = [(("/p/a.ts" : Text), 0)] ∧
    reports 3 1 ((run project true (some {})).on after) = true ∧
    loadsFrom cachePlace after.disk ((cachePath project (some {})).on after) = true := by
  decide +kernel

theorem unlocked : after.Unlocked := by
  intro key n hLock
  rw [after_reports.2.1, List.lookup_cons] at hLock
  split at hLock
  · exact (Option.some.inj hLock).symm
  · cases hLock

/-- The only place that the analysis would load its cache from is the
watched one. -/
theorem place_eq : ∀ q, CachePlace after project (some {}) q → q = cachePlace := by
  rintro q ⟨file, v, item, hFile, hLocate⟩
  exact eq_of_loadsFrom after_reports.2.2.2 hFile hLocate

/-- The only visit of the session that stored anything at the watched place
is the first, and it was for the same root. -/
theorem stored_eq : ∀ v ∈ visits, ∀ other, v.Stored cachePlace other → other = project := by
  rw [visits, List.forall_mem_cons, List.forall_mem_singleton]
  refine ⟨fun other hStored => ?_, fun other hStored => hStored.root_eq before_root⟩
  obtain ⟨root, given, hDeed, -⟩ := hStored
  cases hDeed

end Sample

end SourceAtlas.Analysis
