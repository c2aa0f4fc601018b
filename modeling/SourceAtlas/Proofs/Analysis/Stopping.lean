import SourceAtlas.Proofs.Analysis.Trouble
import SourceAtlas.Proofs.Json.Range

/-!
For what an analysis stops, stage by stage. All that it asks of the tree it may be refused, and that
is reported; what is left is trouble in the tree or with names, and a document of the cache that
cannot be written.
-/
namespace SourceAtlas

open SourceAtlas.Action

variable {w : World} {texts : List Text} {P : Failure → Prop} (hCovers : w.Covers texts P)

include hCovers

namespace Config

variable {root : Path} {config : Config} (hAsked : w.Asked texts root) (hAbsolute : root.isAbsolute = true)
  (hLoads : w.Loads root config)

include hAsked hAbsolute hLoads

theorem fails_cacheDirectory : Fails w.disk w.here (cacheDirectory root config.cacheDir) P := by
  have hJoined : w.here.join root = root := Path.join_of_absolute hAbsolute _
  rw [cacheDirectory]
  split
  · exact fails_throw (hCovers.config _)
  · split
    · exact fails_throw (hCovers.config _)
    · refine (hCovers.fails_canonical (hJoined.symm ▸ hAsked)).bind (looks_canonical root) (gives_canonical root)
        fun base hBase => ?_
      have hRooted : base.isAbsolute = true := Disk.canonical_isAbsolute hBase
      rw [hJoined] at hBase
      refine (hCovers.fails_canonical ?_).next (looks_canonical _) fun path => ?_
      · rw [Path.join_of_absolute (Path.join_isAbsolute hRooted _)]
        exact hAsked.cacheDir hLoads hBase
      · split
        · exact fails_pure _
        · exact fails_throw (hCovers.config _)

/-- Finding the file of the cache stops only for what is covered, a
directory outside the project included. -/
theorem fails_cacheFile : Fails w.disk w.here (config.cacheFile root) P :=
  (fails_cacheDirectory hCovers hAsked hAbsolute hLoads).next (Analysis.looks_cacheDirectory _ _) fun _ => fails_pure _

omit hCovers in
/-- The file of the cache stands in a directory that is asked about. -/
theorem gives_cacheFile : Gives w.disk w.here (config.cacheFile root) fun file => ∃ directory,
    file = Scan.child directory cacheFileName ∧ directory.isAbsolute = true ∧ w.Asked texts directory := by
  rintro v file v' hDisk hHere hRun
  obtain ⟨base, directory, hPlaced, hFile⟩ := cacheFile_on_ok hRun
  rw [hDisk, hHere, Path.join_of_absolute hAbsolute] at hPlaced
  exact ⟨directory, hFile, hPlaced.isAbsolute, (hAsked.cacheDir hLoads hPlaced.rooted).again hPlaced.found⟩

end Config

namespace Cache

theorem fails_load (c : Cache) : Fails w.disk w.here c.load P := by
  refine (fails_ask hCovers.refusal _ _).bind (looks_ask _ _) (gives_ask _ _) fun present hPresent => ?_
  split
  · exact fails_of_stopsBy ((stopsBy_log _ _ _).bind fun _ => stopsBy_pure _)
  · next hThere =>
    obtain rfl : present = true := by simpa using hThere
    obtain ⟨place, bytes, mtime, hLocate⟩ := Disk.found_of_isFile hPresent
    have hRead : Fails w.disk w.here (Action.readBytes c.forgotten.file) P :=
      fails_of_refusable (refusable_readBytes (Disk.ne_nul_of_locate hLocate)) hCovers.refusal
    have hFile : Fails w.disk w.here c.forgotten.readFile P := by
      refine hRead.attempt.next (looks_readBytes _).attempt fun content => ?_
      split <;> exact fails_pure _
    refine hFile.next (looks_readFile _) fun loaded => ?_
    split <;> exact fails_of_stopsBy ((stopsBy_log _ _ _).bind fun _ => stopsBy_pure _)

omit hCovers in
/-- Saving a cache stops for refusals, for a document that cannot be
written, or for a NUL character in the path of its file. -/
theorem stopsBy_save_beside {c : Cache} {folder : Path} {name : Text} (hFile : c.file = Scan.child folder name)
    (hAbsolute : folder.isAbsolute = true) (hName : Sign.char (Char.ofNat 0) ∉ name.toList)
    (hNul : ¬ folder.Clean → P .nulInPath)
    (hUnfit : ∀ time, (c.toDocument time).toDatum.fits = false → P .unwritable) :
    StopsBy (fun f => f.IsRefusal ∨ P f) c.save := by
  refine stopsBy_now.bind fun time => ?_
  dsimp only
  split
  · next e hDocument =>
    refine stopsBy_throw (.inr (hUnfit time ?_))
    rw [← Bool.not_eq_true, ← Json.document_eq_ok_iff, hDocument]
    rintro ⟨text, hText⟩
    cases hText
  · next text _ =>
    have hWrite : StopsBy (fun f => f.IsRefusal ∨ P f) (writeReplacing c.file (Text.Utf8.encodeChars text)) := by
      rw [hFile]
      by_cases hClean : folder.Clean
      · have hRooted : (Scan.child folder name).isAbsolute = true := hAbsolute
        have hWhole : (Scan.child folder name).Clean := List.forall_mem_append.mpr ⟨hClean, by simpa using hName⟩
        exact (stopsBy_writeReplacing hRooted hWhole _).mono fun f hf => .inl hf
      · intro v f v' hRun
        have hMake := makeDirectories_unclean hAbsolute hClean v
        rw [writeReplacing, replaceWith, child_parent, on_bind_error hMake] at hRun
        obtain rfl := Except.error.inj (Prod.mk.inj hRun).1
        exact .inr (hNul hClean)
    exact hWrite.bind fun _ => (stopsBy_log _ _ _).bind fun _ => stopsBy_pure _

/-- Removing a cache stops for refusals, or for a NUL character in the path
of its file. -/
theorem fails_remove {c : Cache} (hAbsolute : c.file.isAbsolute = true) (hNul : ¬ c.file.Clean → P .nulInPath) :
    Fails w.disk w.here c.remove P := by
  have hRemove : Fails w.disk w.here (removeFile c.file) P := by
    rintro v f v' - - hRun
    rw [removeFile_on, Path.join_of_absolute hAbsolute] at hRun
    split at hRun
    · exact stopsBy_throw (hCovers.refusal _) v f v' hRun
    · cases hRun
    · next r hEntry =>
      refine stopsBy_refuseBy hCovers.refusal (fun hError => hNul fun hClean => ?_) c.file v f v' hRun
      exact hClean.entry_ne_nul _ _ (hError ▸ hEntry)
  intro v f v' hDisk hHere hRun
  rcases of_on_bind_error hRun with hStop | ⟨result, u, -, hRest⟩
  · exact hRemove.attempt v f v' hDisk hHere hStop
  · cases result with
    | ok => cases (Prod.mk.inj hRest).1
    | error e =>
        dsimp only at hRest
        split at hRest
        · cases (Prod.mk.inj hRest).1
        · obtain rfl := Except.error.inj (Prod.mk.inj hRest).1
          exact hCovers.refusal e

end Cache

/-- An extraction with content at hand stops only where asking for what
an import leads to does. -/
theorem Extraction.fails_fromContent (path root : Path) (extensions : List Text)
    (content : Except SystemError (List UInt8)) :
    Action.Fails w.disk w.here (fromContent path root extensions content) P := by
  intro v f v' _ _ hRun
  cases content with
  | error e =>
      obtain ⟨u, -, hDone⟩ := fromContent_refused path root extensions e v
      rw [hDone] at hRun
      cases hRun
  | ok bytes =>
      rcases hRecord : record v path root extensions bytes with e | r
      · rw [fromContent_error hRecord] at hRun
        obtain rfl := Except.error.inj (Prod.mk.inj hRun).1
        exact hCovers.refusal e
      · obtain ⟨u, -, hDone⟩ := fromContent_ok hRecord
        rw [hDone] at hRun
        cases hRun

/-- A file that is there is extracted, unless an import cannot be looked up.
Whatever else is wrong with it becomes its record. -/
theorem Extraction.fails_extract {path : Path} (hThere : w.disk.locate true (w.here.join path) ≠ .error .nul)
    (root : Path) (extensions : List Text) (bytes : Option (List UInt8)) :
    Action.Fails w.disk w.here (extract path root extensions bytes) P := by
  cases bytes with
  | some bytes => exact fails_fromContent hCovers path root extensions (.ok bytes)
  | none =>
      rw [extract_none]
      have hRead : Action.Fails w.disk w.here (Action.readBytes path) P :=
        fails_of_refusable (refusable_readBytes hThere) hCovers.refusal
      exact hRead.attempt.next (looks_readBytes path).attempt (fails_fromContent hCovers path root extensions)

namespace Analysis

/-- Adding the record of a file stops only for what is covered: that it
cannot be read is a fault in its record. -/
theorem fails_addFile {path : Path} {bytes : List UInt8} (hContent : w.content? path = some bytes) (root : Path)
    (extensions : List Text) (p : Progress) : Fails w.disk w.here (addFile root extensions p path) P := by
  have hRead : Fails w.disk w.here (readFingerprinted path) P := by
    refine fails_of_answers fun v hDisk hHere => ?_
    rw [← World.content?_congr hDisk hHere] at hContent
    exact readFingerprinted_located hContent
  rw [addFile_eq]
  refine hRead.next (looks_readFingerprinted path) fun content => ?_
  rcases hHit : remembered? p.cache path content with _ | r
  · obtain ⟨place, mtime, hLocate⟩ := World.content?_eq_some_iff.mp hContent
    rw [addRead_missed root extensions hHit]
    exact (Extraction.fails_extract hCovers (Disk.ne_nul_of_locate hLocate) root extensions _).next
      (Extraction.looks_extract _ _ _ _) fun r => fails_pure _
  · intro v f v' _ _ hRun
    obtain ⟨u, -, hDone⟩ := addRead_hit root extensions hHit v
    rw [hDone] at hRun
    split at hRun
    · obtain rfl := Except.error.inj (Prod.mk.inj hRun).1
      exact hCovers.refusal _
    · cases hRun

/-- A document that an analysis is to save as its cache. -/
inductive SavesDocument (w : World) (root : Path) (useCache : Bool) : Datum → Prop where
  | intro {plan : Plan} {x : Progress × Option Cache × List Warning} {w₁ w₂ : World} {c : Cache}
      (hStart : (start root none).on w = (.ok plan, w₁)) (hCollect : (collect useCache plan).on w₁ = (.ok x, w₂))
      (hCache : x.1.cache = some c) (time : Text) :
      SavesDocument w root useCache ((c.keepOnly plan.scan.files).toDocument time).toDatum

omit hCovers in
/-- Without a cache there is none to save. -/
theorem not_savesDocument_uncached {root : Path} (hProper : w.disk.Proper) {d : Datum} :
    ¬ SavesDocument w root false d := by
  rintro ⟨hStart, hCollect, hCache, -⟩
  have hLooked := (looks_start root none).run hStart
  have hPlanned := gives_start hProper w.here root none w _ _ rfl rfl hStart
  have hCollected := gives_collect hPlanned false _ _ _ hLooked.disk hLooked.here hCollect
  have hNone := hCollected.cached
  have hSame := hCollected.added.cache
  rw [Option.isSome_eq_false_iff, Option.isNone_iff_eq_none] at hNone
  rw [hCache, hNone] at hSame
  cases hSame

variable {root : Path} (hSought : w.Sought texts root)

include hSought

theorem fails_start : Fails w.disk w.here (start root none) P := by
  refine (hCovers.fails_resolve hSought).bind (looks_resolve root) (gives_resolve root) fun base hBase => ?_
  refine (fails_load hCovers (.asked (hSought.asked_of_resolve hBase))).next (looks_configOf base none) fun config => ?_
  refine (Scan.fails_project hCovers _ (hSought.again hBase)).next (Scan.looks_project _ _) fun found => ?_
  exact fails_of_stopsBy ((stopsBy_log _ _ _).bind fun _ => stopsBy_pure _)

omit hCovers hSought in
/-- The configuration of a plan is loaded from its root. -/
theorem gives_start_loads (w : World) (root : Path) : Gives w.disk w.here (start root none) fun plan =>
    w.Loads plan.root plan.config := by
  refine (gives_true _).bind (looks_resolve root) fun base _ => ?_
  refine (gives_run w.disk w.here (Config.load base)).bind (looks_configOf base none) fun config hConfig => ?_
  refine (gives_true _).bind (Scan.looks_project _ _) fun found _ => ?_
  exact (gives_true _).bind (looks_log _ _ _) fun _ _ => gives_pure hConfig

section Planned

variable {plan : Plan} (hPlanned : Planned w.disk w.here root plan) (hLoads : w.Loads plan.root plan.config)

include hPlanned hLoads

/-- Getting all records stops only for what is covered, with the cache in
use or not. -/
theorem fails_collect (useCache : Bool) : Fails w.disk w.here (collect useCache plan) P := by
  have hAbsolute : plan.root.isAbsolute = true := Standpoint.resolve_isAbsolute hPlanned.root
  have hOpen : Fails w.disk w.here (openCache plan.root plan.config) P := by
    refine (Config.fails_cacheFile hCovers (hSought.asked_of_resolve hPlanned.root) hAbsolute hLoads).next
      (looks_cacheFile _ _) fun file => ?_
    refine (Cache.fails_load hCovers _).next (Cache.looks_load _) fun loaded => ?_
    obtain ⟨c, found⟩ := loaded
    dsimp only
    split <;> exact fails_pure _
  have hOpenIf : Fails w.disk w.here (openIf useCache plan) P := by
    rw [openIf]
    split
    · exact hOpen.next (looks_openCache _ _) fun _ => fails_pure _
    · exact fails_pure _
  refine hOpenIf.next (looks_openIf _ _) fun opened => ?_
  refine Fails.next (fails_foldlM (looks_addFile _ _) (fun p path hPath => ?_) _)
    (looks_foldlM (looks_addFile _ _) _ _) fun _ => fails_pure _
  obtain ⟨bytes, hContent⟩ := hPlanned.content hPath
  exact fails_addFile hCovers hContent _ _ p

omit hCovers in
/-- The file of an opened cache stands in a directory that is asked about. -/
theorem Opened.asked {c : Cache} (hOpened : Opened w plan c) : ∃ directory,
    c.file = Scan.child directory Config.cacheFileName ∧ directory.isAbsolute = true ∧ w.Asked texts directory := by
  have hAbsolute : plan.root.isAbsolute = true := Standpoint.resolve_isAbsolute hPlanned.root
  obtain ⟨v, v', hDisk, hHere, hFile⟩ := hOpened.file
  exact Config.gives_cacheFile (hSought.asked_of_resolve hPlanned.root) hAbsolute hLoads v _ v' hDisk hHere hFile

end Planned

/-- An analysis of a world with this tree stops for what is reported, for
trouble in the tree or with names, or for a document of the cache that
cannot be written. -/
theorem run_stops (hProper : w.disk.Proper) {useCache : Bool} {v v' : World} {f : Failure} (hDisk : v.disk = w.disk)
    (hHere : v.here = w.here) (hUnfit : ∀ d, SavesDocument v root useCache d → d.fits = false → P .unwritable)
    (hRun : (run root useCache none).on v = (.error f, v')) : P f := by
  rw [run_eq] at hRun
  rcases of_on_bind_error hRun with hStop | ⟨plan, v₁, hStart, hRest⟩
  · exact fails_start hCovers hSought v f v' hDisk hHere hStop
  have hPlanned := gives_start hProper w.here root none v plan v₁ hDisk hHere hStart
  have hLoads := gives_start_loads w root v plan v₁ hDisk hHere hStart
  have hLooked := (looks_start root none).run hStart
  have hDisk₁ := hLooked.disk.trans hDisk
  have hHere₁ := hLooked.here.trans hHere
  rcases of_on_bind_error hRest with hStop | ⟨x, v₂, hCollect, hFinish⟩
  · exact fails_collect hCovers hSought hPlanned hLoads useCache v₁ f v' hDisk₁ hHere₁ hStop
  have hCollected := gives_collect hPlanned useCache v₁ x v₂ hDisk₁ hHere₁ hCollect
  refine stopsBy_finish plan (fun c hCache => ?_) v₂ f v' hFinish
  have hSame : x.1.cache.map (fun c => (c.file, c.version)) = x.2.1.map fun c => (c.file, c.version) :=
    hCollected.added.cache
  rw [hCache, Option.map_some] at hSame
  obtain ⟨c', hOpened, hPair⟩ := Option.map_eq_some_iff.mp hSame.symm
  have hFile : c'.file = c.file := (Prod.mk.inj hPair).1
  obtain ⟨folder, hFolder, hAbsolute, hFound⟩ := (hCollected.opened c' hOpened).asked hSought hPlanned hLoads
  exact Cache.stopsBy_save_beside (c := c.keepOnly plan.scan.files) (hFile.symm.trans hFolder) hAbsolute
    (by decide) (fun hUnclean => hCovers.trouble _ (.nul hFound hUnclean))
    fun time hFits => hUnfit _ (.intro hStart hCollect hCache time) hFits

omit hCovers hSought in
/-- An analysis never leaves the working directory. -/
theorem stays_run (hProper : w.disk.Proper) (root : Path) (useCache : Bool) (given : Option Config) :
    ((run root useCache given).on w).2.here = w.here := by
  rcases run_effect hProper root useCache given with ⟨hHere, -⟩ | ⟨-, -, -, hSaved⟩
  · exact hHere
  · exact hSaved.here

/-- Clearing the cache stops only for what is covered. -/
theorem fails_clearCache : Fails w.disk w.here (clearCache root none) P := by
  rw [clearCache_eq]
  refine (hCovers.fails_resolve hSought).bind (looks_resolve root) (gives_resolve root) fun base hBase => ?_
  have hAbsolute : base.isAbsolute = true := Standpoint.resolve_isAbsolute hBase
  have hFound := hSought.asked_of_resolve hBase
  refine (fails_load hCovers (.asked hFound)).bind (looks_configOf base none)
    (gives_run _ _ _) fun config hLoads => ?_
  refine (Config.fails_cacheFile hCovers hFound hAbsolute hLoads).bind (looks_cacheFile _ _)
    (Config.gives_cacheFile hFound hAbsolute hLoads) fun file hFile => ?_
  obtain ⟨directory, rfl, hRooted, hDirectory⟩ := hFile
  refine Cache.fails_remove hCovers hRooted fun hUnclean => hCovers.trouble _ (.nul hDirectory fun hClean => ?_)
  exact hUnclean (List.forall_mem_append.mpr ⟨hClean, by decide⟩)

end Analysis

end SourceAtlas
