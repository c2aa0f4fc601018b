import SourceAtlas.Extraction
import SourceAtlas.Proofs.World.Looking

/-!
Records depend on the world only through the files that imports lead to, and looking up the imports
of a record again gives the record that would be made now.
-/
namespace SourceAtlas

namespace Resolution

/-- Whether a path leads to a file depends on the disk and on the working
directory only. -/
theorem hasFile_congr {w w' : World} (hDisk : w'.disk = w.disk) (hHere : w'.here = w.here) (p : Path) :
    w'.hasFile p = w.hasFile p := by
  rw [World.hasFile, World.hasFile, hDisk, hHere]

/-- Two worlds find the same first file among paths on which they agree. -/
theorem firstFile_eq {w w' : World} {ps : List Path} (hSame : ∀ p ∈ ps, w'.hasFile p = w.hasFile p) :
    firstFile w' ps = firstFile w ps := by
  induction ps with
  | nil => rfl
  | cons p ps ih =>
      rw [firstFile, firstFile, hSame p (List.mem_cons_self ..),
        ih fun q hq => hSame q (List.mem_cons_of_mem _ hq)]

/-- Where an import leads depends only on the answers for the
paths that are tried. -/
theorem classify_eq {w w' : World} {importer : Path} {extensions : List Text} {source : Text}
    (hSame : isRelative source = true → ∀ p ∈ candidates (base importer source) extensions,
      w'.hasFile p = w.hasFile p) :
    classify w' importer extensions source = classify w importer extensions source := by
  rw [classify, classify]
  split
  · next hRelative => rw [resolve, resolve, firstFile_eq (hSame hRelative)]
  · rfl

/-- Where an import leads depends on the disk and on the working directory,
and not on locks. -/
theorem classify_congr {w w' : World} (hDisk : w'.disk = w.disk) (hHere : w'.here = w.here)
    (importer : Path) (extensions : List Text) (source : Text) :
    classify w' importer extensions source = classify w importer extensions source :=
  classify_eq fun _ p _ => hasFile_congr hDisk hHere p

theorem refresh_congr {w w' : World} (hDisk : w'.disk = w.disk) (hHere : w'.here = w.here)
    (extensions : List Text) (r : Record) : refresh w' extensions r = refresh w extensions r := by
  have hImport : refreshImport w' (Path.parse r.path) extensions =
      refreshImport w (Path.parse r.path) extensions := by
    funext i
    rw [refreshImport, refreshImport, classify_congr hDisk hHere]
  rw [refresh, refresh, hImport]

/-- A path that is too long to be asked about: a name on the way or the
whole of it. -/
def TooLong (w : World) (p : Path) : Prop :=
  w.disk.locate true (w.here.join p) = .error (.errno .nameTooLong)

/-- Asking for a file is refused exactly where the path is too long, for
every other refusal counts as its absence. -/
theorem hasFile_eq_error_iff {w : World} {p : Path} :
    (∃ e, w.hasFile p = .error e) ↔ TooLong w p := by
  rw [World.hasFile]
  rcases hAsk : w.disk.isFile (w.here.join p) with e | b
  · have hLong := (Disk.test_eq_error_iff.mp hAsk).2
    exact ⟨fun _ => hLong, fun _ => ⟨_, rfl⟩⟩
  · refine ⟨nofun, fun hLong => ?_⟩
    have hError : w.disk.isFile (w.here.join p) = .error .nameTooLong :=
      Disk.test_eq_error_iff.mpr ⟨rfl, hLong⟩
    rw [hAsk] at hError
    cases hError

/-- A search for a file stops at a path that is too long if no path before
it leads to one. -/
theorem firstFile_eq_error_iff {w : World} {ps : List Path} :
    (∃ e, firstFile w ps = .error e) ↔
      ∃ before p after, ps = before ++ p :: after ∧ (∀ q ∈ before, w.hasFile q = .ok false) ∧
        TooLong w p := by
  induction ps with
  | nil => simp [firstFile]
  | cons p ps ih =>
      rw [firstFile]
      rcases hAsk : w.hasFile p with e | b
      · refine ⟨fun _ => ⟨[], p, ps, rfl, by simp, hasFile_eq_error_iff.mp ⟨e, hAsk⟩⟩, fun _ => ⟨e, rfl⟩⟩
      · have hShort : ¬ TooLong w p := fun hLong => by
          obtain ⟨e, hError⟩ := hasFile_eq_error_iff.mpr hLong
          rw [hAsk] at hError
          cases hError
        cases b with
        | true =>
            refine ⟨nofun, ?_⟩
            rintro ⟨before, q, after, hSplit, hBefore, hLong⟩
            cases before with
            | nil =>
                obtain ⟨rfl, -⟩ := List.cons.inj hSplit
                exact absurd hLong hShort
            | cons q' before =>
                obtain ⟨rfl, -⟩ := List.cons.inj hSplit
                have hFalse := hBefore p (List.mem_cons_self ..)
                rw [hAsk] at hFalse
                cases hFalse
        | false =>
            rw [ih]
            constructor
            · rintro ⟨before, q, after, rfl, hBefore, hLong⟩
              refine ⟨p :: before, q, after, rfl, ?_, hLong⟩
              simpa [hAsk] using hBefore
            · rintro ⟨before, q, after, hSplit, hBefore, hLong⟩
              cases before with
              | nil =>
                  obtain ⟨rfl, -⟩ := List.cons.inj hSplit
                  exact absurd hLong hShort
              | cons q' before =>
                  obtain ⟨rfl, rfl⟩ := List.cons.inj hSplit
                  exact ⟨before, q, after, rfl, fun q hq => hBefore q (List.mem_cons_of_mem _ hq), hLong⟩

/-- An import that cannot be looked up: it is relative, and of the paths it
may lead to one is too long to be asked about before any of them is a file. -/
def Blocked (w : World) (importer : Path) (extensions : List Text) (source : Text) : Prop :=
  isRelative source = true ∧ ∃ before p after,
    candidates (base importer source) extensions = before ++ p :: after ∧
      (∀ q ∈ before, w.hasFile q = .ok false) ∧ TooLong w p

/-- Looking an import up is refused exactly if it is blocked. -/
theorem classify_eq_error_iff {w : World} {importer : Path} {extensions : List Text}
    {source : Text} :
    (∃ e, classify w importer extensions source = .error e) ↔ Blocked w importer extensions source := by
  rw [classify, Blocked, ← firstFile_eq_error_iff, resolve]
  split
  · next hRelative =>
    rcases firstFile w (candidates (base importer source) extensions) with e | (_ | p) <;>
      simp [hRelative]
  · next hRelative => simp [hRelative]

theorem Blocked.congr {w w' : World} (hDisk : w'.disk = w.disk) (hHere : w'.here = w.here)
    {importer : Path} {extensions : List Text} {source : Text} :
    Blocked w' importer extensions source ↔ Blocked w importer extensions source := by
  rw [← classify_eq_error_iff, ← classify_eq_error_iff, classify_congr hDisk hHere]

end Resolution

namespace Extraction

variable {w w' : World} {path root : Path} {extensions : List Text}

/-- A path that an import in a file with these bytes may lead to. -/
def Candidate (path : Path) (extensions : List Text) (bytes : List UInt8) (p : Path) : Prop :=
  ∃ outline, (read (dialectOf path) bytes).outline = .ok outline ∧ ∃ s ∈ outline.imports,
    Resolution.isRelative s.source = true ∧
      p ∈ Resolution.candidates (Resolution.base path s.source) extensions

/-- The record of a file depends on the world only through the paths that
its imports may lead to. -/
theorem record_eq {bytes : List UInt8}
    (hSame : ∀ p, Candidate path extensions bytes p → w'.hasFile p = w.hasFile p) :
    record w' path root extensions bytes = record w path root extensions bytes := by
  rw [record, record]
  rcases hOutline : (read (dialectOf path) bytes).outline with fault | outline
  · rfl
  · have hSites : outline.imports.mapM (resolveSite w' path extensions) =
        outline.imports.mapM (resolveSite w path extensions) := by
      refine mapM_congr fun s hs => ?_
      rw [resolveSite, resolveSite, Resolution.classify_eq fun hRelative p hp =>
        hSame p ⟨outline, hOutline, s, hs, hRelative, hp⟩]
    simp only [hSites]

/-- The record of content depends on the disk only by where
its imports lead. -/
theorem record_congr (hDisk : w'.disk = w.disk) (hHere : w'.here = w.here) (path root : Path)
    (extensions : List Text) (bytes : List UInt8) :
    record w' path root extensions bytes = record w path root extensions bytes :=
  record_eq fun p _ => Resolution.hasFile_congr hDisk hHere p

/-- An import is external exactly if its source is not relative, and its
other fields are those of its statement. -/
theorem resolveSite_eq_ok {s : ImportSite} {i : Import} (hResolve : resolveSite w path extensions s = .ok i) :
    (i.kind = .external ↔ Resolution.isRelative s.source = false) ∧
      i = ⟨s.source, i.resolved, i.kind, s.form, s.names, s.line, Resolution.groupOf s.source⟩ ∧
      (i.kind = .external → i.resolved = none) := by
  rw [resolveSite] at hResolve
  split at hResolve
  · cases hResolve
  · next kind resolved hClassify =>
    obtain rfl := Except.ok.inj hResolve
    rw [Resolution.classify] at hClassify
    split at hClassify
    · next hRelative =>
      split at hClassify
      · cases hClassify
      · obtain ⟨rfl, rfl⟩ := Prod.mk.inj (Except.ok.inj hClassify)
        simp [hRelative]
      · obtain ⟨rfl, rfl⟩ := Prod.mk.inj (Except.ok.inj hClassify)
        simp [hRelative]
    · next hRelative =>
      obtain ⟨rfl, rfl⟩ := Prod.mk.inj (Except.ok.inj hClassify)
      simpa using hRelative

/-- Looking up an import again is looking up its statement. -/
theorem refreshImport_eq {w₀ : World} {extensions₀ : List Text} {s : ImportSite} {i : Import}
    (hResolve : resolveSite w₀ path extensions₀ s = .ok i) (w : World) (extensions : List Text) :
    Resolution.refreshImport w path extensions i = resolveSite w path extensions s := by
  obtain ⟨hExternal, hFields, hNone⟩ := resolveSite_eq_ok hResolve
  have hSource : i.source = s.source := by rw [hFields]
  rw [Resolution.refreshImport, resolveSite, hSource]
  split
  · next hKind =>
    rw [Resolution.classify, if_neg (by simp [hExternal.mp hKind])]
    rw [hFields, hNone hKind, hKind]
  · rcases Resolution.classify w path extensions s.source with e | ⟨kind, resolved⟩
    · rfl
    · simp only
      rw [hFields]

/-- Imports that were resolved once are looked up again as they would be
from their sources, whatever they led to. -/
theorem mapM_refreshImport {w₀ : World} {extensions₀ : List Text} {sites : List ImportSite}
    {imports : List Import} (hResolve : sites.mapM (resolveSite w₀ path extensions₀) = .ok imports)
    (w : World) (extensions : List Text) :
    imports.mapM (Resolution.refreshImport w path extensions) =
      sites.mapM (resolveSite w path extensions) := by
  have hSites := forall₂_of_mapM hResolve
  clear hResolve
  induction hSites with
  | nil => rfl
  | cons hHead _ ih => rw [List.mapM_cons, List.mapM_cons, refreshImport_eq hHead, ih]

/-- A record whose imports are looked up again is the record made from the
same bytes now. -/
theorem refresh_record {w₀ : World} {extensions₀ : List Text} {bytes : List UInt8} {r : Record}
    (hReadable : path.Readable) (hRecord : record w₀ path root extensions₀ bytes = .ok r)
    (w : World) (extensions : List Text) :
    Resolution.refresh w extensions r = record w path root extensions bytes := by
  rw [record] at hRecord ⊢
  split at hRecord
  · next fault hOutline =>
    obtain rfl := Except.ok.inj hRecord
    rfl
  · next outline hOutline =>
    split at hRecord
    · cases hRecord
    · next imports hImports =>
      obtain rfl := Except.ok.inj hRecord
      have hAgain := mapM_refreshImport hImports w extensions
      rcases hSites : outline.imports.mapM (resolveSite w path extensions) with e | sites <;>
        simp only [Resolution.refresh, Path.parse_text hReadable, hAgain, hSites]

/-- Content that stops an extraction: it is parsed, and one of its imports
is blocked. -/
def Stops (w : World) (path : Path) (extensions : List Text) (bytes : List UInt8) : Prop :=
  ∃ outline, (read (dialectOf path) bytes).outline = .ok outline ∧
    ∃ s ∈ outline.imports, Resolution.Blocked w path extensions s.source

/-- No record is made of a file exactly if its content stops the extraction. -/
theorem record_eq_error_iff {bytes : List UInt8} :
    (∃ e, record w path root extensions bytes = .error e) ↔ Stops w path extensions bytes := by
  rw [Stops]
  rw [record]
  rcases hOutline : (read (dialectOf path) bytes).outline with fault | outline
  · simp
  · have hSites : (∃ e, outline.imports.mapM (resolveSite w path extensions) = .error e) ↔
        ∃ s ∈ outline.imports, Resolution.Blocked w path extensions s.source := by
      rw [mapM_eq_error_iff]
      refine exists_congr fun s => and_congr_right fun _ => ?_
      rw [← Resolution.classify_eq_error_iff, resolveSite]
      rcases Resolution.classify w path extensions s.source with e | ⟨kind, resolved⟩ <;> simp
    simp only [Except.ok.injEq, exists_eq_left', ← hSites]
    rcases outline.imports.mapM (resolveSite w path extensions) with e | imports <;> simp

/-- A record names its file, and says of a failure exactly if
nothing was extracted. -/
theorem record_eq_ok {bytes : List UInt8} {r : Record}
    (hRecord : record w path root extensions bytes = .ok r) :
    r.path = path.text ∧ r.relativePath = path.relativeText root ∧
      (r.failure.isSome = true ↔ ∃ fault, (read (dialectOf path) bytes).outline = .error fault) := by
  rw [record] at hRecord
  rcases hOutline : (read (dialectOf path) bytes).outline with fault | outline
  · rw [hOutline] at hRecord
    obtain rfl := Except.ok.inj hRecord
    simp [failed]
  · rw [hOutline] at hRecord
    simp only at hRecord
    split at hRecord
    · cases hRecord
    · obtain rfl := Except.ok.inj hRecord
      simp

open SourceAtlas.Action

/-- What extraction makes of the bytes of a file, or of the
refusal to read them. -/
def fromContent (path root : Path) (extensions : List Text)
    (content : Except SystemError (List UInt8)) : Action Record := do
  let r ← match content with
    | .error e => pure (failed path root 0 (.unreadable e.errno))
    | .ok bytes =>
      match record (← get) path root extensions bytes with
      | .ok r => pure r
      | .error e => throw (.system e)
  match r.failure with
  | some message => Action.log .warning .extraction message
  | none => pure ()
  return r

/-- Extraction with content at hand does not read the file. -/
theorem extract_some (path root : Path) (extensions : List Text) (bytes : List UInt8) :
    extract path root extensions (some bytes) = fromContent path root extensions (.ok bytes) := rfl

/-- Extraction without content reads the file first, and a refusal of that
gives a record too. -/
theorem extract_none (path root : Path) (extensions : List Text) :
    extract path root extensions none =
      attempt (readBytes path) >>= fromContent path root extensions := rfl

/-- A record is given as it is made; saying why nothing was
extracted only looks. -/
theorem logFailure_on (r : Record) (w : World) :
    ∃ w', w.Looked w' ∧ (do
      match r.failure with
      | some message => Action.log .warning .extraction message
      | none => pure ()
      return r : Action Record).on w = (.ok r, w') := by
  split
  next message _ =>
    exact ⟨{ w with remarks := w.remarks ++ [.log .warning .extraction message] },
      ⟨rfl, rfl, fun _ => id⟩, rfl⟩
  next =>
    exact ⟨w, .refl w, rfl⟩

/-- A file that could not be read has a record that says why. -/
theorem fromContent_refused (path root : Path) (extensions : List Text) (e : SystemError) (w : World) :
    ∃ w', w.Looked w' ∧ (fromContent path root extensions (.error e)).on w =
      (.ok (failed path root 0 (.unreadable e.errno)), w') :=
  logFailure_on (failed path root 0 (.unreadable e.errno)) w

/-- Content that has a record gives it, and besides something may be said. -/
theorem fromContent_ok {bytes : List UInt8} {r : Record}
    (hRecord : record w path root extensions bytes = .ok r) :
    ∃ w', w.Looked w' ∧
      (fromContent path root extensions (.ok bytes)).on w = (.ok r, w') := by
  rw [fromContent, on_bind_ok (on_get w), hRecord]
  exact logFailure_on r w

/-- Content of which an import is blocked stops the extraction. -/
theorem fromContent_error {bytes : List UInt8} {e : SystemError}
    (hRecord : record w path root extensions bytes = .error e) :
    (fromContent path root extensions (.ok bytes)).on w = (.error (.system e), w) := by
  rw [fromContent, on_bind_ok (on_get w), hRecord]
  rfl

theorem looks_fromContent (path root : Path) (extensions : List Text)
    (content : Except SystemError (List UInt8)) : Looks (fromContent path root extensions content) := by
  intro w
  cases content with
  | error e =>
      obtain ⟨w', hLooked, hRun⟩ := fromContent_refused path root extensions e w
      rw [hRun]
      exact hLooked
  | ok bytes =>
      rcases hRecord : record w path root extensions bytes with e | r
      · rw [fromContent_error hRecord]
        exact .refl w
      · obtain ⟨w', hLooked, hRun⟩ := fromContent_ok hRecord
        rw [hRun]
        exact hLooked

/-- Extraction reads at most, and leaves the disk as it was. -/
theorem looks_extract (path root : Path) (extensions : List Text) (bytes : Option (List UInt8)) :
    Looks (extract path root extensions bytes) := by
  cases bytes with
  | some bytes => exact looks_fromContent path root extensions (.ok bytes)
  | none => exact (looks_readBytes path).attempt.bind (looks_fromContent path root extensions)

/-- The record of a file names its path and its path from the root, whether
or not it was read and parsed. -/
theorem gives_fromContent (w : World) (path root : Path) (extensions : List Text)
    (content : Except SystemError (List UInt8)) :
    Gives w.disk w.here (fromContent path root extensions content) fun r =>
      r.path = path.text ∧ r.relativePath = path.relativeText root ∧
        ∀ bytes, content = .ok bytes → record w path root extensions bytes = .ok r := by
  intro v r v' hDisk hHere hRun
  cases content with
  | error e =>
      obtain ⟨v'', -, hGiven⟩ := fromContent_refused path root extensions e v
      rw [hGiven] at hRun
      obtain rfl := Except.ok.inj (Prod.mk.inj hRun).1
      exact ⟨rfl, rfl, nofun⟩
  | ok bytes =>
      rcases hRecord : record v path root extensions bytes with e | r'
      · rw [fromContent_error hRecord] at hRun
        cases hRun
      · obtain ⟨v'', -, hGiven⟩ := fromContent_ok hRecord
        rw [hGiven] at hRun
        obtain rfl := Except.ok.inj (Prod.mk.inj hRun).1
        obtain ⟨hPath, hRelative, -⟩ := record_eq_ok hRecord
        refine ⟨hPath, hRelative, fun bytes' hSame => ?_⟩
        obtain rfl := Except.ok.inj hSame
        rw [← hRecord, record_congr hDisk hHere]

/-- The record of a file names it, and is made of the bytes that are given. -/
theorem gives_extract (w : World) (path root : Path) (extensions : List Text)
    (content : Option (List UInt8)) :
    Gives w.disk w.here (extract path root extensions content) fun r =>
      r.path = path.text ∧ r.relativePath = path.relativeText root ∧
        ∀ bytes, content = some bytes → record w path root extensions bytes = .ok r := by
  cases content with
  | some bytes =>
      refine (gives_fromContent w path root extensions (.ok bytes)).mono fun r hr => ?_
      refine ⟨hr.1, hr.2.1, fun bytes' hSame => hr.2.2 bytes' ?_⟩
      rw [Option.some.inj hSame]
  | none =>
      refine (gives_true _).bind (looks_readBytes path).attempt fun result _ => ?_
      exact (gives_fromContent w path root extensions result).mono fun r hr => ⟨hr.1, hr.2.1, nofun⟩

theorem Stops.congr {bytes : List UInt8} (hDisk : w'.disk = w.disk) (hHere : w'.here = w.here) :
    Stops w' path extensions bytes ↔ Stops w path extensions bytes := by
  rw [Stops, Stops]
  simp only [Resolution.Blocked.congr hDisk hHere]

/-- Nothing is extracted from bytes that are no UTF-8 or
that are not parsed. -/
theorem read_outline_error_iff {dialect : Syntax.Dialect} {bytes : List UInt8} :
    (∃ fault, (read dialect bytes).outline = .error fault) ↔
      (∃ f, Text.Utf8.decode (Text.Utf8.dropMark bytes) = .error f) ∨
      ∃ cs line, Text.Utf8.decode (Text.Utf8.dropMark bytes) = .ok cs ∧
        Syntax.parse dialect cs = .error line := by
  rw [read]
  rcases Text.Utf8.decode (Text.Utf8.dropMark bytes) with f | cs
  · simp
  · rcases hParse : Syntax.parse dialect cs with line | tree <;> simp [hParse]

/-- A file that gives no outline: it was not read, or is no UTF-8,
or is not parsed. -/
def Fails (path : Path) (content : Except SystemError (List UInt8)) : Prop :=
  (∃ e, content = .error e) ∨ ∃ bytes, content = .ok bytes ∧
    ((∃ f, Text.Utf8.decode (Text.Utf8.dropMark bytes) = .error f) ∨
      ∃ cs line, Text.Utf8.decode (Text.Utf8.dropMark bytes) = .ok cs ∧
        Syntax.parse (dialectOf path) cs = .error line)

/-- Extraction stops exactly if the bytes of the file are read and stop it.
A record that it gives names the file, and says of a failure exactly if the
file gives no outline. -/
theorem extract_outcome {content : Except SystemError (List UInt8)} {v : World}
    (hRead : (attempt (readBytes path)).on w = (.ok content, v)) (root : Path) (extensions : List Text) :
    ((∃ f w', (extract path root extensions none).on w = (.error f, w')) ↔
      ∃ bytes, content = .ok bytes ∧ Stops w path extensions bytes) ∧
    ∀ r w', (extract path root extensions none).on w = (.ok r, w') →
      r.path = path.text ∧ r.relativePath = path.relativeText root ∧
      (r.failure.isSome = true ↔ Fails path content) := by
  have hLooked := (looks_readBytes path).attempt w
  rw [hRead] at hLooked
  rw [extract_none, on_bind_ok hRead]
  cases content with
  | error e =>
      obtain ⟨w', -, hRun⟩ := fromContent_refused path root extensions e v
      rw [hRun]
      refine ⟨⟨?_, ?_⟩, fun r w'' hSame => ?_⟩
      · rintro ⟨f, w'', hSame⟩
        cases (Prod.mk.inj hSame).1
      · rintro ⟨bytes, hSame, -⟩
        cases hSame
      · obtain rfl := Except.ok.inj (Prod.mk.inj hSame).1
        exact ⟨rfl, rfl, fun _ => .inl ⟨e, rfl⟩, fun _ => rfl⟩
  | ok bytes =>
      rcases hRecord : record v path root extensions bytes with e | r
      · rw [fromContent_error hRecord]
        refine ⟨⟨fun _ => ⟨bytes, rfl, ?_⟩, fun _ => ⟨_, _, rfl⟩⟩, fun r w' hSame => ?_⟩
        · exact (Stops.congr hLooked.disk hLooked.here).mp (record_eq_error_iff.mp ⟨e, hRecord⟩)
        · cases (Prod.mk.inj hSame).1
      · obtain ⟨w', -, hRun⟩ := fromContent_ok hRecord
        rw [hRun]
        refine ⟨⟨?_, ?_⟩, fun r' w'' hSame => ?_⟩
        · rintro ⟨f, w'', hSame⟩
          cases (Prod.mk.inj hSame).1
        · rintro ⟨bytes', hSame, hStops⟩
          obtain rfl := Except.ok.inj hSame
          obtain ⟨e, hError⟩ := record_eq_error_iff.mpr
            ((Stops.congr hLooked.disk hLooked.here).mpr hStops)
          rw [hRecord] at hError
          cases hError
        · obtain rfl := Except.ok.inj (Prod.mk.inj hSame).1
          obtain ⟨hPath, hRelative, hFailure⟩ := record_eq_ok hRecord
          refine ⟨hPath, hRelative, (hFailure.trans read_outline_error_iff).trans ?_⟩
          exact ⟨fun hFails => .inr ⟨bytes, rfl, hFails⟩, by simp [Fails]⟩

end Extraction

end SourceAtlas
