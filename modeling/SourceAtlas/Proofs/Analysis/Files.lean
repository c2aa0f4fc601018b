import SourceAtlas.Analysis
import SourceAtlas.Proofs.Assoc
import SourceAtlas.Proofs.Extraction

/-!
The records of an analysis, file by file. A remembered record is used for content with the digest
of its entry only, and with its imports looked up again it is the record that would be made now.
-/
namespace SourceAtlas

/-- The bytes of the file that a path leads to. -/
def World.content? (w : World) (p : Path) : Option (List UInt8) :=
  match w.disk.locate true (w.here.join p) with
  | .ok (.found _ (.file bytes _)) => some bytes
  | _ => none

/-- A path has a content exactly if it leads to a file, and then the content
is the file's. -/
theorem World.content?_eq_some_iff {w : World} {p : Path} {bytes : List UInt8} :
    w.content? p = some bytes ↔
      ∃ place mtime, w.disk.locate true (w.here.join p) = .ok (.found place (.file bytes mtime)) := by
  rw [World.content?]
  constructor
  · intro hContent
    split at hContent
    · next place bytes' mtime hLocate =>
      obtain rfl := Option.some.inj hContent
      exact ⟨place, mtime, hLocate⟩
    · cases hContent
  · rintro ⟨place, mtime, hLocate⟩
    rw [hLocate]

/-- The content of a path depends on the disk and on where the run stands,
and not on the locks. -/
theorem World.content?_congr {w w' : World} (hDisk : w'.disk = w.disk) (hHere : w'.here = w.here)
    (p : Path) : w'.content? p = w.content? p := by
  rw [World.content?, World.content?, hDisk, hHere]

namespace Analysis

open SourceAtlas.Action

variable {w w' : World} {root path : Path} {extensions : List Text} {bytes : List UInt8}

/-- Read a file after asking for its time. A refusal of either is passed on. -/
def readWithTime (path : Path) : Action (List UInt8 × Fingerprint) := do
  let mtime ← Action.modified path
  let bytes ← Action.readBytes path
  return (bytes, .ofBytes bytes mtime)

theorem looks_readWithTime (path : Path) : Looks (readWithTime path) :=
  (looks_modified path).bind fun _ => (looks_readBytes path).bind fun _ => looks_pure _

theorem looks_readFingerprinted (path : Path) : Looks (readFingerprinted path) := by
  refine (looks_readWithTime path).attempt.bind fun found => ?_
  split
  · exact looks_pure _
  · exact (looks_log _ _ _).bind fun _ => looks_pure _

/-- What is read of a path is its content. -/
theorem gives_readBytes (w : World) (path : Path) :
    Gives w.disk w.here (Action.readBytes path) fun bytes => w.content? path = some bytes := by
  intro v bytes v' hDisk hHere hRun
  obtain ⟨-, hLocate⟩ := readBytes_on_ok hRun
  rw [hDisk, hHere] at hLocate
  exact World.content?_eq_some_iff.mpr hLocate

/-- The time that is asked for is that of the file which the path leads to. -/
theorem gives_modified (w : World) (path : Path) :
    Gives w.disk w.here (Action.modified path) fun time => ∀ place bytes mtime,
      w.disk.locate true (w.here.join path) = .ok (.found place (.file bytes mtime)) → time = mtime := by
  refine (gives_entry path).bind (looks_entry path) fun e hEntry => ?_
  obtain ⟨found, item⟩ := e
  cases item with
  | file content time =>
      refine gives_pure fun place bytes mtime hLocate => ?_
      rw [hLocate] at hEntry
      cases hEntry
      rfl
  | directory =>
      refine gives_pure fun place bytes mtime hLocate => ?_
      rw [hLocate] at hEntry
      cases hEntry
  | link target =>
      refine gives_pure fun place bytes mtime hLocate => ?_
      rw [hLocate] at hEntry
      cases hEntry

/-- What is read is the file as it is, with the fingerprint of its bytes and
of the time it has. -/
theorem gives_readFingerprinted_file (w : World) (path : Path) :
    Gives w.disk w.here (readFingerprinted path) fun content => ∀ found, content = some found →
      ∃ place mtime, w.disk.locate true (w.here.join path) = .ok (.found place (.file found.1 mtime)) ∧
        found.2 = .ofBytes found.1 mtime := by
  have hRead : Gives w.disk w.here (readWithTime path) fun found => ∃ place mtime,
      w.disk.locate true (w.here.join path) = .ok (.found place (.file found.1 mtime)) ∧
        found.2 = .ofBytes found.1 mtime := by
    refine (gives_modified w path).bind (looks_modified path) fun time hTime => ?_
    refine (gives_readBytes w path).bind (looks_readBytes path) fun bytes hContent => gives_pure ?_
    obtain ⟨place, mtime, hLocate⟩ := World.content?_eq_some_iff.mp hContent
    obtain rfl := hTime place bytes mtime hLocate
    exact ⟨place, time, hLocate, rfl⟩
  refine hRead.attempt.bind (looks_readWithTime path).attempt fun content hContent => ?_
  split
  · next found =>
    refine gives_pure fun found' hSame => ?_
    obtain rfl := Option.some.inj hSame
    exact hContent found rfl
  · exact (gives_true _).bind (looks_log _ _ _) fun _ _ => gives_pure nofun

/-- What is read is the content of the file, with its digest. -/
theorem gives_readFingerprinted (w : World) (path : Path) :
    Gives w.disk w.here (readFingerprinted path) fun content => ∀ found, content = some found →
      w.content? path = some found.1 ∧ found.2.digest = Digest.Sha256.hex found.1 := by
  refine (gives_readFingerprinted_file w path).mono fun content hContent found hFound => ?_
  obtain ⟨place, mtime, hLocate, hPrint⟩ := hContent found hFound
  exact ⟨World.content?_eq_some_iff.mpr ⟨place, mtime, hLocate⟩, by rw [hPrint]; rfl⟩

/-- What is read without its fingerprint is the content of the file. -/
theorem content_of_fingerprinted {content : Option (List UInt8 × Fingerprint)}
    (hContent : ∀ found, content = some found →
      w.content? path = some found.1 ∧ found.2.digest = Digest.Sha256.hex found.1) :
    ∀ bytes, content.map Prod.fst = some bytes → w.content? path = some bytes := by
  intro bytes hSome
  obtain ⟨found, hFound, rfl⟩ := Option.map_eq_some_iff.mp hSome
  exact (hContent found hFound).1

/-- Where its path is not locked a file that is there is read at once, and
the world stays as it was. -/
theorem readFingerprinted_open (hOpen : w.OpenAt (w.here.join path).text) {place : Place} {mtime : Int}
    (hLocate : w.disk.locate true (w.here.join path) = .ok (.found place (.file bytes mtime))) :
    (readFingerprinted path).on w = (.ok (some (bytes, .ofBytes bytes mtime)), w) := by
  have hRead : (readWithTime path).on w = (.ok (bytes, .ofBytes bytes mtime), w) := by
    rw [readWithTime, on_bind_ok (modified_on_file hLocate),
      on_bind_ok (readBytes_open hOpen hLocate), on_pure]
  have hAttempt : (attempt (readWithTime path)).on w = (.ok (.ok (bytes, .ofBytes bytes mtime)), w) := by
    rw [on_attempt, hRead]
  show (attempt (readWithTime path) >>= _).on w = _
  rw [on_bind_ok hAttempt, on_pure]

/-- A file that is there is read, or a lock refuses. There is no other way
in which reading can end. -/
theorem readBytes_located (hContent : w.content? path = some bytes) :
    (Action.readBytes path).on w = (.ok bytes, w) ∨
      ∃ e w', (Action.readBytes path).on w = (.error (.system e), w') := by
  obtain ⟨place, mtime, hLocate⟩ := World.content?_eq_some_iff.mp hContent
  rcases hRead : (Action.readBytes path).on w with ⟨f | found, w'⟩
  · obtain ⟨e, rfl⟩ := refusable_readBytes (by rw [hLocate]; nofun) w f w' rfl rfl hRead
    exact .inr ⟨e, w', rfl⟩
  · obtain ⟨rfl, hFound⟩ := readBytes_on_ok hRead
    rw [World.content?_eq_some_iff.mpr hFound] at hContent
    obtain rfl := Option.some.inj hContent
    exact .inl rfl

/-- Reading a file that is there never stops an analysis: a refusal leaves
it without content. -/
theorem readFingerprinted_located (hContent : w.content? path = some bytes) :
    ∃ content w', (readFingerprinted path).on w = (.ok content, w') := by
  obtain ⟨place, mtime, hLocate⟩ := World.content?_eq_some_iff.mp hContent
  obtain ⟨result, w₁, hAttempt⟩ :
      ∃ result w₁, (attempt (readWithTime path)).on w = (.ok result, w₁) := by
    rcases readBytes_located hContent with hRead | ⟨e, w₁, hRead⟩
    · have hBoth : (readWithTime path).on w = (.ok (bytes, .ofBytes bytes mtime), w) := by
        rw [readWithTime, on_bind_ok (modified_on_file hLocate), on_bind_ok hRead, on_pure]
      exact ⟨.ok (bytes, .ofBytes bytes mtime), w, by rw [on_attempt, hBoth]⟩
    · have hBoth : (readWithTime path).on w = (.error (.system e), w₁) := by
        rw [readWithTime, on_bind_ok (modified_on_file hLocate), on_bind_error hRead]
      exact ⟨.error e, w₁, by rw [on_attempt, hBoth]⟩
  show ∃ content w', (attempt (readWithTime path) >>= _).on w = (.ok content, w')
  rw [on_bind_ok hAttempt]
  cases result with
  | ok found => exact ⟨some found, w₁, rfl⟩
  | error e => exact ⟨none, _, rfl⟩

/-- An entry that was made in a world for a root: its record is that of a
file which had the digest of the entry then. -/
inductive Made (w : World) (root : Path) (e : CacheEntry) : Prop where
  | intro {path : Path} {bytes : List UInt8} {extensions : List Text} (hNamed : path.Named)
      (hPath : e.path = path.text) (hContent : w.content? path = some bytes)
      (hDigest : e.digest = Digest.Sha256.hex bytes)
      (hRecord : Extraction.record w path root extensions bytes = .ok e.record)

/-- An entry that is made of a file as it is now. -/
def Fresh (w : World) (root : Path) (extensions : List Text) (path : Path) (e : CacheEntry) : Prop :=
  ∃ place bytes mtime r, w.disk.locate true (w.here.join path) = .ok (.found place (.file bytes mtime)) ∧
    Extraction.record w path root extensions bytes = .ok r ∧ e = ⟨path.text, Digest.Sha256.hex bytes, mtime, r⟩

/-- An entry made of a file of the project as it is now is one that was made
in this world. -/
theorem Fresh.made {e : CacheEntry} (hFresh : Fresh w root extensions path e) (hNamed : path.Named) :
    Made w root e := by
  obtain ⟨place, bytes, mtime, r, hLocate, hRecord, rfl⟩ := hFresh
  exact ⟨hNamed, rfl, World.content?_eq_some_iff.mpr ⟨place, mtime, hLocate⟩, rfl, hRecord⟩

/-- An entry that may stand in for a file with its digest: its record with
the imports looked up again is the record that would be made now. -/
def Trusted (w : World) (root : Path) (e : CacheEntry) : Prop :=
  ∀ (path : Path) (bytes : List UInt8), path.Named → e.path = path.text →
    w.content? path = some bytes → e.digest = Digest.Sha256.hex bytes → ∀ extensions,
      Resolution.refresh w extensions e.record = Extraction.record w path root extensions bytes

/-- Whether an entry is trusted depends on the disk and on where the run
stands, and not on the locks. -/
theorem Trusted.congr {e : CacheEntry} (hTrusted : Trusted w root e) (hDisk : w'.disk = w.disk)
    (hHere : w'.here = w.here) : Trusted w' root e := by
  intro path bytes hNamed hPath hContent hDigest extensions
  rw [World.content?_congr hDisk hHere] at hContent
  rw [Resolution.refresh_congr hDisk hHere, Extraction.record_congr hDisk hHere]
  exact hTrusted path bytes hNamed hPath hContent hDigest extensions

/-- Between two worlds no file has different contents of one digest. -/
def Distinguished (v w : World) : Prop :=
  ∀ path a b, v.content? path = some a → w.content? path = some b →
    Digest.Sha256.hex a = Digest.Sha256.hex b → a = b

/-- An entry made for a root can be trusted for it as long as digests tell
contents apart. -/
theorem Made.trusted {v : World} {e : CacheEntry} (hMade : Made v root e) (hDigests : Distinguished v w) :
    Trusted w root e := by
  obtain ⟨hNamed, hPath, hContent, hDigest, hRecord⟩ := hMade
  intro path bytes hNamed' hPath' hContent' hDigest' extensions
  obtain rfl := Path.text_injective hNamed.readable hNamed'.readable (hPath.symm.trans hPath')
  obtain rfl := hDigests _ _ _ hContent hContent' (Text.ofString_injective (hDigest.symm.trans hDigest'))
  exact Extraction.refresh_record hNamed.readable hRecord w extensions

/-- An entry that was made in this world can be trusted in it: the content
that its digest stands for is the content there is. -/
theorem Made.trusted_now {e : CacheEntry} (hMade : Made w root e) : Trusted w root e :=
  hMade.trusted fun _ _ _ ha hb _ => Option.some.inj (ha.symm.trans hb)

/-- Every entry of a cache, if there is one, stands under its own path and
has a property. -/
def Entries (Q : CacheEntry → Prop) (cache : Option Cache) : Prop :=
  ∀ c, cache = some c → ∀ p ∈ c.entries, p.1 = p.2.path ∧ Q p.2

theorem entries_none (Q : CacheEntry → Prop) : Entries Q none := nofun

/-- Entries with a property have every weaker one. -/
theorem Entries.mono {Q Q' : CacheEntry → Prop} {cache : Option Cache} (hEntries : Entries Q cache)
    (hMono : ∀ e, Q e → Q' e) : Entries Q' cache :=
  fun c hCache p hp => (hEntries c hCache p hp).imp_right (hMono p.2)

/-- A record put into a cache stands under its own path, and has the
property if its new entry has it. -/
theorem Entries.put {Q : CacheEntry → Prop} {c : Cache} (hEntries : Entries Q (some c)) {r : Record}
    {f : Fingerprint} (hNew : Q ⟨path.text, f.digest, f.mtime, r⟩) :
    Entries Q (some (c.put path r f)) := by
  intro c' hCache p hp
  obtain rfl := Option.some.inj hCache
  rcases Assoc.mem_put hp with rfl | hOld
  · exact ⟨rfl, hNew⟩
  · exact hEntries c rfl p hOld

/-- An entry stands in for a file if it is under the path of the
file and is current. -/
theorem current?_eq_some_iff {c : Cache} {f : Fingerprint} {e : CacheEntry} :
    c.current? path f = some e ↔ Assoc.get? path.text c.entries = some e ∧ e.isCurrent f = true := by
  rw [Cache.current?]
  rcases Assoc.get? path.text c.entries with _ | e'
  · simp
  · by_cases hCurrent : e'.isCurrent f = true
    · simp only [if_pos hCurrent, Option.some.injEq]
      exact ⟨fun hSame => ⟨hSame, hSame ▸ hCurrent⟩, fun hBoth => hBoth.1⟩
    · simp only [if_neg hCurrent, Option.some.injEq]
      exact ⟨nofun, fun hBoth => absurd (hBoth.1 ▸ hBoth.2) hCurrent⟩

/-- An entry that stands in for a file is under the path of the file and has
its digest. -/
theorem Entries.of_current? {Q : CacheEntry → Prop} {cache : Option Cache} {f : Fingerprint}
    {e : CacheEntry} (hEntries : Entries Q cache)
    (hCurrent : (cache.bind fun c => c.current? path f) = some e) :
    e.path = path.text ∧ e.digest = f.digest ∧ Q e := by
  obtain ⟨c, rfl, hCurrent⟩ := Option.bind_eq_some_iff.mp hCurrent
  obtain ⟨hGet, hIsCurrent⟩ := current?_eq_some_iff.mp hCurrent
  obtain ⟨hPath, hQ⟩ := hEntries c rfl _ (Assoc.mem_of_get? hGet)
  simp only [CacheEntry.isCurrent, Bool.and_eq_true, decide_eq_true_eq] at hIsCurrent
  exact ⟨hPath.symm, hIsCurrent.2.symm, hQ⟩

/-- A record is remembered for content exactly if the cache has an entry of
the path that is current for its fingerprint. -/
theorem remembered?_eq (cache : Option Cache) (path : Path) (bytes : List UInt8) (f : Fingerprint) :
    remembered? cache path (some (bytes, f)) =
      (cache.bind fun c => c.current? path f).map CacheEntry.record := by
  cases cache <;> rfl

/-- A remembered record is that of an entry under the path with the digest
of the content. -/
theorem remembered?_eq_some {Q : CacheEntry → Prop} {cache : Option Cache}
    {content : Option (List UInt8 × Fingerprint)} {r : Record} (hEntries : Entries Q cache)
    (hHit : remembered? cache path content = some r) :
    ∃ e found, content = some found ∧ e.record = r ∧ e.path = path.text ∧
      e.digest = found.2.digest ∧ Q e := by
  cases content with
  | none => cases cache <;> cases hHit
  | some found =>
      rw [remembered?_eq] at hHit
      obtain ⟨e, hCurrent, rfl⟩ := Option.map_eq_some_iff.mp hHit
      exact ⟨e, found, rfl, rfl, hEntries.of_current? hCurrent⟩

/-- Add the record of a file whose content was read, or could not be. -/
def addRead (root : Path) (extensions : List Text) (p : Progress) (path : Path)
    (content : Option (List UInt8 × Fingerprint)) : Action Progress := do
  match remembered? p.cache path content with
  | some r =>
    Action.log .debug .analysis ("Cache hit: " ++ path.text)
    match Resolution.refresh (← get) extensions r with
    | .error e => throw (.system e)
    | .ok r => return { p with records := p.records ++ [r], hits := p.hits + 1 }
  | none =>
    let r ← Extraction.extract path root extensions (content.map Prod.fst)
    let cache := match p.cache, content with
      | some c, some (_, f) => some (c.put path r f)
      | c, _ => c
    return { p with cache := cache, records := p.records ++ [r], misses := p.misses + 1 }

/-- Adding a file is reading it with its fingerprint and then
adding its record. -/
theorem addFile_eq (root : Path) (extensions : List Text) (p : Progress) (path : Path) :
    addFile root extensions p path = readFingerprinted path >>= addRead root extensions p path := rfl

/-- A remembered record is added with its imports looked up again, since
files may have come or gone that they lead to. -/
theorem addRead_hit (root : Path) (extensions : List Text) {p : Progress}
    {content : Option (List UInt8 × Fingerprint)} {r : Record}
    (hHit : remembered? p.cache path content = some r) (w : World) :
    ∃ w', w.Looked w' ∧ (addRead root extensions p path content).on w =
      match Resolution.refresh w extensions r with
      | .error e => (.error (.system e), w')
      | .ok r => (.ok { p with records := p.records ++ [r], hits := p.hits + 1 }, w') := by
  obtain ⟨w', hLog⟩ : ∃ w', (Action.log .debug .analysis ("Cache hit: " ++ path.text)).on w = (.ok (), w') :=
    ⟨_, rfl⟩
  have hLooked := looks_log .debug .analysis ("Cache hit: " ++ path.text) w
  rw [hLog] at hLooked
  refine ⟨w', hLooked, ?_⟩
  rw [addRead, hHit]
  simp only
  rw [on_bind_ok hLog, on_bind_ok (on_get w'), Resolution.refresh_congr hLooked.disk hLooked.here]
  split <;> rfl

/-- If content that is remembered is added, its imports could
be looked up again. -/
theorem addRead_hit_ok {root : Path} {extensions : List Text} {p p' : Progress}
    {content : Option (List UInt8 × Fingerprint)} {r : Record} (hHit : remembered? p.cache path content = some r)
    (hRun : (addRead root extensions p path content).on w = (.ok p', w')) :
    ∃ r', Resolution.refresh w extensions r = .ok r' ∧
      p' = { p with records := p.records ++ [r'], hits := p.hits + 1 } := by
  obtain ⟨v, -, hStep⟩ := addRead_hit root extensions hHit w
  rw [hStep] at hRun
  split at hRun
  · cases hRun
  · next r' hRefresh => exact ⟨r', hRefresh, (Except.ok.inj (Prod.mk.inj hRun).1).symm⟩

/-- The progress after a record was made for content that was read. -/
def Progress.remember (p : Progress) (path : Path) (r : Record) (f : Fingerprint) : Progress :=
  { p with
    cache := p.cache.map fun c => c.put path r f
    records := p.records ++ [r]
    misses := p.misses + 1 }

/-- The cache after a record was made: it is remembered if content was read. -/
def remembering (cache : Option Cache) (path : Path) (r : Record)
    (content : Option (List UInt8 × Fingerprint)) : Option Cache :=
  match cache, content with
  | some c, some (_, f) => some (c.put path r f)
  | c, _ => c

/-- What is not remembered is extracted, and the new record is remembered
for the content that was read. -/
theorem addRead_missed (root : Path) (extensions : List Text) {p : Progress}
    {content : Option (List UInt8 × Fingerprint)} (hMiss : remembered? p.cache path content = none) :
    addRead root extensions p path content =
      Extraction.extract path root extensions (content.map Prod.fst) >>= fun r => pure { p with
        cache := remembering p.cache path r content
        records := p.records ++ [r]
        misses := p.misses + 1 } := by
  rw [addRead, hMiss]
  rfl

/-- Of content that is not remembered the record is made,
and remembered then. -/
theorem addRead_miss (root : Path) (extensions : List Text) {p : Progress} {f : Fingerprint}
    (hMiss : remembered? p.cache path (some (bytes, f)) = none) (w : World) :
    ∃ w', w.Looked w' ∧ (addRead root extensions p path (some (bytes, f))).on w =
      match Extraction.record w path root extensions bytes with
      | .error e => (.error (.system e), w')
      | .ok r => (.ok (p.remember path r f), w') := by
  rw [addRead_missed root extensions hMiss, Option.map_some, Extraction.extract_some]
  rcases hRecord : Extraction.record w path root extensions bytes with e | r
  · exact ⟨w, .refl w, on_bind_error (Extraction.fromContent_error hRecord) _⟩
  · obtain ⟨w', hLooked, hRun⟩ := Extraction.fromContent_ok hRecord
    refine ⟨w', hLooked, ?_⟩
    rw [on_bind_ok hRun]
    cases hCache : p.cache <;> simp only [on_pure, Progress.remember, remembering, hCache, Option.map]

/-- If content that is not remembered is added, its record could be made,
and it is remembered with its fingerprint. -/
theorem addRead_miss_ok {root : Path} {extensions : List Text} {p p' : Progress} {f : Fingerprint}
    (hMiss : remembered? p.cache path (some (bytes, f)) = none)
    (hRun : (addRead root extensions p path (some (bytes, f))).on w = (.ok p', w')) :
    ∃ r, Extraction.record w path root extensions bytes = .ok r ∧ p' = p.remember path r f := by
  obtain ⟨v, -, hStep⟩ := addRead_miss root extensions hMiss w
  rw [hStep] at hRun
  split at hRun
  · cases hRun
  · next r hRecord => exact ⟨r, hRecord, (Except.ok.inj (Prod.mk.inj hRun).1).symm⟩

theorem looks_addRead (root : Path) (extensions : List Text) (p : Progress) (path : Path)
    (content : Option (List UInt8 × Fingerprint)) : Looks (addRead root extensions p path content) := by
  rw [addRead]
  split
  · refine (looks_log _ _ _).bind fun _ => looks_get.bind fun w => ?_
    split
    · exact looks_throw _
    · exact looks_pure _
  · exact (Extraction.looks_extract _ _ _ _).bind fun r => looks_pure _

/-- Adding the record of a file leaves the disk as it was, whether the
record was remembered or is made. -/
theorem looks_addFile (root : Path) (extensions : List Text) (p : Progress) (path : Path) :
    Looks (addFile root extensions p path) :=
  (looks_readFingerprinted path).bind fun content => looks_addRead root extensions p path content

/-- The record of the file that a path leads to. -/
def recordNow (w : World) (root : Path) (extensions : List Text) (path : Path) :
    Except SystemError Record :=
  Extraction.record w path root extensions ((w.content? path).getD [])

/-- The record of a file as it is now depends on the disk and on where the
run stands only. -/
theorem recordNow_congr (hDisk : w'.disk = w.disk) (hHere : w'.here = w.here) (root : Path)
    (extensions : List Text) : recordNow w' root extensions = recordNow w root extensions := by
  funext path
  rw [recordNow, recordNow, World.content?_congr hDisk hHere, Extraction.record_congr hDisk hHere]

/-- Whether a trusted entry stands in for it or not, the record of a file is
the one made now. -/
theorem addFile_unlocked (extensions : List Text) (hUnlocked : w.Unlocked) (hNamed : path.Named)
    (hContent : w.content? path = some bytes) {p : Progress}
    (hEntries : Entries (Trusted w root) p.cache) :
    match recordNow w root extensions path with
    | .error e => ∃ w', (addFile root extensions p path).on w = (.error (.system e), w')
    | .ok r => ∃ p' w', (addFile root extensions p path).on w = (.ok p', w') ∧ w.Looked w' ∧
        p'.records = p.records ++ [r] ∧ Entries (Trusted w root) p'.cache := by
  obtain ⟨place, mtime, hLocate⟩ := World.content?_eq_some_iff.mp hContent
  have hRead := readFingerprinted_open (hUnlocked _) hLocate
  rw [addFile_eq, on_bind_ok hRead, recordNow, hContent, Option.getD_some]
  rcases hHit : remembered? p.cache path (some (bytes, .ofBytes bytes mtime)) with _ | r
  · obtain ⟨w', hLooked, hRun⟩ := addRead_miss root extensions hHit w
    rw [hRun]
    split
    · exact ⟨w', rfl⟩
    · next r hRecord =>
      refine ⟨_, w', rfl, hLooked, rfl, ?_⟩
      cases hCache : p.cache with
      | none =>
          rw [Progress.remember, hCache]
          exact entries_none _
      | some c =>
          rw [Progress.remember, hCache]
          rw [hCache] at hEntries
          have hMade : Made w root ⟨path.text, _, mtime, r⟩ :=
            ⟨hNamed, rfl, hContent, rfl, hRecord⟩
          exact hEntries.put hMade.trusted_now
  · obtain ⟨e, found, hFound, rfl, hPath, hDigest, hTrusted⟩ := remembered?_eq_some hEntries hHit
    obtain rfl := Option.some.inj hFound
    obtain ⟨w', hLooked, hRun⟩ := addRead_hit root extensions hHit w
    rw [hRun, hTrusted path bytes hNamed hPath hContent hDigest extensions]
    split
    · exact ⟨w', rfl⟩
    · exact ⟨_, w', rfl, hLooked, rfl, hEntries⟩

/-- Where nothing is locked and all entries are trusted, an analysis gets
the records that are made now, with a cache or without. -/
theorem addFiles_unlocked (extensions : List Text) (hUnlocked : w.Unlocked) {files : List Path}
    (hFiles : ∀ path ∈ files, path.Named ∧ ∃ bytes, w.content? path = some bytes) {p : Progress}
    (hEntries : Entries (Trusted w root) p.cache) {v : World} (hLooked : w.Looked v) :
    match files.mapM (recordNow w root extensions) with
    | .error e => ∃ v', (files.foldlM (addFile root extensions) p).on v = (.error (.system e), v')
    | .ok rs => ∃ p' v', (files.foldlM (addFile root extensions) p).on v = (.ok p', v') ∧
        w.Looked v' ∧ p'.records = p.records ++ rs := by
  induction files generalizing p v with
  | nil => exact ⟨p, v, rfl, hLooked, by simp⟩
  | cons path files ih =>
      obtain ⟨hNamed, bytes, hContent⟩ := hFiles path (List.mem_cons_self ..)
      have hStep := addFile_unlocked extensions (hLooked.unlocked hUnlocked) hNamed
        ((World.content?_congr hLooked.disk hLooked.here path).trans hContent)
        (hEntries.mono fun e hTrusted => hTrusted.congr hLooked.disk hLooked.here)
      rw [recordNow_congr hLooked.disk hLooked.here] at hStep
      rw [List.mapM_cons, List.foldlM_cons]
      rcases hRecord : recordNow w root extensions path with e | r
      · rw [hRecord] at hStep
        obtain ⟨v', hRun⟩ := hStep
        exact ⟨v', on_bind_error hRun _⟩
      · rw [hRecord] at hStep
        obtain ⟨p', v', hRun, hLooked', hRecords, hEntries'⟩ := hStep
        have hRest := ih (fun path hPath => hFiles path (List.mem_cons_of_mem _ hPath))
          (hEntries'.mono fun e hTrusted => hTrusted.congr hLooked.disk.symm hLooked.here.symm)
          (hLooked.trans hLooked')
        rw [on_bind_ok hRun]
        rcases hRecords' : files.mapM (recordNow w root extensions) with e | rs
        · rw [hRecords'] at hRest
          exact hRest
        · rw [hRecords'] at hRest
          obtain ⟨p'', v'', hRun', hLooked'', hAll⟩ := hRest
          refine ⟨p'', v'', hRun', hLooked'', ?_⟩
          rw [hAll, hRecords, List.append_assoc]
          rfl

/-- The record that an extraction gives of a file, whatever was read of it:
it names the file, and says of a failure exactly if the file was not read,
is no UTF-8 or is not parsed. A file that is not locked is read. -/
structure Extracted (w : World) (root path : Path) (r : Record) : Prop where
  file : r.path = path.text
  relative : r.relativePath = path.relativeText root
  failure : ∃ content, (r.failure.isSome = true ↔ Extraction.Fails path content) ∧
    (∀ bytes, content = .ok bytes → w.content? path = some bytes) ∧
    (w.OpenAt (w.here.join path).text → ∃ bytes, content = .ok bytes)

/-- What was extracted in a world that had come to look the same was
extracted from the files as they are here. -/
theorem Extracted.congr {r : Record} (hExtracted : Extracted w' root path r) (hLooked : w.Looked w') :
    Extracted w root path r := by
  obtain ⟨content, hFailure, hContent, hOpen⟩ := hExtracted.failure
  rw [World.content?_congr hLooked.disk hLooked.here] at hContent
  rw [hLooked.here] at hOpen
  exact ⟨hExtracted.file, hExtracted.relative, content, hFailure, hContent,
    fun hUnlocked => hOpen (hLooked.locks _ hUnlocked)⟩

/-- The record that is made of the content of a file is extracted from it. -/
theorem extracted_of_record {r : Record} (hContent : w.content? path = some bytes)
    (hRecord : Extraction.record w path root extensions bytes = .ok r) : Extracted w root path r := by
  obtain ⟨hPath, hRelative, hFailure⟩ := Extraction.record_eq_ok hRecord
  refine ⟨hPath, hRelative, .ok bytes, ?_, fun bytes' hSame => ?_, fun _ => ⟨bytes, rfl⟩⟩
  · rw [hFailure, Extraction.read_outline_error_iff]
    simp [Extraction.Fails]
  · rw [← Except.ok.inj hSame, hContent]

/-- The record of a file that could not be read says so, and
the file was locked. -/
theorem extracted_of_refusal (hLocked : ¬ w.OpenAt (w.here.join path).text) (root : Path) (e : SystemError) :
    Extracted w root path (Extraction.failed path root 0 (.unreadable e.errno)) := by
  refine ⟨rfl, rfl, .error e, ?_, nofun, fun hOpen => absurd hOpen hLocked⟩
  simp [Extraction.failed, Extraction.Fails]

/-- Without a cache a file is added whether it can be read or not, unless
its imports are blocked. -/
theorem addFile_uncached (hContent : w.content? path = some bytes)
    (hClear : ¬ Extraction.Stops w path extensions bytes) {p : Progress} (hCache : p.cache = none)
    (root : Path) :
    ∃ r w', (addFile root extensions p path).on w =
        (.ok { p with records := p.records ++ [r], misses := p.misses + 1 }, w') ∧
      Extracted w root path r := by
  obtain ⟨r, hRecord⟩ : ∃ r, Extraction.record w path root extensions bytes = .ok r := by
    rcases hRecord : Extraction.record w path root extensions bytes with e | r
    · exact absurd (Extraction.record_eq_error_iff.mp ⟨e, hRecord⟩) hClear
    · exact ⟨r, rfl⟩
  obtain ⟨content, w₁, hRead⟩ := readFingerprinted_located hContent
  have hLooked := looks_readFingerprinted path w
  rw [hRead] at hLooked
  have hGiven := gives_readFingerprinted w path w content w₁ rfl rfl hRead
  have hRecord₁ := (Extraction.record_congr hLooked.disk hLooked.here _ _ _ _).trans hRecord
  rw [addFile_eq, on_bind_ok hRead]
  cases content with
  | some found =>
      obtain rfl : bytes = found.1 := Option.some.inj (hContent.symm.trans (hGiven found rfl).1)
      have hMiss : remembered? p.cache path (some (found.1, found.2)) = none := by
        rw [hCache]
        rfl
      obtain ⟨w', -, hRun⟩ := addRead_miss root extensions hMiss w₁
      simp only [hRecord₁, Progress.remember, hCache, Option.map_none] at hRun
      refine ⟨r, w', ?_, extracted_of_record hContent hRecord⟩
      rw [hRun, hCache]
  | none =>
      have hLocked : ¬ w.OpenAt (w.here.join path).text := by
        intro hOpen
        obtain ⟨place, mtime, hLocate⟩ := World.content?_eq_some_iff.mp hContent
        rw [readFingerprinted_open hOpen hLocate] at hRead
        cases hRead
      have hContent₁ := (World.content?_congr hLooked.disk hLooked.here path).trans hContent
      obtain ⟨r', w', hExtract, hExtracted⟩ : ∃ r' w',
          (Extraction.extract path root extensions none).on w₁ = (.ok r', w') ∧ Extracted w root path r' := by
        rw [Extraction.extract_none]
        rcases readBytes_located hContent₁ with hBytes | ⟨e, w₂, hBytes⟩
        · obtain ⟨w', -, hRun⟩ := Extraction.fromContent_ok hRecord₁
          refine ⟨r, w', ?_, extracted_of_record hContent hRecord⟩
          rw [on_bind_ok (by rw [on_attempt, hBytes]), hRun]
        · obtain ⟨w', -, hRun⟩ := Extraction.fromContent_refused path root extensions e w₂
          refine ⟨_, w', ?_, extracted_of_refusal hLocked root e⟩
          rw [on_bind_ok (by rw [on_attempt, hBytes]), hRun]
      refine ⟨r', w', ?_, hExtracted⟩
      rw [addRead, hCache]
      exact on_bind_ok hExtract _

/-- Without a cache every file gets a record of its own, unless its imports
are blocked. -/
theorem addFiles_uncached {files : List Path}
    (hFiles : ∀ path ∈ files, ∃ bytes, w.content? path = some bytes ∧
      ¬ Extraction.Stops w path extensions bytes)
    {p : Progress} (hCache : p.cache = none) (root : Path) {v : World} (hLooked : w.Looked v) :
    ∃ rs v', (files.foldlM (addFile root extensions) p).on v =
        (.ok { p with records := p.records ++ rs, misses := p.misses + files.length }, v') ∧
      List.Forall₂ (Extracted w root) files rs := by
  induction files generalizing p v with
  | nil => exact ⟨[], v, by simp [on_pure], .nil⟩
  | cons path files ih =>
      obtain ⟨bytes, hContent, hClear⟩ := hFiles path (List.mem_cons_self ..)
      rw [← World.content?_congr hLooked.disk hLooked.here] at hContent
      rw [← Extraction.Stops.congr hLooked.disk hLooked.here] at hClear
      obtain ⟨r, v', hRun, hExtracted⟩ := addFile_uncached hContent hClear hCache root
      have hLooked' := looks_addFile root extensions p path v
      rw [hRun] at hLooked'
      obtain ⟨rs, v'', hRest, hAll⟩ := ih (fun path hPath => hFiles path (List.mem_cons_of_mem _ hPath))
        (p := { p with records := p.records ++ [r], misses := p.misses + 1 }) hCache
        (hLooked.trans hLooked')
      refine ⟨r :: rs, v'', ?_, .cons (hExtracted.congr hLooked) hAll⟩
      rw [List.foldlM_cons, on_bind_ok hRun, hRest]
      simp only [List.append_assoc, List.singleton_append, List.length_cons]
      rw [Nat.add_right_comm, Nat.add_assoc]

/-- The record of a file is made for the root of the analysis, or it is that
of an entry of the file. Only its imports may be new then. -/
inductive Filed (Q : CacheEntry → Prop) (root path : Path) (r : Record) : Prop where
  | made (hPath : r.path = path.text) (hRelative : r.relativePath = path.relativeText root)
  | remembered {e : CacheEntry} (hEntry : Q e) (hKey : e.path = path.text)
      (hPath : r.path = e.record.path) (hRelative : r.relativePath = e.record.relativePath)

/-- An entry of the path gives a record of the file once its imports are
looked up again. -/
theorem filed_of_refresh {Q : CacheEntry → Prop} {e : CacheEntry} {r : Record} (hEntry : Q e)
    (hKey : e.path = path.text) (hRefresh : Resolution.refresh w extensions e.record = .ok r) :
    Filed Q root path r := by
  rw [Resolution.refresh] at hRefresh
  split at hRefresh
  · cases hRefresh
  · obtain rfl := Except.ok.inj hRefresh
    exact .remembered hEntry hKey rfl rfl

/-- What adding files does to the progress: one record for each file, and
the entries keep a property that new ones have. -/
structure Added (Q : CacheEntry → Prop) (root : Path) (files : List Path) (p p' : Progress) : Prop where
  cache : p'.cache.map (fun c => (c.file, c.version)) = p.cache.map fun c => (c.file, c.version)
  entries : Entries Q p'.cache
  records : ∃ rs, p'.records = p.records ++ rs ∧ List.Forall₂ (Filed Q root) files rs

/-- The records of some files, added after those of others, are
those of all in order. -/
theorem Added.append {Q : CacheEntry → Prop} {xs ys : List Path} {p p' p'' : Progress}
    (hFirst : Added Q root xs p p') (hSecond : Added Q root ys p' p'') :
    Added Q root (xs ++ ys) p p'' where
  cache := hSecond.cache.trans hFirst.cache
  entries := hSecond.entries
  records := by
    obtain ⟨rs, hRecords, hFiled⟩ := hFirst.records
    obtain ⟨rs', hRecords', hFiled'⟩ := hSecond.records
    refine ⟨rs ++ rs', ?_, List.rel_append hFiled hFiled'⟩
    rw [hRecords', hRecords, List.append_assoc]

variable {Q : CacheEntry → Prop}

/-- Adding a file adds one record, which is that of an entry or is made of
what was read. -/
theorem gives_addFile (hFresh : ∀ e, Fresh w root extensions path e → Q e) {p : Progress}
    (hEntries : Entries Q p.cache) :
    Gives w.disk w.here (addFile root extensions p path) (Added Q root [path] p) := by
  rw [addFile_eq]
  refine (gives_readFingerprinted_file w path).bind (looks_readFingerprinted path) fun content hContent => ?_
  rw [addRead]
  split
  · next r hHit =>
    obtain ⟨e, found, -, rfl, hKey, -, hEntry⟩ := remembered?_eq_some hEntries hHit
    refine (gives_true _).bind (looks_log _ _ _) fun _ _ => ?_
    refine (gives_true _).bind looks_get fun v _ => ?_
    split
    · exact gives_throw _
    · next r' hRefresh =>
      have hFiled : Filed Q root path r' := filed_of_refresh hEntry hKey hRefresh
      exact gives_pure ⟨rfl, hEntries, [r'], rfl, .cons hFiled .nil⟩
  · refine (Extraction.gives_extract w path root extensions _).bind (Extraction.looks_extract _ _ _ _)
      fun r hr => gives_pure ?_
    have hFiled : Filed Q root path r := .made hr.1 hr.2.1
    rcases hCache : p.cache with _ | c
    · exact ⟨by rw [hCache], by simpa [hCache] using hEntries, [r], rfl, .cons hFiled .nil⟩
    · rcases content with _ | ⟨bytes, f⟩
      · exact ⟨by rw [hCache], by simpa [hCache] using hEntries, [r], rfl, .cons hFiled .nil⟩
      · rw [hCache] at hEntries
        obtain ⟨place, mtime, hLocate, hPrint⟩ := hContent _ rfl
        obtain rfl : f = .ofBytes bytes mtime := hPrint
        have hNew : Fresh w root extensions path ⟨path.text, Digest.Sha256.hex bytes, mtime, r⟩ :=
          ⟨place, bytes, mtime, r, hLocate, hr.2.2 bytes rfl, rfl⟩
        exact ⟨by rw [hCache]; rfl, hEntries.put (hFresh _ hNew), [r], rfl, .cons hFiled .nil⟩

/-- An analysis gets one record for each file, in the order of the files. -/
theorem gives_addFiles {files : List Path}
    (hFresh : ∀ path ∈ files, ∀ e, Fresh w root extensions path e → Q e) {p : Progress} (hEntries : Entries Q p.cache) :
    Gives w.disk w.here (files.foldlM (addFile root extensions) p) (Added Q root files p) := by
  induction files generalizing p with
  | nil => exact gives_pure ⟨rfl, hEntries, [], by simp, .nil⟩
  | cons path files ih =>
      rw [List.foldlM_cons]
      refine (gives_addFile (hFresh path (List.mem_cons_self ..)) hEntries).bind
        (looks_addFile _ _ _ _) fun p' hStep => ?_
      refine (ih (fun q hq => hFresh q (List.mem_cons_of_mem _ hq)) hStep.entries).mono fun p'' hRest => ?_
      exact hStep.append hRest

/-- The entry of a cache that stands in for a file as it is now. -/
def current? (w : World) (cache : Option Cache) (path : Path) : Option CacheEntry :=
  match w.disk.locate true (w.here.join path) with
  | .ok (.found _ (.file bytes mtime)) => cache.bind fun c => c.current? path (.ofBytes bytes mtime)
  | _ => none

/-- Which record a cache has for a file as it is now depends on the disk, on
where the run stands, and on the entries of that path. -/
theorem current?_congr {cache cache' : Option Cache} (hDisk : w'.disk = w.disk) (hHere : w'.here = w.here)
    (hSame : ∀ f, (cache'.bind fun c => c.current? path f) = cache.bind fun c => c.current? path f) :
    current? w' cache' path = current? w cache path := by
  rw [current?, current?, hDisk, hHere]
  split
  · exact hSame _
  · rfl

/-- The record of a file is that of the entry that stands in for it, or it
is made for the root. -/
def Chosen (w : World) (cache : Option Cache) (root path : Path) (r : Record) : Prop :=
  match current? w cache path with
  | some e => r.path = e.record.path ∧ r.relativePath = e.record.relativePath
  | none => r.path = path.text ∧ r.relativePath = path.relativeText root

/-- Remembering a record leaves the entries of all other files alone. So
what is found for later files does not depend on earlier ones. -/
theorem current?_remember {p : Progress} {other : Path} (hOther : other.text ≠ path.text) (r : Record)
    (f g : Fingerprint) : ((p.remember path r f).cache.bind fun c => c.current? other g) =
      p.cache.bind fun c => c.current? other g := by
  rw [Progress.remember]
  cases p.cache with
  | none => rfl
  | some c =>
      show (c.put path r f).current? other g = c.current? other g
      rw [Cache.current?, Cache.current?, Cache.put, Assoc.get?_put_of_ne hOther]

/-- Where nothing is locked the entry that stands in for a file decides on
its record. Adding the file leaves the entries of all others alone. -/
theorem addFile_chosen (hUnlocked : w.Unlocked) (hContent : w.content? path = some bytes)
    {p p' : Progress} (hRun : (addFile root extensions p path).on w = (.ok p', w')) :
    (∃ r, p'.records = p.records ++ [r] ∧ Chosen w p.cache root path r) ∧
      ∀ other : Path, other.text ≠ path.text → ∀ f,
        (p'.cache.bind fun c => c.current? other f) = p.cache.bind fun c => c.current? other f := by
  obtain ⟨place, mtime, hLocate⟩ := World.content?_eq_some_iff.mp hContent
  rw [addFile_eq, on_bind_ok (readFingerprinted_open (hUnlocked _) hLocate)] at hRun
  have hRemembered := remembered?_eq p.cache path bytes (.ofBytes bytes mtime)
  have hCurrent : current? w p.cache path =
      p.cache.bind fun c => c.current? path (.ofBytes bytes mtime) := by
    rw [current?, hLocate]
  rcases hEntry : p.cache.bind fun c => c.current? path (.ofBytes bytes mtime) with _ | e <;>
    rw [hEntry] at hRemembered hCurrent
  · obtain ⟨r, hRecord, rfl⟩ := addRead_miss_ok hRemembered hRun
    obtain ⟨hPath, hRelative, -⟩ := Extraction.record_eq_ok hRecord
    refine ⟨⟨r, rfl, ?_⟩, fun other hOther f => current?_remember hOther r _ f⟩
    rw [Chosen, hCurrent]
    exact ⟨hPath, hRelative⟩
  · obtain ⟨r, hRefresh, rfl⟩ := addRead_hit_ok hRemembered hRun
    refine ⟨⟨r, rfl, ?_⟩, fun other _ f => rfl⟩
    rw [Chosen, hCurrent]
    rw [Resolution.refresh] at hRefresh
    split at hRefresh
    · cases hRefresh
    · obtain rfl := Except.ok.inj hRefresh
      exact ⟨rfl, rfl⟩

/-- Where nothing is locked, every record of an analysis is that of the
entry which the cache had for the file at first, or it is made for the root. -/
theorem addFiles_chosen (hUnlocked : w.Unlocked) {files : List Path}
    (hFiles : ∀ path ∈ files, ∃ bytes, w.content? path = some bytes)
    (hNodup : (files.map Path.text).Nodup) {p p' : Progress} {cache : Option Cache}
    (hSame : ∀ path ∈ files, ∀ f,
      (p.cache.bind fun c => c.current? path f) = cache.bind fun c => c.current? path f)
    {v v' : World} (hLooked : w.Looked v)
    (hRun : (files.foldlM (addFile root extensions) p).on v = (.ok p', v')) :
    ∃ rs, p'.records = p.records ++ rs ∧ List.Forall₂ (Chosen w cache root) files rs := by
  induction files generalizing p v with
  | nil =>
      obtain rfl := Except.ok.inj (Prod.mk.inj hRun).1
      exact ⟨[], by simp, .nil⟩
  | cons path files ih =>
      rw [List.map_cons, List.nodup_cons] at hNodup
      rw [List.foldlM_cons] at hRun
      obtain ⟨p₁, v₁, hStep, hRest⟩ := of_on_bind hRun
      obtain ⟨bytes, hContent⟩ := hFiles path (List.mem_cons_self ..)
      obtain ⟨⟨r, hRecord, hChosen⟩, hOthers⟩ := addFile_chosen (hLooked.unlocked hUnlocked)
        ((World.content?_congr hLooked.disk hLooked.here path).trans hContent) hStep
      have hLooked' := looks_addFile root extensions p path v
      rw [hStep] at hLooked'
      obtain ⟨rs, hRecords, hAll⟩ := ih (fun q hq => hFiles q (List.mem_cons_of_mem _ hq)) hNodup.2
        (fun q hq f => (hOthers q (fun hText => hNodup.1 (hText ▸ List.mem_map_of_mem hq)) f).trans
          (hSame q (List.mem_cons_of_mem _ hq) f)) (hLooked.trans hLooked') hRest
      rw [Chosen, current?_congr hLooked.disk hLooked.here (hSame path (List.mem_cons_self ..))] at hChosen
      refine ⟨r :: rs, ?_, .cons hChosen hAll⟩
      rw [hRecords, hRecord, List.append_assoc]
      rfl

end Analysis

end SourceAtlas
