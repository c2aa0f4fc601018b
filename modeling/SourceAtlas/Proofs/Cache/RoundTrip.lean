import SourceAtlas.Proofs.Cache.Store

/-!
A cache that was saved is loaded as it was. The bytes hold the document with its entries in order
of their paths, the path of the file leads to these bytes, and loading takes them back. This needs
a path that does not go through the link that saving replaces.
-/
namespace SourceAtlas

namespace Disk

/-- The path does not go through a link at its own end: without that link it
leads to the same place. -/
def Straight (d : Disk) (p : Path) : Prop := ∀ place target,
  d.locate false p = .ok (.found place (.link target)) → (d.erase place).locate false p = .ok (.absent place)

variable {d d' : Disk} {p : Path} {arrival : Arrival} {place : Place} {bytes : List UInt8} {mtime : Int}

/-- A path leads where it led on a disk that agrees, if what is at its end
agrees too. -/
theorem locate_of_agrees {followLast : Bool} (hLocate : d.locate followLast p = .ok arrival)
    (hAgrees : Agrees d d') (hEnd : arrival.AtEnd d') : d'.locate followLast p = .ok arrival := by
  obtain ⟨hNul, hSize, hLeads⟩ := locate_eq_ok_iff.mp hLocate
  exact locate_eq_ok_iff.mpr ⟨hNul, hSize, hLeads.of_agrees hAgrees hEnd⟩

/-- A path leads to the file that stands where the path led to. -/
theorem locate_to_file (hLocate : d.locate false p = .ok arrival) (hAgrees : Agrees d d')
    (hThere : d'.find? arrival.place = some (.file bytes mtime)) :
    d'.locate true p = .ok (.found arrival.place (.file bytes mtime)) := by
  obtain ⟨hNul, hSize, hLeads⟩ := locate_eq_ok_iff.mp hLocate
  exact locate_eq_ok_iff.mpr ⟨hNul, hSize, hLeads.to_file hAgrees hThere⟩

/-- Without a file that was put at a free place, all directories and links
are still there. -/
theorem agrees_of_put (hPlace : place ≠ []) : Agrees (d.put place (.file bytes mtime)) d := by
  intro q i hFind hNoFile
  have hOther : q ≠ place := by
    rintro rfl
    rw [find?_put_self hPlace] at hFind
    exact hNoFile _ _ (Option.some.inj hFind).symm
  rwa [find?_put_of_ne hOther] at hFind

/-- A new file makes no path crooked, for a path goes through directories
and links only. -/
theorem Straight.put (hStraight : d.Straight p) (hFree : d.find? place = none) (hPlace : place ≠ []) :
    (d.put place (.file bytes mtime)).Straight p := by
  intro q target hLocate
  have hAgrees : Agrees (d.put place (.file bytes mtime)) d := agrees_of_put hPlace
  have hLink := hAgrees _ _ (find?_of_locate hLocate) (by simp)
  have hBefore := hStraight q target (locate_of_agrees hLocate hAgrees hLink)
  have hEnd := free_of_locate hBefore
  refine locate_of_agrees hBefore (fun r i hFind _ => ?_) ⟨?_, hEnd.2⟩
  · rw [find?_erase hEnd.2] at hFind ⊢
    split at hFind
    · cases hFind
    · next hOther =>
      rw [if_neg hOther]
      exact extends_put hFree _ _ _ hFind
  · rw [find?_erase hEnd.2, if_pos rfl]

/-- A file is found at the end of a straight path where it was put, whatever
stood there before. -/
theorem locate_put_file (hStraight : d.Straight p) (hLocate : d.locate false p = .ok arrival)
    (hDirectory : ∀ q, arrival ≠ .found q .directory)
    (hThere : d'.find? arrival.place = some (.file bytes mtime))
    (hElse : ∀ q i, q ≠ arrival.place → d.find? q = some i → (∀ content time, i ≠ .file content time) →
      d'.find? q = some i) :
    d'.locate true p = .ok (.found arrival.place (.file bytes mtime)) := by
  have hAgrees (hFile : ∀ i, d.find? arrival.place = some i → ∃ content time, i = .file content time) :
      Agrees d d' := by
    intro q i hFind hNoFile
    refine hElse q i (fun hEnd => ?_) hFind hNoFile
    obtain ⟨content, time, hEq⟩ := hFile i (hEnd ▸ hFind)
    exact hNoFile content time hEq
  rcases arrival with ⟨q, content | _ | target⟩ | q
  · have hFind := find?_of_locate hLocate
    exact locate_to_file hLocate (hAgrees (by simp [Arrival.place, hFind])) hThere
  · exact absurd rfl (hDirectory q)
  · have hFree := hStraight q target hLocate
    have hErased : Agrees (d.erase q) d' := by
      intro r i hFind hNoFile
      rw [find?_erase (free_of_locate hFree).2] at hFind
      split at hFind
      · cases hFind
      · next hOther => exact hElse r i hOther hFind hNoFile
    have hFound := locate_to_file hFree hErased hThere
    exact hFound
  · have hFind := (free_of_locate hLocate).1
    exact locate_to_file hLocate (hAgrees (by simp [Arrival.place, hFind])) hThere

/-- A file that was made at a free place and is moved to the end of a
straight path is found there. -/
theorem locate_moved (hStraight : d.Straight p) (hFree : d.find? place = none) (hPlace : place ≠ [])
    (hLocate : (d.put place (.file bytes mtime)).locate false p = .ok arrival)
    (hNoDirectory : ∀ q, arrival ≠ .found q .directory) :
    (d.put arrival.place (.file bytes mtime)).locate true p = .ok (.found arrival.place (.file bytes mtime)) := by
  have hThere := find?_put_self (place_ne_nil hLocate hNoDirectory) d (.file bytes mtime)
  refine locate_put_file (hStraight.put hFree hPlace) hLocate hNoDirectory hThere
    fun q i hOther hFind hNoFile => ?_
  rw [find?_put_of_ne hOther]
  exact agrees_of_put hPlace q i hFind hNoFile

end Disk

namespace Cache

open SourceAtlas.Action

/-- A file is replaced in steps: a free name is taken, the file is made
under it and moved to the end of its path. -/
theorem writeReplacing_on_ok {file : Path} {bytes : List UInt8} {w w₁ w' : World} {made : Unit}
    (hMake : (makeDirectories file.parent).on w = (.ok made, w₁))
    (hWrite : (writeReplacing file bytes).on w = (.ok (), w')) :
    ∃ temporary spot arrival, (temporaryPath file).on w₁ = (.ok temporary, w₁) ∧
      w₁.disk.locate false (w₁.here.join temporary) = .ok (.absent spot) ∧
      (w₁.disk.put spot (.file bytes writtenTime)).locate false (w₁.here.join file) = .ok arrival ∧
      (∀ q, arrival ≠ .found q .directory) ∧
      w' = { w₁ with disk := w₁.disk.put arrival.place (.file bytes writtenTime) } := by
  have hEnds := writeReplacing_replacing file bytes w
  rw [hWrite] at hEnds
  cases hEnds with
  | moved hMade hTemporary hFree hTarget hNoDirectory =>
      obtain ⟨-, rfl⟩ := Prod.mk.inj (hMake.symm.trans hMade)
      exact ⟨_, _, _, hTemporary, hFree, hTarget, hNoDirectory, rfl⟩

/-- A file that was replaced is found at the end of its path, if the path is
straight once its directories are made. -/
theorem writeReplacing_located {file : Path} {bytes : List UInt8} {w w₁ w' : World} {made : Unit}
    (hMake : (makeDirectories file.parent).on w = (.ok made, w₁))
    (hStraight : w₁.disk.Straight (w₁.here.join file))
    (hWrite : (writeReplacing file bytes).on w = (.ok (), w')) :
    ∃ place, w'.disk.locate true (w'.here.join file) = .ok (.found place (.file bytes writtenTime)) := by
  obtain ⟨temporary, spot, arrival, -, hLocate, hArrival, hNoDirectory, rfl⟩ := writeReplacing_on_ok hMake hWrite
  obtain ⟨hFree, hSpot⟩ := Disk.free_of_locate hLocate
  exact ⟨arrival.place, Disk.locate_moved hStraight hFree hSpot hArrival hNoDirectory⟩

/-- A cache is saved in steps: the time is read, the document is written and
the file replaced. -/
theorem save_on_ok {c c' : Cache} {w w' : World} (hSave : c.save.on w = (.ok c', w')) :
    ∃ time text u u', now.on w = (.ok time, u) ∧ Json.document (c.toDocument time).toDatum = .ok text ∧
      (writeReplacing c.file (Text.Utf8.encodeChars text)).on u = (.ok (), u') ∧ u'.Looked w' ∧
      c' = { c with createdAt := some (c.toDocument time).createdAt } := by
  obtain ⟨time, u, hTime, hRest⟩ := of_on_bind hSave
  simp only at hRest
  split at hRest
  · cases hRest
  · next text hText =>
    obtain ⟨_, u', hWrite, hLog⟩ := of_on_bind hRest
    obtain ⟨_, v, hLogged, hResult⟩ := of_on_bind hLog
    have hLooked := (looks_log _ _ _).run hLogged
    obtain ⟨hCache, rfl⟩ := Prod.mk.inj hResult
    exact ⟨time, text, u, u', hTime, hText, hWrite, hLooked, (Except.ok.inj hCache).symm⟩

/-- The world in which the file of a cache is written: the time was read and
its directories are made. -/
def prepared (c : Cache) (w : World) : World := ((makeDirectories c.file.parent).on (now.on w).2).2

/-- Saving writes the document of the cache to the end of its path, and
leaves the cache as it was but for the time of its creation. -/
theorem save_located {c c' : Cache} {w w' : World} (hSave : c.save.on w = (.ok c', w'))
    (hStraight : (c.prepared w).disk.Straight ((c.prepared w).here.join c.file)) :
    ∃ time text place, Json.document (c.toDocument time).toDatum = .ok text ∧
      w'.disk.locate true (w'.here.join c.file) =
        .ok (.found place (.file (Text.Utf8.encodeChars text) writtenTime)) ∧
      c' = { c with createdAt := some (c.toDocument time).createdAt } := by
  obtain ⟨time, text, w₁, w₂, hTime, hText, hWrite, hLooked, hSaved⟩ := save_on_ok hSave
  obtain ⟨made, w₃, hMake, -⟩ := of_on_bind hWrite
  have hPrepared : c.prepared w = w₃ := by rw [prepared, hTime, hMake]
  rw [hPrepared] at hStraight
  obtain ⟨place, hLocate⟩ := writeReplacing_located hMake hStraight hWrite
  refine ⟨time, text, place, hText, ?_, hSaved⟩
  rw [hLooked.disk, hLooked.here, hLocate]

/-- Loading a file that can be opened goes by its bytes alone: they are
usable, outdated or corrupt. -/
theorem load_on_file {c : Cache} {w : World} (hOpen : w.OpenAt (w.here.join c.file).text) {place : Place}
    {bytes : List UInt8} {mtime : Int}
    (hLocate : w.disk.locate true (w.here.join c.file) = .ok (.found place (.file bytes mtime))) :
    ∃ w', c.load.on w = (.ok (match c.readBytes bytes with
      | .usable doc => (c.ofDocument doc, true)
      | .outdated _ => (c.forgotten, false)
      | .corrupt message => ({ c.forgotten with problem := some message }, false)), w') := by
  have hPresent : (isFile c.forgotten.file).on w = (.ok true, w) := by
    rw [isFile, ask_on, Disk.isFile, Disk.test]
    rw [show w.here.join c.forgotten.file = w.here.join c.file from rfl, Disk.entry_eq_ok_iff.mpr hLocate]
  have hRead : c.forgotten.readFile.on w = (.ok (c.readBytes bytes), w) := by
    have hBytes : (Action.readBytes c.file).on w = (.ok bytes, w) := readBytes_open hOpen hLocate
    have hAttempt : (attempt (Action.readBytes c.forgotten.file)).on w = (.ok (.ok bytes), w) := by
      rw [on_attempt, show c.forgotten.file = c.file from rfl, hBytes]
    rw [readFile, on_bind_ok hAttempt]
    rfl
  rw [load, on_bind_ok hPresent]
  simp only [Bool.not_true, Bool.false_eq_true, if_false]
  rw [on_bind_ok hRead]
  rcases c.readBytes bytes with doc | message | message
  · exact ⟨_, rfl⟩
  · exact ⟨_, rfl⟩
  · exact ⟨_, rfl⟩

/-- Without a file to load, loading gives the cache without entries. -/
theorem load_on_absent {c : Cache} {w : World} (hTest : w.disk.isFile (w.here.join c.file) = .ok false) :
    ∃ w', c.load.on w = (.ok (c.forgotten, false), w') := by
  have hAsk : (isFile c.forgotten.file).on w = (.ok false, w) := by
    rw [isFile, ask_on, show w.disk.isFile (w.here.join c.forgotten.file) = .ok false from hTest]
  exact ⟨_, by rw [load, on_bind_ok hAsk]; rfl⟩

/-- If even asking for the file is refused, loading fails with that. -/
theorem load_on_error {c : Cache} {w : World} {e : Errno} (hTest : w.disk.isFile (w.here.join c.file) = .error e) :
    c.load.on w = (.error (.system ⟨e, c.file.text, none⟩), w) := by
  have hAsk : (isFile c.forgotten.file).on w = (.error (.system ⟨e, c.file.text, none⟩), w) := by
    rw [isFile, ask_on, show w.disk.isFile (w.here.join c.forgotten.file) = .error e from hTest]
    rfl
  rw [load, on_bind_error hAsk]

/-- A file that is locked counts as one that holds no document: the cache is
empty and says that it could not be read. -/
theorem load_on_locked {c : Cache} {w : World} (hTest : w.disk.isFile (w.here.join c.file) = .ok true)
    (hLocked : ¬ w.OpenAt (w.here.join c.file).text) :
    ∃ message w', c.load.on w = (.ok ({ c.forgotten with problem := some message }, false), w') := by
  have hPresent : (isFile c.forgotten.file).on w = (.ok true, w) := by
    rw [isFile, ask_on, show w.disk.isFile (w.here.join c.forgotten.file) = .ok true from hTest]
  obtain ⟨w', hRefused⟩ := readBytes_locked (p := c.forgotten.file) hLocked
  have hAttempt : (attempt (Action.readBytes c.forgotten.file)).on w =
      (.ok (.error ⟨.permission, c.forgotten.file.text, none⟩), w') := by
    rw [on_attempt, hRefused]
  rw [load, on_bind_ok hPresent]
  simp only [Bool.not_true, Bool.false_eq_true, if_false]
  rw [readFile, on_bind_ok (on_bind_ok hAttempt _)]
  exact ⟨_, _, rfl⟩

/-- A cache is loaded, be it empty, if its path can be asked about. -/
theorem load_answers {c : Cache} {w : World}
    (hShort : w.disk.locate true (w.here.join c.file) ≠ .error (.errno .nameTooLong)) :
    ∃ loaded w', c.load.on w = (.ok loaded, w') := by
  obtain ⟨b, hTest⟩ : ∃ b, w.disk.isFile (w.here.join c.file) = .ok b := Disk.exists_test hShort true _
  cases b with
  | true =>
      obtain ⟨place, bytes, mtime, hLocate⟩ := Disk.found_of_isFile hTest
      by_cases hOpen : w.OpenAt (w.here.join c.file).text
      · obtain ⟨w', hLoad⟩ := load_on_file hOpen hLocate
        exact ⟨_, w', hLoad⟩
      · obtain ⟨message, w', hLoad⟩ := load_on_locked hTest hOpen
        exact ⟨_, w', hLoad⟩
  | false =>
      obtain ⟨w', hLoad⟩ := load_on_absent hTest
      exact ⟨_, w', hLoad⟩

/-- The bytes of a document are usable for its version, and outdated for
every other. -/
theorem readBytes_document {doc : CacheDocument} {text : List Char}
    (hText : Json.document doc.toDatum = .ok text) (c : Cache) :
    c.readBytes (Text.Utf8.encodeChars text) = if doc.version = c.version then .usable doc else
      .outdated ("Cache version " ++ (Datum.int doc.version).shown ++ " does not match " ++
        Datum.intText c.version) := by
  rw [readBytes, Text.Utf8.decode_encodeChars]
  simp only [Json.parse_document doc.toDatum_plain hText, Except.toOption, doc.ofDatum_sorted]
  by_cases hSame : doc.version = c.version
  · rw [if_pos hSame, if_pos hSame]
  · rw [if_neg hSame, if_neg hSame]

/-- The document that bytes hold, of whatever version. -/
def stored? (bytes : List UInt8) : Option CacheDocument :=
  match Text.Utf8.decode bytes with
  | .error _ => none
  | .ok cs =>
    match Json.parse .asDouble cs with
    | .error _ => none
    | .ok d =>
      match CacheDocument.read d with
      | .valid doc => some doc
      | .invalid _ => none

/-- What was written as a document is stored as such. -/
theorem stored?_document {doc : CacheDocument} {text : List Char}
    (hText : Json.document doc.toDatum = .ok text) : stored? (Text.Utf8.encodeChars text) = some doc := by
  rw [stored?, Text.Utf8.decode_encodeChars]
  simp only [Json.parse_document doc.toDatum_plain hText, CacheDocument.faithful.back]

/-- Every entry stands under its own path, and no path twice. -/
structure Keyed (c : Cache) : Prop where
  path : ∀ p ∈ c.entries, p.1 = p.2.path
  nodup : (c.entries.map Prod.fst).Nodup

/-- The document of a keyed cache has its entries in the
order of their paths. -/
theorem Keyed.toDocument_entries {c : Cache} (hKeyed : c.Keyed) (time : Text) :
    (c.toDocument time).entries.map (fun e => (e.path, e)) = Assoc.sorted c.entries := by
  rw [toDocument, List.map_map]
  refine (List.map_congr_left fun p hp => ?_).trans (List.map_id _)
  exact Prod.ext (hKeyed.path p (Sorting.mem_sort.mp hp)).symm rfl

/-- What a saved cache leaves on the disk and what loading makes of it. -/
structure Persists (c c' : Cache) (w : World) : Prop where
  /-- The file holds the document, its entries in strict order of their paths. -/
  stored : ∃ place bytes mtime doc,
    w.disk.locate true (w.here.join c.file) = .ok (.found place (.file bytes mtime)) ∧
    stored? bytes = some doc ∧ (doc.entries.map CacheEntry.path).Pairwise (· < ·) ∧
    doc.version = c.version ∧ c'.createdAt = some doc.createdAt
  loaded : ∀ fresh : Cache, fresh.file = c.file → fresh.version = c.version →
    ∃ found w', fresh.load.on w = (.ok (found, true), w') ∧ found.entries.Perm c.entries ∧
      found.createdAt = c'.createdAt ∧ found.problem = none
  outdated : ∀ fresh : Cache, fresh.file = c.file → fresh.version ≠ c.version →
    ∃ found w', fresh.load.on w = (.ok (found, false), w') ∧ found.entries = [] ∧ found.problem = none

/-- A cache that was saved is loaded with the same entries and the time it
was first made, and not at all by another version. The file must be open to
reading, and its path must not go through a link that saving replaced. -/
theorem saved_cache_persists {c c' : Cache} {w w' : World} (hKeyed : c.Keyed)
    (hSave : c.save.on w = (.ok c', w'))
    (hStraight : (c.prepared w).disk.Straight ((c.prepared w).here.join c.file))
    (hOpen : w'.OpenAt (w'.here.join c.file).text) : Persists c c' w' := by
  obtain ⟨time, text, place, hText, hLocate, rfl⟩ := save_located hSave hStraight
  have hEntries := hKeyed.toDocument_entries time
  have hSorted := Assoc.sorted_keys hKeyed.nodup
  refine ⟨⟨place, _, _, c.toDocument time, hLocate, stored?_document hText, ?_, rfl, rfl⟩, ?_, ?_⟩
  · rw [← hEntries, List.map_map] at hSorted
    exact hSorted
  · intro fresh hFile hVersion
    obtain ⟨w'', hLoad⟩ := load_on_file (c := fresh) (hFile ▸ hOpen) (hFile ▸ hLocate)
    rw [readBytes_document hText, if_pos (show (c.toDocument time).version = _ from hVersion.symm)]
      at hLoad
    refine ⟨_, w'', hLoad, ?_, rfl, rfl⟩
    show (Assoc.ofPairs _).Perm _
    rw [hEntries, Assoc.ofPairs_of_nodup (hSorted.imp ne_of_lt)]
    exact Sorting.sort_perm _ _
  · intro fresh hFile hVersion
    obtain ⟨w'', hLoad⟩ := load_on_file (c := fresh) (hFile ▸ hOpen) (hFile ▸ hLocate)
    rw [readBytes_document hText, if_neg (show (c.toDocument time).version ≠ _ from hVersion.symm)]
      at hLoad
    exact ⟨_, w'', hLoad, rfl, rfl⟩

namespace Sample

/-- A directory with a link at the place of a cache file, which leads
nowhere, and with a link to the directory itself. -/
def before : World where
  disk := ⟨[(["p"], .directory), (["p", "kept"], .link "gone/away"), (["p", "loop"], .link ".")]⟩
  here := ⟨⟨.root, ["p"]⟩, []⟩
  watch := ⟨0, 1⟩

def recordOf (path : Text) : Record where
  path := path
  relativePath := "ä\u2028\"\\"
  imports := [{ source := "\x00\n", kind := .unresolved, line := -7 }]

/-- Two entries, not in order of their paths. -/
def kept : Cache where
  file := ⟨.none, ["loop", "kept"]⟩
  project := ⟨.root, ["p"]⟩
  version := -3
  entries := [("é", ⟨"é", "", 5, recordOf "é"⟩), ("b", ⟨"b", "d", -1, recordOf "c"⟩)]

theorem kept_keyed : kept.Keyed where
  path := by decide
  nodup := by decide

theorem kept_straight : (kept.prepared before).disk.Straight ((kept.prepared before).here.join kept.file) := by
  have hBefore : (kept.prepared before).disk.locate false ((kept.prepared before).here.join kept.file) =
      .ok (.found ["p", "kept"] (.link "gone/away")) := by decide +kernel
  intro place target hLocate
  rw [hBefore] at hLocate
  obtain ⟨rfl, -⟩ := Disk.Arrival.found.inj (Except.ok.inj hLocate)
  decide +kernel

def unlocked (_ : Cache) (w : World) : Bool := w.locks.isEmpty

/-- The sample is saved, in a world without locks. -/
theorem kept_saves : passes unlocked (kept.save.on before) = true := by decide +kernel

/-- A cache with odd texts, behind a link and on top of another, is loaded
as it was saved. -/
theorem odd_cache_persists : ∃ c' w', kept.save.on before = (.ok c', w') ∧ Persists kept c' w' := by
  obtain ⟨c', w', hSave, hOpen⟩ := exists_of_passes kept_saves
  refine ⟨c', w', hSave, saved_cache_persists kept_keyed hSave kept_straight fun n hLock => ?_⟩
  rw [List.isEmpty_iff.mp hOpen] at hLock
  cases hLock

/-- A cache whose path goes through the link that it ends at. -/
def crooked : Cache where
  file := ⟨.root, ["p", "loop", "loop"]⟩
  project := ⟨.root, ["p"]⟩

/-- Whether a cache finds nothing in a world without locks. -/
def loses (c : Cache) (_ : Cache) (w : World) : Bool :=
  w.locks.isEmpty && passes (fun loaded _ => !loaded.2) (c.load.on w)

/-- Along the other path the file that was saved is not the one that
loading looks for. -/
theorem crooked_loses : passes (loses crooked) (crooked.save.on before) = true := by decide +kernel

/-- Saving replaces the link that the path of this cache goes through, and
the file is not found again. -/
theorem crooked_cache_lost : crooked.Keyed ∧ ∃ c' w', crooked.save.on before = (.ok c', w') ∧
    w'.locks = [] ∧ ∃ found w'', crooked.load.on w' = (.ok (found, false), w'') := by
  refine ⟨⟨by decide, by decide⟩, ?_⟩
  obtain ⟨c', w', hSave, hLoses⟩ := exists_of_passes crooked_loses
  rw [loses, Bool.and_eq_true] at hLoses
  obtain ⟨⟨found, present⟩, w'', hLoad, hPresent⟩ := exists_of_passes hLoses.2
  obtain rfl : present = false := by simpa using hPresent
  exact ⟨c', w', hSave, List.isEmpty_iff.mp hLoses.1, found, w'', hLoad⟩

end Sample

end Cache

end SourceAtlas
