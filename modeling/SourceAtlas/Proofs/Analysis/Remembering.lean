import SourceAtlas.Proofs.Analysis.Endurance
import SourceAtlas.Proofs.Cache.Memory

/-!
What a cache remembers of an analysis. After all files were looked at it has a current entry for each of
them, whatever it had before; and an analysis that begins with such entries uses nothing else.
-/
namespace SourceAtlas

open SourceAtlas.Action

theorem Watch.text_ne_empty (micros : Nat) : (Watch.text micros : Text) ≠ "" := by
  intro hEmpty
  obtain ⟨before, hText⟩ : ∃ before, Watch.text micros = before ++ "+00:00" := ⟨_, rfl⟩
  rw [hText] at hEmpty
  have hString : before ++ "+00:00" = "" := Text.ofString_injective hEmpty
  exact absurd (String.append_eq_empty_iff.mp hString).2 (by decide)

namespace Cache

variable {c fresh : Cache} {doc doc' : CacheDocument} {files : List Path} {time : Text} {text : List Char}

/-- A document of these files: its entries are in order of their paths, and
it says when it was first made. -/
structure Covers (doc : CacheDocument) (files : List Path) : Prop where
  version : doc.version = 1
  ordered : (doc.entries.map CacheEntry.path).Pairwise (· < ·)
  among : ∀ e ∈ doc.entries, e.path ∈ files.map Path.text
  created : doc.createdAt ≠ ""

/-- The document of a cache kept at these files covers them. -/
theorem covers_toDocument (hKeyed : c.Keyed) (hVersion : c.version = 1) (files : List Path) (hTime : time ≠ "") :
    Covers ((c.keepOnly files).toDocument time) files where
  version := hVersion
  ordered := by
    have hSorted := Assoc.sorted_keys (hKeyed.keepOnly files).nodup
    rwa [← (hKeyed.keepOnly files).toDocument_entries time, List.map_map] at hSorted
  among e he := by
    obtain ⟨key, hEntry⟩ := mem_toDocument_entries he
    obtain ⟨hMem, hWanted⟩ := List.mem_filter.mp hEntry
    rw [← show key = e.path from hKeyed.path _ hMem]
    exact List.contains_iff_mem.mp hWanted
  created := by
    rw [toDocument]
    split
    · exact hTime
    · next hCreated => exact hCreated

/-- What is taken over from the document of a cache is what the cache has
for the files. -/
theorem get?_taken_over (hKeyed : c.Keyed) (fresh : Cache) (time : Text) {path : Path} (hPath : path ∈ files) :
    Assoc.get? path.text (fresh.ofDocument ((c.keepOnly files).toDocument time)).entries =
      Assoc.get? path.text c.entries := by
  have hKept := hKeyed.keepOnly files
  have hEntries : (fresh.ofDocument ((c.keepOnly files).toDocument time)).entries =
      Assoc.sorted (c.keepOnly files).entries := by
    rw [ofDocument, hKept.toDocument_entries, Assoc.ofPairs_of_nodup]
    exact (Assoc.sorted_keys hKept.nodup).imp ne_of_lt
  have hPerm : (c.keepOnly files).entries.Perm (Assoc.sorted (c.keepOnly files).entries) :=
    (Sorting.sort_perm _ _).symm
  rw [hEntries, ← Assoc.get?_perm hPerm hKept.nodup, keepOnly, Assoc.get?_filter, if_pos]
  exact List.contains_iff_mem.mpr (List.mem_map_of_mem hPath)

namespace Covers

/-- A cache made from a document that covers files has just its entries. -/
theorem entries (hCovers : Covers doc files) (fresh : Cache) :
    (fresh.ofDocument doc).entries = doc.entries.map fun e => (e.path, e) := by
  rw [ofDocument, Assoc.ofPairs_of_nodup]
  rw [List.map_map]
  exact hCovers.ordered.imp ne_of_lt

/-- A cache that covers these files loses nothing in keeping only them. -/
theorem keepOnly (hCovers : Covers doc files) (fresh : Cache) :
    (fresh.ofDocument doc).keepOnly files = fresh.ofDocument doc := by
  have hAll : ((fresh.ofDocument doc).entries.filter fun p => (files.map Path.text).contains p.1) =
      (fresh.ofDocument doc).entries := by
    rw [List.filter_eq_self, hCovers.entries, List.forall_mem_map]
    intro e he
    exact List.contains_iff_mem.mpr (hCovers.among e he)
  rw [Cache.keepOnly, hAll]

/-- A document that was taken over is written as it was, but for
the time of writing. -/
theorem toDocument (hCovers : Covers doc files) (hVersion : fresh.version = 1) (time : Text) :
    (fresh.ofDocument doc).toDocument time =
      { doc with projectPath := fresh.project.text, updatedAt := time } := by
  have hOrdered : ((doc.entries.map fun e => (e.path, e)).map Prod.fst).Pairwise (· < ·) := by
    rw [List.map_map]
    exact hCovers.ordered
  rw [Cache.toDocument, hCovers.entries, Assoc.sorted_of_ordered hOrdered, List.map_map]
  have hCreated : (fresh.ofDocument doc).createdAt.getD "" = doc.createdAt := rfl
  rw [hCreated, if_neg hCovers.created, show (fresh.ofDocument doc).version = doc.version from
    hVersion.trans hCovers.version.symm]
  simp [ofDocument, Function.comp_def]

/-- Writing a document again with another time leaves what it covers. -/
theorem written (hCovers : Covers doc files) (path time : Text) :
    Covers { doc with projectPath := path, updatedAt := time } files :=
  ⟨hCovers.version, hCovers.ordered, hCovers.among, hCovers.created⟩

end Covers

/-- The path and the time of writing, as long as they are strings, do not
decide whether a document can be written. -/
theorem document_again (hText : Json.document doc.toDatum = .ok text) {path time : Text}
    (hPath : path.isString = true) (hTime : time.isString = true) :
    ∃ text', Json.document { doc with projectPath := path, updatedAt := time }.toDatum = .ok text' := by
  obtain ⟨hVersion, hRanged, hLegible⟩ := CacheDocument.fits_iff.mp (Json.document_eq_ok_iff.mp ⟨text, hText⟩)
  rw [Json.document_eq_ok_iff, CacheDocument.fits_iff]
  exact ⟨hVersion, hRanged, hPath, hLegible.createdAt, hTime, hLegible.entries⟩

end Cache

namespace Analysis

variable {w w' v : World} {root path : Path} {extensions : List Text} {bytes : List UInt8} {c c' c'' : Cache}
  {r : Record} {rs : List Record} {files : List Path} {p p' : Progress}

/-- A cache has a current entry for a file, and its record with the imports
looked up again is this one. -/
def Remembers (w : World) (extensions : List Text) (c : Cache) (path : Path) (r : Record) : Prop :=
  ∃ e, Assoc.get? path.text c.entries = some e ∧ Current w path e ∧
    Resolution.refresh w extensions e.record = .ok r

/-- Whether a file is remembered depends on the entry of its path only. -/
theorem Remembers.of_entry (hRemembers : Remembers w extensions c path r)
    (hSame : Assoc.get? path.text c'.entries = Assoc.get? path.text c.entries) :
    Remembers w extensions c' path r := by
  obtain ⟨e, hGet, hRest⟩ := hRemembers
  exact ⟨e, hSame.trans hGet, hRest⟩

/-- What is remembered in a later world that looks the same is
remembered in this one. -/
theorem Remembers.looked (hRemembers : Remembers v extensions c path r) (hLooked : w.Looked v) :
    Remembers w extensions c path r := by
  obtain ⟨e, hGet, ⟨place, bytes, mtime, hLocate, hCurrent⟩, hRefresh⟩ := hRemembers
  rw [hLooked.disk, hLooked.here] at hLocate
  rw [Resolution.refresh_congr hLooked.disk hLooked.here] at hRefresh
  exact ⟨e, hGet, ⟨place, bytes, mtime, hLocate, hCurrent⟩, hRefresh⟩

/-- The same cache, with other entries for these files at most. -/
structure Continues (files : List Path) (c c' : Cache) : Prop where
  file : c'.file = c.file
  project : c'.project = c.project
  created : c'.createdAt = c.createdAt
  version : c'.version = c.version
  keyed : c.Keyed → c'.Keyed
  entries : ∀ key, (∀ path ∈ files, path.text ≠ key) → Assoc.get? key c'.entries = Assoc.get? key c.entries

theorem Continues.refl (files : List Path) (c : Cache) : Continues files c c :=
  ⟨rfl, rfl, rfl, rfl, id, fun _ _ => rfl⟩

theorem Continues.cons (hFirst : Continues [path] c c') (hRest : Continues files c' c'') :
    Continues (path :: files) c c'' where
  file := hRest.file.trans hFirst.file
  project := hRest.project.trans hFirst.project
  created := hRest.created.trans hFirst.created
  version := hRest.version.trans hFirst.version
  keyed hKeyed := hRest.keyed (hFirst.keyed hKeyed)
  entries key hKey := by
    rw [List.forall_mem_cons] at hKey
    rw [hRest.entries key hKey.2, hFirst.entries key (by simpa using hKey.1)]

theorem continues_put (path : Path) (r : Record) (f : Fingerprint) (c : Cache) :
    Continues [path] c (c.put path r f) where
  file := rfl
  project := rfl
  created := rfl
  version := rfl
  keyed hKeyed := hKeyed.put path r f
  entries key hKey := by
    rw [Cache.put, Assoc.get?_put_of_ne]
    exact (hKey path (List.mem_singleton_self _)).symm

/-- An entry that was made of a file as it is now is current: it has the
digest of the content and the time of the file. -/
theorem current_new {place : Place} {mtime : Int}
    (hLocate : w.disk.locate true (w.here.join path) = .ok (.found place (.file bytes mtime))) (r : Record) :
    Current w path ⟨path.text, (Fingerprint.ofBytes bytes mtime).digest, (Fingerprint.ofBytes bytes mtime).mtime, r⟩ := by
  refine ⟨place, bytes, mtime, hLocate, ?_⟩
  simp [CacheEntry.isCurrent]

/-- Where nothing is locked, a file that was looked at is remembered. -/
theorem addFile_remembers (hUnlocked : w.Unlocked) (hNamed : path.Named) (hContent : w.content? path = some bytes)
    (hCache : p.cache = some c) (hRun : (addFile root extensions p path).on w = (.ok p', w')) :
    ∃ c' r, p'.cache = some c' ∧ Continues [path] c c' ∧ p'.records = p.records ++ [r] ∧
      Remembers w extensions c' path r := by
  obtain ⟨place, mtime, hLocate⟩ := World.content?_eq_some_iff.mp hContent
  rw [addFile_eq, on_bind_ok (readFingerprinted_open (hUnlocked _) hLocate)] at hRun
  rcases hHit : remembered? p.cache path (some (bytes, .ofBytes bytes mtime)) with _ | r
  · obtain ⟨r, hRecord, rfl⟩ := addRead_miss_ok hHit hRun
    refine ⟨c.put path r (.ofBytes bytes mtime), r, ?_, continues_put _ _ _ _, rfl, ?_⟩
    · rw [Progress.remember, hCache]
      rfl
    · refine ⟨_, Assoc.get?_put_self _ _ _, current_new hLocate r, ?_⟩
      exact (Extraction.refresh_record hNamed.readable hRecord w extensions).trans hRecord
  · obtain ⟨e, hGet, rfl, hCurrent⟩ := current_of_hit hLocate rfl (hCache ▸ hHit)
    obtain ⟨r, hRefresh, rfl⟩ := addRead_hit_ok hHit hRun
    exact ⟨c, r, hCache, .refl _ c, rfl, e, hGet, hCurrent, hRefresh⟩

/-- Where nothing is locked, all files that were looked at are remembered,
with records that will be found again. -/
theorem addFiles_remember (hUnlocked : w.Unlocked)
    (hFiles : ∀ path ∈ files, path.Named ∧ ∃ bytes, w.content? path = some bytes)
    (hNodup : (files.map Path.text).Nodup) (hCache : p.cache = some c) (hLooked : w.Looked v) {v' : World}
    (hRun : (files.foldlM (addFile root extensions) p).on v = (.ok p', v')) :
    ∃ c' rs, p'.cache = some c' ∧ Continues files c c' ∧ p'.records = p.records ++ rs ∧
      List.Forall₂ (Remembers w extensions c') files rs := by
  induction files generalizing p c v with
  | nil =>
      obtain rfl := Except.ok.inj (Prod.mk.inj hRun).1
      exact ⟨c, [], hCache, .refl _ c, by simp, .nil⟩
  | cons path files ih =>
      rw [List.map_cons, List.nodup_cons] at hNodup
      rw [List.foldlM_cons] at hRun
      obtain ⟨p₁, v₁, hStep, hRest⟩ := of_on_bind hRun
      obtain ⟨hNamed, bytes, hContent⟩ := hFiles path (List.mem_cons_self ..)
      rw [← World.content?_congr hLooked.disk hLooked.here] at hContent
      obtain ⟨c₁, r, hCache₁, hFirst, hRecord, hRemembers⟩ :=
        addFile_remembers (hLooked.unlocked hUnlocked) hNamed hContent hCache hStep
      obtain ⟨c', rs, hCache', hSecond, hRecords, hAll⟩ := ih (fun q hq => hFiles q (List.mem_cons_of_mem _ hq))
        hNodup.2 hCache₁ (hLooked.trans ((looks_addFile _ _ _ _).run hStep)) hRest
      refine ⟨c', r :: rs, hCache', hFirst.cons hSecond, by simp [hRecords, hRecord], .cons ?_ hAll⟩
      -- the files after it have other names
      apply (hRemembers.looked hLooked).of_entry
      apply hSecond.entries
      intro q hq hText
      exact hNodup.1 (hText ▸ List.mem_map_of_mem hq)

/-- Where nothing is locked, files that are remembered are not looked into.
Their records are those that are remembered. -/
theorem addFiles_remembered (root : Path) (hUnlocked : w.Unlocked) (hAll : List.Forall₂ (Remembers w extensions c) files rs)
    (hCache : p.cache = some c) (hLooked : w.Looked v) :
    ∃ v', (files.foldlM (addFile root extensions) p).on v =
      (.ok { p with records := p.records ++ rs, hits := p.hits + files.length }, v') := by
  induction hAll generalizing p v with
  | nil => exact ⟨v, by simp [on_pure]⟩
  | @cons path r files rs hRemembers _ ih =>
      obtain ⟨e, hGet, ⟨place, bytes, mtime, hLocate, hCurrent⟩, hRefresh⟩ := hRemembers
      rw [← hLooked.disk, ← hLooked.here] at hLocate
      have hHit : remembered? p.cache path (some (bytes, .ofBytes bytes mtime)) = some e.record := by
        rw [remembered?_eq, hCache, Option.bind_some, current?_eq_some_iff.mpr ⟨hGet, hCurrent⟩]
        rfl
      obtain ⟨v₁, hLooked₁, hStep⟩ := addRead_hit root extensions hHit v
      rw [Resolution.refresh_congr hLooked.disk hLooked.here, hRefresh] at hStep
      obtain ⟨v₂, hRest⟩ := ih (p := { p with records := p.records ++ [r], hits := p.hits + 1 }) hCache
        (hLooked.trans hLooked₁)
      refine ⟨v₂, ?_⟩
      rw [List.foldlM_cons, addFile_eq, on_bind_ok (on_bind_ok (readFingerprinted_open
        (hLooked.unlocked hUnlocked _) hLocate) _ |>.trans hStep), hRest]
      simp only [List.append_assoc, List.singleton_append, List.length_cons]
      rw [Nat.add_right_comm, Nat.add_assoc]

end Analysis

end SourceAtlas
