import SourceAtlas.Cache.Store
import SourceAtlas.Proofs.Cache.Document
import SourceAtlas.Proofs.Json.Range
import SourceAtlas.Proofs.Text.Utf8
import SourceAtlas.Proofs.World.Writing

/-!
What cache files hold. Loading takes entries from the file at the end of the cache path and from
nowhere else; saving leaves a file that holds the entries of the cache.
-/
namespace SourceAtlas.Cache

open SourceAtlas.Action

/-- The document that the bytes of a cache file hold. Loading rejects bytes
that hold none. -/
def held? (bytes : List UInt8) : Option CacheDocument :=
  match Text.Utf8.decode bytes with
  | .error _ => none
  | .ok cs =>
    match Json.parse .asDouble cs with
    | .error _ => none
    | .ok d => (CacheDocument.ofDatum 1 d).toOption

/-- Bytes are usable for a cache of this version exactly if
they hold a document. -/
theorem readBytes_eq_usable_iff {c : Cache} (hVersion : c.version = 1) {bytes : List UInt8}
    {doc : CacheDocument} : c.readBytes bytes = .usable doc ↔ held? bytes = some doc := by
  rw [readBytes, held?, hVersion]
  rcases Text.Utf8.decode bytes with f | cs
  · simp
  · rcases hParse : Json.parse .asDouble cs with f | d
    · simp [hParse, Except.toOption]
    · rcases hDatum : CacheDocument.ofDatum 1 d with (found | count) | doc' <;>
        simp [hParse, hDatum, Except.toOption]

/-- A document that is written is the one its bytes hold. -/
theorem held?_document {doc : CacheDocument} (hVersion : doc.version = 1) {text : List Char}
    (hText : Json.document doc.toDatum = .ok text) : held? (Text.Utf8.encodeChars text) = some doc := by
  have hDatum := doc.ofDatum_sorted 1
  rw [if_pos hVersion] at hDatum
  rw [held?, Text.Utf8.decode_encodeChars]
  simp only [Json.parse_document doc.toDatum_plain hText, hDatum]
  rfl

theorem looks_readFile (c : Cache) : Looks c.readFile := by
  refine (looks_readBytes c.file).attempt.bind fun content => ?_
  split <;> exact looks_pure _

/-- Loading a cache leaves the disk as it was, whatever it finds. -/
theorem looks_load (c : Cache) : Looks c.load := by
  refine (looks_ask _ _).bind fun present => ?_
  split
  · exact (looks_log _ _ _).bind fun _ => looks_pure _
  · refine (looks_readFile _).bind fun loaded => ?_
    split <;> exact (looks_log _ _ _).bind fun _ => looks_pure _

/-- A usable document is what the file at the end of the cache path holds,
links on the way followed. -/
theorem readFile_usable {c : Cache} {w w' : World} (hVersion : c.version = 1) {doc : CacheDocument}
    (hRead : c.readFile.on w = (.ok (.usable doc), w')) :
    ∃ place bytes mtime,
      w.disk.locate true (w.here.join c.file) = .ok (.found place (.file bytes mtime)) ∧
      held? bytes = some doc := by
  obtain ⟨content, w₁, hAttempt, hContent⟩ := of_on_bind hRead
  cases content with
  | error e => cases hContent
  | ok bytes =>
      obtain ⟨hUsable, -⟩ := Prod.mk.inj hContent
      rw [on_attempt] at hAttempt
      rcases hBytes : (Action.readBytes c.file).on w with ⟨f | content, w₂⟩
      · rw [hBytes] at hAttempt
        cases f <;> cases hAttempt
      · rw [hBytes] at hAttempt
        obtain ⟨rfl, rfl⟩ : content = bytes ∧ w₂ = w₁ := by simpa using hAttempt
        obtain ⟨-, place, mtime, hLocate⟩ := readBytes_on_ok hBytes
        refine ⟨place, content, mtime, hLocate, ?_⟩
        exact (readBytes_eq_usable_iff hVersion).mp (Except.ok.inj hUsable)

/-- The entries of a loaded cache are those of the document
that its file holds. -/
theorem load_entries {c c' : Cache} {found : Bool} {w w' : World} (hVersion : c.version = 1)
    (hLoad : c.load.on w = (.ok (c', found), w')) :
    c'.file = c.file ∧ c'.project = c.project ∧ c'.version = 1 ∧ ∀ p ∈ c'.entries,
      ∃ place bytes mtime doc,
        w.disk.locate true (w.here.join c.file) = .ok (.found place (.file bytes mtime)) ∧
        held? bytes = some doc ∧ p.2 ∈ doc.entries ∧ p.1 = p.2.path := by
  obtain ⟨present, w₁, hPresent, hRest⟩ := of_on_bind hLoad
  have hLooked := looks_ask Disk.isFile c.forgotten.file w
  rw [show (ask Disk.isFile c.forgotten.file).on w = (.ok present, w₁) from hPresent] at hLooked
  split at hRest
  · obtain ⟨_, w₂, -, hResult⟩ := of_on_bind hRest
    obtain ⟨rfl, rfl⟩ := Prod.mk.inj (Except.ok.inj (Prod.mk.inj hResult).1)
    exact ⟨rfl, rfl, hVersion, by simp [forgotten]⟩
  · obtain ⟨loaded, w₂, hRead, hLoaded⟩ := of_on_bind hRest
    split at hLoaded
    · obtain ⟨_, w₃, -, hResult⟩ := of_on_bind hLoaded
      obtain ⟨rfl, rfl⟩ := Prod.mk.inj (Except.ok.inj (Prod.mk.inj hResult).1)
      exact ⟨rfl, rfl, hVersion, by simp [forgotten]⟩
    · obtain ⟨_, w₃, -, hResult⟩ := of_on_bind hLoaded
      obtain ⟨rfl, rfl⟩ := Prod.mk.inj (Except.ok.inj (Prod.mk.inj hResult).1)
      exact ⟨rfl, rfl, hVersion, by simp [forgotten]⟩
    · next doc =>
      obtain ⟨_, w₃, -, hResult⟩ := of_on_bind hLoaded
      obtain ⟨rfl, rfl⟩ := Prod.mk.inj (Except.ok.inj (Prod.mk.inj hResult).1)
      refine ⟨rfl, rfl, hVersion, fun p hp => ?_⟩
      obtain ⟨place, bytes, mtime, hLocate, hHeld⟩ := readFile_usable hVersion hRead
      rw [hLooked.disk, hLooked.here] at hLocate
      obtain ⟨e, he, rfl⟩ := List.mem_map.mp (Assoc.mem_ofPairs hp)
      exact ⟨place, bytes, mtime, doc, hLocate, hHeld, he, rfl⟩

/-- A document made of a cache has no entries but those of the cache. -/
theorem mem_toDocument_entries {c : Cache} {now : Text} {e : CacheEntry}
    (he : e ∈ (c.toDocument now).entries) : ∃ key, (key, e) ∈ c.entries := by
  obtain ⟨p, hp, rfl⟩ := List.mem_map.mp he
  exact ⟨p.1, Sorting.mem_sort.mp hp⟩

/-- The entries of a document that was written can be written again, one by
one or in another document. -/
theorem fits_of_document {doc : CacheDocument} {text : List Char} (hText : Json.document doc.toDatum = .ok text)
    {e : CacheEntry} (he : e ∈ doc.entries) : e.toDatum.fits = true := by
  have hFits := Json.document_eq_ok_iff.mp ⟨text, hText⟩
  simp only [CacheDocument.toDatum, Datum.fits, Datum.ranged_table, Datum.legible_table, List.all_cons, List.all_nil,
    Datum.ranged_list, Datum.legible_list, List.all_map, Bool.and_true, Bool.and_eq_true, List.all_eq_true,
    Function.comp_apply] at hFits
  rw [Datum.fits, hFits.1.2.2.2.2 e he, hFits.2.2.2.2.2.2 e he]
  rfl

/-- The disk after the cache was saved, or after that failed: only
the file of the cache may be new, and it holds entries of the cache
that can be written. -/
structure SavedFrom (c : Cache) (w w' : World) : Prop where
  here : w'.here = w.here
  disk : w.disk.Grows w'.disk ∨ ∃ bytes doc, held? bytes = some doc ∧
    (∀ e ∈ doc.entries, e.toDatum.fits = true ∧ ∃ key, (key, e) ∈ c.entries) ∧ w.disk.Saved c.file bytes w'.disk

/-- Saving makes at most one new file, and that holds entries of the cache;
if it is refused there is nothing new but directories. -/
theorem save_savedFrom {c : Cache} (hVersion : c.version = 1) (hAbsolute : c.file.isAbsolute = true)
    (hNamed : c.file.Named) (w : World) :
    SavedFrom c w (c.save.on w).2 := by
  have hNow := looks_now w
  obtain ⟨time, w₁, hTime⟩ : ∃ time w₁, Action.now.on w = (.ok time, w₁) := ⟨_, _, rfl⟩
  rw [hTime] at hNow
  rw [save, on_bind_ok hTime]
  simp only
  split
  · exact ⟨hNow.here, .inl (hNow.disk ▸ .refl _)⟩
  · next text hText =>
    obtain ⟨hHere, hSaved⟩ := writeReplacing_saved hAbsolute hNamed (Text.Utf8.encodeChars text) w₁
    rw [hNow.here] at hHere
    rw [hNow.disk] at hSaved
    have hHeld : held? (Text.Utf8.encodeChars text) = some (c.toDocument time) :=
      held?_document hVersion hText
    have hEntries : ∀ e ∈ (c.toDocument time).entries, e.toDatum.fits = true ∧ ∃ key, (key, e) ∈ c.entries :=
      fun e he => ⟨fits_of_document hText he, mem_toDocument_entries he⟩
    rcases hWrite : (writeReplacing c.file (Text.Utf8.encodeChars text)).on w₁ with ⟨e | _, w₂⟩ <;>
      rw [hWrite] at hHere hSaved
    · rw [on_bind_error hWrite]
      exact ⟨hHere, .inr ⟨_, _, hHeld, hEntries, hSaved⟩⟩
    · rw [on_bind_ok hWrite]
      exact ⟨hHere, .inr ⟨_, _, hHeld, hEntries, hSaved⟩⟩

theorem SavedFrom.refl (c : Cache) (w : World) : SavedFrom c w w := ⟨rfl, .inl (.refl _)⟩

/-- Looking before saving makes no difference to what is saved. -/
theorem SavedFrom.after_looked {c : Cache} {w v w' : World} (hLooked : w.Looked v)
    (hSaved : SavedFrom c v w') : SavedFrom c w w' := by
  obtain ⟨hHere, hDisk⟩ := hSaved
  rw [hLooked.disk] at hDisk
  exact ⟨hHere.trans hLooked.here, hDisk⟩

/-- Looking after saving makes no difference to what was saved. -/
theorem SavedFrom.then_looked {c : Cache} {w v w' : World} (hSaved : SavedFrom c w v)
    (hLooked : v.Looked w') : SavedFrom c w w' := by
  obtain ⟨hHere, hDisk⟩ := hSaved
  rw [← hLooked.disk] at hDisk
  exact ⟨hLooked.here.trans hHere, hDisk⟩

/-- Looking before saving changes nothing about what is saved. -/
theorem savedFrom_after_looks {α β : Type} {c : Cache} {a : Action α} {f : α → Action β}
    (hLooks : Looks a) (hSaves : ∀ x, Moves (SavedFrom c) (f x)) : Moves (SavedFrom c) (a >>= f) := by
  intro w
  have hLooked := hLooks w
  rw [on_bind]
  rcases hRun : a.on w with ⟨e | x, v⟩ <;> rw [hRun] at hLooked
  · exact (SavedFrom.refl c w).then_looked hLooked
  · exact (hSaves x v).after_looked hLooked

theorem savedFrom_then_looks {α β : Type} {c : Cache} {a : Action α} {f : α → Action β}
    (hSaves : Moves (SavedFrom c) a) (hLooks : ∀ x, Looks (f x)) : Moves (SavedFrom c) (a >>= f) := by
  intro w
  have hSaved := hSaves w
  rw [on_bind]
  rcases hRun : a.on w with ⟨e | x, v⟩ <;> rw [hRun] at hSaved
  · exact hSaved
  · exact hSaved.then_looked (hLooks x v)

/-- Fewer entries may be saved than the cache has. -/
theorem SavedFrom.of_keepOnly {c : Cache} {keep : List Path} {w w' : World}
    (hSaved : SavedFrom (c.keepOnly keep) w w') : SavedFrom c w w' := by
  refine ⟨hSaved.here, hSaved.disk.imp_right ?_⟩
  rintro ⟨bytes, doc, hHeld, hEntries, hDisk⟩
  refine ⟨bytes, doc, hHeld, fun e he => ?_, hDisk⟩
  obtain ⟨hFits, key, hMem⟩ := hEntries e he
  exact ⟨hFits, key, (List.mem_filter.mp hMem).1⟩

/-- Pruning keeps the entries of the given paths, tells how many were
dropped, and touches no file. -/
theorem prune_on (c : Cache) (keep : List Path) (w : World) :
    ∃ w', w.Looked w' ∧ (c.prune keep).on w = (.ok (c.keepOnly keep, c.staleCount keep), w') := by
  rw [prune]
  dsimp only
  split
  · exact ⟨_, looks_log _ _ _ w, rfl⟩
  · exact ⟨w, .refl w, rfl⟩

/-- The second world lacks some entries of the first and has no others. -/
structure Shrunk (w w' : World) : Prop where
  here : w'.here = w.here
  find? : ∀ p, w'.disk.find? p = w.disk.find? p ∨ w'.disk.find? p = none
  proper : w.disk.Proper → w'.disk.Proper

theorem Shrunk.refl (w : World) : Shrunk w w := ⟨rfl, fun _ => .inl rfl, id⟩

theorem Shrunk.trans {w w' w'' : World} (hFirst : Shrunk w w') (hSecond : Shrunk w' w'') :
    Shrunk w w'' where
  here := hSecond.here.trans hFirst.here
  find? p := by
    rcases hSecond.find? p with hSame | hGone
    · rw [hSame]
      exact hFirst.find? p
    · exact .inr hGone
  proper hProper := hSecond.proper (hFirst.proper hProper)

instance : IsTrans World Shrunk := ⟨fun _ _ _ => Shrunk.trans⟩

theorem shrunk_of_looks {α : Type} {a : Action α} (hLooks : Looks a) : Moves Shrunk a :=
  hLooks.mono fun hLooked => ⟨hLooked.here, fun p => .inl (by rw [hLooked.disk]),
    fun hProper => hLooked.disk ▸ hProper⟩

/-- Removing a file takes at most that entry away. -/
theorem shrunk_removeFile (p : Path) : Moves Shrunk (removeFile p) := by
  intro w
  rw [removeFile_on]
  split
  · exact .refl w
  · next place item hItem hEntry =>
    have hPlace : place ≠ [] := by
      rintro rfl
      have hFound := Disk.find?_of_locate (Disk.entry_eq_ok_iff.mp hEntry)
      exact hItem (Option.some.inj hFound).symm
    refine ⟨rfl, fun q => ?_, fun hProper => hProper.erase place⟩
    rw [Disk.find?_erase hPlace]
    split
    · exact .inr rfl
    · exact .inl rfl
  · exact shrunk_of_looks (looks_refuseBy _ p) w

/-- Removing the cache only takes entries away. -/
theorem shrunk_remove (c : Cache) : Moves Shrunk c.remove := by
  refine (shrunk_removeFile c.file).attempt.bind fun removed => ?_
  split
  · exact shrunk_of_looks ((looks_log _ _ _).bind fun _ => looks_pure _)
  · split
    · exact shrunk_of_looks (looks_pure _)
    · exact shrunk_of_looks (looks_throw _)

end SourceAtlas.Cache
