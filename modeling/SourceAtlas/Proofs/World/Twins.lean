import SourceAtlas.Cache.Store
import SourceAtlas.Proofs.Extraction

/-!
Two worlds side by side. On worlds that agree in the disk and in the locks on some paths, an action
that opens no other path gives the same result, and leaves worlds that still agree.
-/
namespace SourceAtlas

/-- Two worlds with one disk and one working directory, and the same locks
on the paths of a set. -/
structure World.Twin (paths : Set Text) (w v : World) : Prop where
  disk : v.disk = w.disk
  here : v.here = w.here
  locks : ∀ key ∈ paths, v.locks.lookup key = w.locks.lookup key

namespace World.Twin

variable {paths : Set Text} {u v w : World}

theorem refl (w : World) : Twin paths w w := ⟨rfl, rfl, fun _ _ => rfl⟩

theorem symm (hTwin : Twin paths w v) : Twin paths v w :=
  ⟨hTwin.disk.symm, hTwin.here.symm, fun key hKey => (hTwin.locks key hKey).symm⟩

/-- Agreement on the disk, the working directory and the locks of some paths
carries over. -/
theorem trans (hFirst : Twin paths w v) (hSecond : Twin paths v u) : Twin paths w u where
  disk := hSecond.disk.trans hFirst.disk
  here := hSecond.here.trans hFirst.here
  locks key hKey := (hSecond.locks key hKey).trans (hFirst.locks key hKey)

end World.Twin

instance (paths : Set Text) : IsTrans World (World.Twin paths) := ⟨fun _ _ _ => World.Twin.trans⟩

/-- The second world is a twin of the first unless a path of the set is
opened that was locked. -/
def World.Opens (paths : Set Text) (key : Text) (w v : World) : Prop :=
  (key ∈ paths → w.OpenAt key) → w.Twin paths v

instance (paths : Set Text) (key : Text) : IsTrans World (World.Opens paths key) where
  trans w v u hFirst hSecond := by
    intro hApart
    have hTwin := hFirst hApart
    apply hTwin.trans (hSecond _)
    intro hKey
    rw [World.OpenAt, hTwin.locks key hKey]
    exact hApart hKey

namespace Action

variable {α β : Type} {paths : Set Text} {w v : World}

/-- On twins the action gives the same and leaves twins. -/
def Parallel (paths : Set Text) (a : Action α) : Prop :=
  ∀ w v : World, w.Twin paths v → (a.on v).1 = (a.on w).1 ∧ (a.on w).2.Twin paths (a.on v).2

/-- On twin worlds one run gives the result of the other, and the worlds are
twins after it. -/
theorem Parallel.run {a : Action α} (hParallel : Parallel paths a) (hTwin : w.Twin paths v)
    {result : Except Failure α} {w' : World} (hRun : a.on w = (result, w')) :
    ∃ v', a.on v = (result, v') ∧ w'.Twin paths v' := by
  obtain ⟨hSame, hTwin'⟩ := hParallel w v hTwin
  rw [hRun] at hSame hTwin'
  exact ⟨(a.on v).2, Prod.ext hSame rfl, hTwin'⟩

theorem parallel_pure (x : α) : Parallel paths (pure x : Action α) := fun _ _ hTwin => ⟨rfl, hTwin⟩

theorem parallel_throw (f : Failure) : Parallel paths (throw f : Action α) := fun _ _ hTwin => ⟨rfl, hTwin⟩

theorem parallel_log (level : Level) (channel : Channel) (message : Text) :
    Parallel paths (log level channel message) := fun _ _ hTwin => ⟨rfl, hTwin.disk, hTwin.here, hTwin.locks⟩

/-- Actions that run in parallel on twin worlds may follow one another. -/
theorem Parallel.bind {a : Action α} {f : α → Action β} (hFirst : Parallel paths a)
    (hNext : ∀ x, Parallel paths (f x)) : Parallel paths (a >>= f) := by
  intro w v hTwin
  obtain ⟨hSame, hTwin'⟩ := hFirst w v hTwin
  rw [on_bind, on_bind]
  rcases hRun : a.on w with ⟨e | x, w'⟩ <;> rcases hRun' : a.on v with ⟨e' | x', v'⟩ <;>
    simp only [hRun, hRun'] at hSame hTwin'
  · exact ⟨congrArg Except.error (Except.error.inj hSame), hTwin'⟩
  · cases hSame
  · cases hSame
  · obtain rfl := Except.ok.inj hSame
    exact hNext x' w' v' hTwin'

/-- Twins stay twins when a failure is caught, for both fail with the same. -/
theorem Parallel.attempt {a : Action α} (hParallel : Parallel paths a) : Parallel paths (attempt a) := by
  intro w v hTwin
  obtain ⟨hSame, hTwin'⟩ := hParallel w v hTwin
  rw [on_attempt, on_attempt]
  rcases hRun : a.on w with ⟨e | x, w'⟩ <;> rcases hRun' : a.on v with ⟨e' | x', v'⟩ <;>
    simp only [hRun, hRun'] at hSame hTwin'
  · obtain rfl := Except.error.inj hSame
    cases e' <;> exact ⟨rfl, hTwin'⟩
  · cases hSame
  · cases hSame
  · obtain rfl := Except.ok.inj hSame
    exact ⟨rfl, hTwin'⟩

/-- What goes on from the world itself may only look at what twins agree in. -/
theorem Parallel.get_bind {f : World → Action β} (hSame : ∀ w v, w.Twin paths v → f v = f w)
    (hNext : ∀ w, Parallel paths (f w)) : Parallel paths (get >>= f) := by
  intro w v hTwin
  rw [on_bind_ok (on_get w), on_bind_ok (on_get v), hSame w v hTwin]
  exact hNext w w v hTwin

/-- An action that leaves the world alone and whose result goes by the disk. -/
theorem parallel_of_settled {a : Action α} (hSettled : Settled a) (hStill : ∀ w, (a.on w).2 = w) :
    Parallel paths a := by
  intro w v hTwin
  rw [hStill, hStill]
  exact ⟨hSettled v w hTwin.disk hTwin.here, hTwin⟩

/-- Looking up an entry changes nothing, not even a lock. -/
theorem entry_still (p : Path) (w : World) : ((entry p).on w).2 = w := (still_entry p w).symm

/-- What stands at a path is the same on twins, since no lock is asked. -/
theorem parallel_entry (p : Path) : Parallel paths (entry p) := by
  apply parallel_of_settled
  · intro v w hDisk hHere
    rw [entry_on, entry_on, hDisk, hHere]
    rcases w.disk.entry true (w.here.join p) with r | e
    · cases r <;> rfl
    · rfl
  · exact entry_still p

theorem parallel_modified (p : Path) : Parallel paths (modified p) := by
  apply (parallel_entry p).bind
  intro e
  split <;> exact parallel_pure _

/-- The number left to a lock that wears off. -/
theorem lookup_wornOff_self {locks : List (Text × Int)} {key : Text} (n : Int) :
    (locks.map fun l => if l.1 = key then (key, n) else l).lookup key =
      (locks.lookup key).map fun _ => n := by
  induction locks with
  | nil => rfl
  | cons l locks ih =>
      obtain ⟨k, m⟩ := l
      by_cases hKey : k = key
      · simp [hKey]
      · simp [List.lookup_cons, hKey, beq_false_of_ne (Ne.symm hKey), ih]

/-- Twins open a path on which they have the same lock alike. -/
theorem parallel_tryLock {p : Path} (hAbsolute : p.isAbsolute = true) (hPath : p.text ∈ paths) :
    Parallel paths (tryLock p) := by
  intro w v hTwin
  have hLock := hTwin.locks p.text hPath
  have hw := tryLock_on p w
  have hv := tryLock_on p v
  rw [Path.join_of_absolute hAbsolute] at hw hv
  rw [hLock] at hv
  cases hLookup : w.locks.lookup p.text with
  | none =>
      simp only [hLookup] at hw hv
      rw [hw, hv]
      exact ⟨rfl, hTwin⟩
  | some n =>
      simp only [hLookup] at hw hv
      rw [hw, hv]
      split_ifs with hZero hPos
      · exact ⟨rfl, hTwin⟩
      · refine ⟨rfl, hTwin.disk, hTwin.here, ?_⟩
        intro key hKey
        by_cases hSame : key = p.text
        · subst hSame
          simp only [lookup_wornOff_self, hLock]
        · simp only [lookup_wornOff hSame, hTwin.locks key hKey]
      · exact ⟨rfl, hTwin⟩

/-- A file is read alike in twin worlds if its own lock is one
that they agree on. -/
theorem parallel_readBytes {p : Path} (hAbsolute : p.isAbsolute = true) (hPath : p.text ∈ paths) :
    Parallel paths (readBytes p) := by
  apply (parallel_tryLock hAbsolute hPath).bind
  intro _
  apply (parallel_entry p).bind
  intro e
  split
  · exact parallel_pure _
  · exact parallel_throw _

/-- Of an action that opens no path the worlds before and after are twins. -/
theorem twin_of_still {a : Action α} (hStill : ∀ w, (a.on w).2 = w) : Moves (World.Twin paths) a := by
  intro w
  rw [hStill]
  exact .refl w

theorem twin_pure (x : α) : Moves (World.Twin paths) (pure x : Action α) := twin_of_still fun _ => rfl

theorem twin_throw (f : Failure) : Moves (World.Twin paths) (throw f : Action α) := twin_of_still fun _ => rfl

theorem twin_get : Moves (World.Twin paths) (get : Action World) := twin_of_still fun _ => rfl

theorem twin_log (level : Level) (channel : Channel) (message : Text) :
    Moves (World.Twin paths) (log level channel message) :=
  fun _ => ⟨rfl, rfl, fun _ _ => rfl⟩

/-- A question wears no lock off, so the world is its own twin after it. -/
theorem twin_ask (question : Disk → Path → Except Errno Bool) (p : Path) :
    Moves (World.Twin paths) (ask question p) := by
  apply twin_of_still
  intro w
  rw [ask_on]
  split <;> rfl

theorem twin_canonical (p : Path) : Moves (World.Twin paths) (canonical p) := by
  apply twin_of_still
  intro w
  rw [canonical_on]
  split <;> rfl

/-- An action that opens no path opens this one at most. -/
theorem opens_of_twin {key : Text} {a : Action α} (hTwin : Moves (World.Twin paths) a) :
    Moves (World.Opens paths key) a :=
  fun w _ => hTwin w

/-- Opening a file leaves a twin, unless the file is one of these paths and
was locked. -/
theorem opens_tryLock {p : Path} (hAbsolute : p.isAbsolute = true) :
    Moves (World.Opens paths p.text) (tryLock p) := by
  intro w hApart
  have hLock := tryLock_on p w
  rw [Path.join_of_absolute hAbsolute] at hLock
  cases hLookup : w.locks.lookup p.text with
  | none =>
      simp only [hLookup] at hLock
      rw [hLock]
      exact .refl w
  | some n =>
      simp only [hLookup] at hLock
      rw [hLock]
      split_ifs with hZero hPos
      · exact .refl w
      · refine ⟨rfl, rfl, ?_⟩
        intro key hKey
        apply lookup_wornOff
        rintro rfl
        exact hZero (hApart hKey n hLookup)
      · exact .refl w

/-- Reading a file leaves a twin of the world before, unless the file is one
of the set and was locked. -/
theorem opens_readBytes {p : Path} (hAbsolute : p.isAbsolute = true) :
    Moves (World.Opens paths p.text) (readBytes p) := by
  apply (opens_tryLock hAbsolute).bind
  intro _
  apply (opens_of_twin (twin_of_still (entry_still p))).bind
  intro e
  apply opens_of_twin
  split
  · exact twin_pure _
  · exact twin_throw _

end Action

namespace Extraction

open SourceAtlas.Action

variable {paths : Set Text}

/-- Give a record after saying why nothing was extracted, if nothing was. -/
def logged (r : Record) : Action Record := do
  match r.failure with
  | some message => Action.log .warning .extraction message
  | none => pure ()
  return r

/-- On twins the same is said of a record. -/
theorem parallel_logged (r : Record) : Parallel paths (logged r) := by
  rw [logged]
  split
  · exact (parallel_log _ _ _).bind fun _ => parallel_pure _
  · exact parallel_pure _

theorem twin_logged (r : Record) : Moves (World.Twin paths) (logged r) := by
  rw [logged]
  split
  · exact (twin_log _ _ _).bind fun _ => twin_pure _
  · exact twin_pure _

/-- From the content of a file alone everything is done alike: the parser
reads it and the disk is asked where imports lead. -/
theorem parallel_fromContent (path root : Path) (extensions : List Text)
    (content : Except SystemError (List UInt8)) :
    Parallel paths (fromContent path root extensions content) := by
  cases content with
  | error e => exact parallel_logged (failed path root 0 (.unreadable e.errno))
  | ok bytes =>
      apply Parallel.get_bind
      · intro w v hTwin
        rw [record_congr hTwin.disk hTwin.here]
      · intro w
        rcases record w path root extensions bytes with e | r
        · exact (parallel_throw _).bind parallel_logged
        · exact parallel_logged r

/-- Making a record out of a content wears off no lock at all. -/
theorem twin_fromContent (path root : Path) (extensions : List Text)
    (content : Except SystemError (List UInt8)) :
    Moves (World.Twin paths) (fromContent path root extensions content) := by
  cases content with
  | error e => exact (twin_pure _).bind twin_logged
  | ok bytes =>
      apply twin_get.bind
      intro w
      split
      · exact twin_logged _
      · exact (twin_throw _).bind twin_logged

/-- A record is extracted alike in twin worlds, whether the content was read
before or is read now. -/
theorem parallel_extract {path : Path} (hAbsolute : path.isAbsolute = true) (hPath : path.text ∈ paths)
    (root : Path) (extensions : List Text) (bytes : Option (List UInt8)) :
    Parallel paths (extract path root extensions bytes) := by
  cases bytes with
  | some bytes => exact parallel_fromContent path root extensions (.ok bytes)
  | none =>
      rw [extract_none]
      exact (parallel_readBytes hAbsolute hPath).attempt.bind (parallel_fromContent path root extensions)

end Extraction

namespace Cache

open SourceAtlas.Action

variable {paths : Set Text}

/-- Loading a cache opens its file and no other. -/
theorem opens_load {c : Cache} (hAbsolute : c.file.isAbsolute = true) :
    Moves (World.Opens paths c.file.text) c.load := by
  apply (opens_of_twin (twin_ask _ _)).bind
  intro present
  split
  · exact opens_of_twin ((twin_log _ _ _).bind fun _ => twin_pure _)
  · have hRead : Moves (World.Opens paths c.file.text) c.forgotten.readFile := by
      apply (opens_readBytes hAbsolute).attempt.bind
      intro content
      split <;> exact opens_of_twin (twin_pure _)
    apply hRead.bind
    intro loaded
    split <;> exact opens_of_twin ((twin_log _ _ _).bind fun _ => twin_pure _)

end Cache

end SourceAtlas
