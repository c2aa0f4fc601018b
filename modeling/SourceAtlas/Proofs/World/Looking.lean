import SourceAtlas.Proofs.Disk.Lookup
import SourceAtlas.World.Files

/-!
Actions as functions of the world, and those that only look: they may log, read the clock and wear
off locks, but leave the disk and the working directory alone.
-/
namespace SourceAtlas

/-- No lock on this path refuses now. -/
def World.OpenAt (w : World) (key : Text) : Prop := ∀ n, w.locks.lookup key = some n → n = 0

/-- No path is locked now. -/
def World.Unlocked (w : World) : Prop := ∀ key, w.OpenAt key

/-- Where nothing is locked, nothing becomes locked. The samples of later
modules begin in such worlds. -/
theorem World.unlocked_of_no_locks {w : World} (hLocks : w.locks = []) : w.Unlocked := by
  intro key n hLock
  rw [hLocks] at hLock
  cases hLock

/-- The second world differs from the first by what looking at files may
change. Locks only wear off. -/
structure World.Looked (w w' : World) : Prop where
  disk : w'.disk = w.disk
  here : w'.here = w.here
  locks : ∀ key, w.OpenAt key → w'.OpenAt key

namespace World.Looked

variable {w w' w'' : World}

theorem refl (w : World) : Looked w w := ⟨rfl, rfl, fun _ => id⟩

/-- Looking wears locks off and makes none, so what is not locked stays so. -/
theorem unlocked (hLooked : Looked w w') (hUnlocked : w.Unlocked) : w'.Unlocked :=
  fun key => hLooked.locks key (hUnlocked key)

theorem trans (hFirst : Looked w w') (hSecond : Looked w' w'') : Looked w w'' where
  disk := hSecond.disk.trans hFirst.disk
  here := hSecond.here.trans hFirst.here
  locks key hOpen := hSecond.locks key (hFirst.locks key hOpen)

end World.Looked

instance : IsTrans World World.Looked := ⟨fun _ _ _ => World.Looked.trans⟩

/-- A refusal of the system, from which an attempt goes on. -/
def Failure.IsRefusal (f : Failure) : Prop := ∃ e, f = .system e

namespace Action

variable {α β : Type} {w w' : World}

/-- What an action gives on a world, and the world after it. -/
def on (a : Action α) (w : World) : Except Failure α × World := a.run w

def leaving (a : Action α) (w : World) : World := (a.on w).2

-- The kernel tells the two sides apart by running the action, so closed terms are rewritten with this.
theorem leaving_eq (a : Action α) (w : World) : a.leaving w = (a.on w).2 := rfl

theorem on_pure (x : α) (w : World) : (pure x : Action α).on w = (.ok x, w) := rfl

theorem on_throw (f : Failure) (w : World) : (throw f : Action α).on w = (.error f, w) := rfl

theorem on_get (w : World) : (get : Action World).on w = (.ok w, w) := rfl

/-- An action goes on in the world that the one before it left, and not at
all if that one stopped. -/
theorem on_bind (a : Action α) (f : α → Action β) (w : World) :
    (a >>= f).on w = match a.on w with
      | (.ok x, w') => (f x).on w'
      | (.error e, w') => (.error e, w') := by
  rcases hFirst : a.on w with ⟨e | x, w'⟩ <;>
    simp only [on, bind, ExceptT.bind, ExceptT.run, ExceptT.mk, ExceptT.bindCont,
      StateT.bind] at hFirst ⊢ <;> rw [hFirst]
  rfl

/-- The first step of a sequence is taken by rewriting. Proofs execute an
action by a chain of these. -/
theorem on_bind_ok {a : Action α} {x : α} (hFirst : a.on w = (.ok x, w')) (f : α → Action β) :
    (a >>= f).on w = (f x).on w' := by
  rw [on_bind, hFirst]

/-- A sequence whose first step stops has stopped, whatever was to come. -/
theorem on_bind_error {a : Action α} {e : Failure} (hFirst : a.on w = (.error e, w'))
    (f : α → Action β) : (a >>= f).on w = (.error e, w') := by
  rw [on_bind, hFirst]

/-- A sequence that gives a result has done both of its parts. -/
theorem of_on_bind {a : Action α} {f : α → Action β} {y : β} {w'' : World}
    (hBoth : (a >>= f).on w = (.ok y, w'')) :
    ∃ x w', a.on w = (.ok x, w') ∧ (f x).on w' = (.ok y, w'') := by
  rw [on_bind] at hBoth
  rcases hFirst : a.on w with ⟨e | x, w'⟩
  · rw [hFirst] at hBoth
    cases hBoth
  · rw [hFirst] at hBoth
    exact ⟨x, w', rfl, hBoth⟩

/-- A sequence that stops does so in its first part, or in the
second after the first. -/
theorem of_on_bind_error {a : Action α} {f : α → Action β} {e : Failure} {w'' : World}
    (hBoth : (a >>= f).on w = (.error e, w'')) :
    a.on w = (.error e, w'') ∨ ∃ x w', a.on w = (.ok x, w') ∧ (f x).on w' = (.error e, w'') := by
  rw [on_bind] at hBoth
  rcases hFirst : a.on w with ⟨e' | x, w'⟩
  · rw [hFirst] at hBoth
    obtain ⟨hError, rfl⟩ := Prod.mk.inj hBoth
    obtain rfl := Except.error.inj hError
    exact .inl rfl
  · rw [hFirst] at hBoth
    exact .inr ⟨x, w', rfl, hBoth⟩

/-- An attempt makes a refusal of the system a result. All other failures go
through it. -/
theorem on_attempt (a : Action α) (w : World) :
    (attempt a).on w = match a.on w with
      | (.ok x, w') => (.ok (.ok x), w')
      | (.error (.system e), w') => (.ok (.error e), w')
      | (.error f, w') => (.error f, w') := by
  rcases hFirst : a.on w with ⟨f | x, w'⟩
  · cases f <;> simp only [on, attempt, tryCatch, tryCatchThe, MonadExceptOf.tryCatch, ExceptT.tryCatch,
      bind, ExceptT.bind, ExceptT.run, ExceptT.mk, ExceptT.bindCont, StateT.bind] at hFirst ⊢ <;>
      rw [hFirst] <;> rfl
  · simp only [on, attempt, tryCatch, tryCatchThe, MonadExceptOf.tryCatch, ExceptT.tryCatch,
      bind, ExceptT.bind, ExceptT.run, ExceptT.mk, ExceptT.bindCont, StateT.bind] at hFirst ⊢
    rw [hFirst]
    rfl

/-- Whether a result passes a test with the world after it. -/
def passes (test : α → World → Bool) : Except Failure α × World → Bool
  | (.ok x, w) => test x w
  | (.error _, _) => false

/-- A test that is evaluated to true gives the result it was true of.
Samples are run by the kernel in this form. -/
theorem exists_of_passes {test : α → World → Bool} {result : Except Failure α × World}
    (hPasses : passes test result = true) : ∃ x w, result = (.ok x, w) ∧ test x w = true := by
  obtain ⟨e | x, w⟩ := result
  · cases hPasses
  · exact ⟨x, w, rfl, hPasses⟩

/-- Whatever an action gives, it moves the world along a relation. -/
def Moves (R : World → World → Prop) (a : Action α) : Prop := ∀ w, R w (a.on w).2

/-- What relates the worlds before and after every run relates those of one
that is at hand. -/
theorem Moves.run {R : World → World → Prop} {a : Action α} (hMoves : Moves R a) {result : Except Failure α}
    (hRun : a.on w = (result, w')) : R w w' := by
  have hMoved := hMoves w
  rwa [hRun] at hMoved

/-- A transitive relation holds across a sequence if it holds across
each of its steps. -/
theorem Moves.bind {R : World → World → Prop} [IsTrans World R] {a : Action α} {f : α → Action β}
    (hFirst : Moves R a) (hNext : ∀ x, Moves R (f x)) : Moves R (a >>= f) := by
  intro w
  have hMoved := hFirst w
  rw [on_bind]
  rcases hRun : a.on w with ⟨e | x, w'⟩ <;> rw [hRun] at hMoved
  · exact hMoved
  · exact IsTrans.trans _ _ _ hMoved (hNext x w')

theorem Moves.attempt {R : World → World → Prop} {a : Action α} (hMoves : Moves R a) :
    Moves R (attempt a) := by
  intro w
  have hMoved := hMoves w
  rw [on_attempt]
  rcases hRun : a.on w with ⟨f | x, w'⟩ <;> rw [hRun] at hMoved
  · cases f <;> exact hMoved
  · exact hMoved

/-- A weaker relation holds across every action that a stronger
one holds across. -/
theorem Moves.mono {R S : World → World → Prop} (hMono : ∀ {w w'}, R w w' → S w w') {a : Action α}
    (hMoves : Moves R a) : Moves S a := fun w => hMono (hMoves w)

/-- A relation that holds across each of several actions holds across all of
them in turn. -/
theorem Moves.mapM {R : World → World → Prop} [IsTrans World R] (hRefl : ∀ w, R w w) {f : α → Action β}
    {xs : List α} (hEach : ∀ x ∈ xs, Moves R (f x)) : Moves R (xs.mapM f) := by
  induction xs with
  | nil => exact hRefl
  | cons x xs ih =>
      rw [List.mapM_cons]
      apply (hEach x (List.mem_cons_self ..)).bind
      intro y
      exact (ih fun x hx => hEach x (List.mem_cons_of_mem _ hx)).bind fun ys => hRefl

/-- The loop of a filter by an action, with what it has kept so far. The
induction is on the elements left. -/
theorem Moves.filterAuxM {R : World → World → Prop} [IsTrans World R] (hRefl : ∀ w, R w w)
    {f : α → Action Bool} (hEach : ∀ x, Moves R (f x)) (xs kept : List α) :
    Moves R (xs.filterAuxM f kept) := by
  induction xs generalizing kept with
  | nil => exact hRefl
  | cons x xs ih =>
      rw [List.filterAuxM]
      exact (hEach x).bind fun b => ih _

theorem Moves.filterM {R : World → World → Prop} [IsTrans World R] (hRefl : ∀ w, R w w)
    {f : α → Action Bool} (hEach : ∀ x, Moves R (f x)) (xs : List α) : Moves R (xs.filterM f) :=
  (Moves.filterAuxM hRefl hEach xs []).bind fun _ => hRefl

/-- An action that only looks, whether it gives a result or stops. -/
def Looks (a : Action α) : Prop := Moves World.Looked a

theorem looks_pure (x : α) : Looks (pure x : Action α) := fun w => .refl w

theorem looks_throw (f : Failure) : Looks (throw f : Action α) := fun w => .refl w

theorem looks_get : Looks (get : Action World) := fun w => .refl w

/-- A sequence only looks if each step does, whatever the step is made from. -/
theorem Looks.bind {a : Action α} {f : α → Action β} (hFirst : Looks a) (hNext : ∀ x, Looks (f x)) :
    Looks (a >>= f) :=
  Moves.bind hFirst hNext

/-- An attempt looks as the action does; that a refusal becomes a result
changes no world. -/
theorem Looks.attempt {a : Action α} (hLooks : Looks a) : Looks (attempt a) := Moves.attempt hLooks

/-- Stopping under a condition and then going on looks if going on does. -/
theorem Looks.unless {c : Prop} [Decidable c] {f : Failure} {next : PUnit → Action α}
    (hNext : Looks (next ⟨⟩)) : Looks (if c then throw f >>= next else next ⟨⟩) := by
  split
  · exact (looks_throw f).bind fun _ => hNext
  · exact hNext

/-- Going on from one of two actions looks if all three do. -/
theorem looks_choice {c : Prop} [Decidable c] {a b : Action α} {next : α → Action β} (ha : Looks a)
    (hb : Looks b) (hNext : ∀ x, Looks (next x)) : Looks (if c then a >>= next else b >>= next) := by
  split
  · exact ha.bind hNext
  · exact hb.bind hNext

theorem looks_mapM {f : α → Action β} (hEach : ∀ x, Looks (f x)) (xs : List α) :
    Looks (xs.mapM f) :=
  Moves.mapM World.Looked.refl fun x _ => hEach x

theorem looks_foldlM {f : β → α → Action β} (hEach : ∀ y x, Looks (f y x)) (xs : List α) (y : β) :
    Looks (xs.foldlM f y) := by
  induction xs generalizing y with
  | nil => exact looks_pure _
  | cons x xs ih =>
      rw [List.foldlM_cons]
      exact (hEach y x).bind ih

theorem looks_log (level : Level) (channel : Channel) (message : Text) :
    Looks (log level channel message) := fun _ => ⟨rfl, rfl, fun _ => id⟩

theorem looks_now : Looks now := fun _ => ⟨rfl, rfl, fun _ => id⟩

theorem looks_refuse (errno : Errno) (p : Path) : Looks (refuse errno p : Action α) := looks_throw _

theorem looks_refuseBy (r : Disk.Refusal) (p : Path) : Looks (refuseBy r p : Action α) := by
  cases r with
  | errno e => exact looks_refuse e p
  | nul => exact looks_throw _

theorem looks_absolute (p : Path) : Looks (absolute p) := looks_get.bind fun _ => looks_pure _

theorem looks_ask (question : Disk → Path → Except Errno Bool) (p : Path) : Looks (ask question p) := by
  refine looks_get.bind fun w => (looks_absolute p).bind fun path => ?_
  split
  · exact looks_pure _
  · exact looks_refuse _ _

theorem looks_canonical (p : Path) : Looks (canonical p) := by
  refine looks_get.bind fun w => (looks_absolute p).bind fun path => ?_
  split
  · exact looks_pure _
  · exact looks_throw _
  · exact looks_throw _

theorem looks_entry (p : Path) : Looks (entry p) := by
  refine looks_get.bind fun w => (looks_absolute p).bind fun path => ?_
  split
  · exact looks_pure _
  · exact looks_refuseBy _ _

theorem looks_modified (p : Path) : Looks (modified p) := by
  refine (looks_entry p).bind fun e => ?_
  split <;> exact looks_pure _

/-- A lock on a path refuses unless it has worn off. -/
theorem tryLock_on (p : Path) (w : World) :
    (tryLock p).on w = match w.locks.lookup (w.here.join p).text with
      | none => (.ok (), w)
      | some n =>
        if n = 0 then (.ok (), w)
        else (.error (.system ⟨.permission, p.text, none⟩),
          if 0 < n then { w with locks := w.locks.map fun (l : Text × Int) =>
            if l.1 = (w.here.join p).text then ((w.here.join p).text, n - 1) else l }
          else w) := by
  have hSame : (tryLock p).on w = ((match w.locks.lookup (w.here.join p).text with
      | none => pure ()
      | some n =>
        if n = 0 then pure ()
        else do
          if 0 < n then
            set { w with locks := w.locks.map fun (l : Text × Int) =>
              if l.1 = (w.here.join p).text then ((w.here.join p).text, n - 1) else l }
          refuse .permission p : Action Unit)).on w := rfl
  rw [hSame]
  split
  · rfl
  · split_ifs <;> rfl

/-- A lock that wears off leaves those on other paths alone. -/
theorem lookup_wornOff {locks : List (Text × Int)} {key other : Text} (hOther : other ≠ key) (n : Int) :
    (locks.map fun l => if l.1 = key then (key, n) else l).lookup other = locks.lookup other := by
  induction locks with
  | nil => rfl
  | cons l locks ih =>
      rw [List.map_cons]
      by_cases hKey : l.1 = key
      · rw [if_pos hKey, List.lookup_cons, List.lookup_cons, beq_false_of_ne hOther,
          beq_false_of_ne (hKey ▸ hOther), ih]
      · rw [if_neg hKey, List.lookup_cons, List.lookup_cons, ih]

theorem looks_tryLock (p : Path) : Looks (tryLock p) := by
  intro w
  rw [tryLock_on]
  split
  · exact .refl w
  · next n hLock =>
    split_ifs with hZero hPos
    · exact .refl w
    · refine ⟨rfl, rfl, fun key hOpen m hLock' => ?_⟩
      have hOther : key ≠ (w.here.join p).text := by
        rintro rfl
        exact hZero (hOpen n hLock)
      rw [lookup_wornOff hOther] at hLock'
      exact hOpen m hLock'
    · exact .refl w

theorem looks_readBytes (p : Path) : Looks (readBytes p) := by
  refine (looks_tryLock p).bind fun _ => (looks_entry p).bind fun e => ?_
  split
  · exact looks_pure _
  · exact looks_refuse _ _

theorem looks_listNames (p : Path) : Looks (listNames p) := by
  refine (looks_tryLock p).bind fun _ => (looks_entry p).bind fun e => ?_
  split
  · exact looks_get.bind fun _ => looks_pure _
  · exact looks_refuse _ _

/-- Questions to the disk are answered by the disk as it is, and the world
stays as it is. -/
theorem ask_on (question : Disk → Path → Except Errno Bool) (p : Path) (w : World) :
    (ask question p).on w = match question w.disk (w.here.join p) with
      | .ok answer => (.ok answer, w)
      | .error e => (.error (.system ⟨e, p.text, none⟩), w) := by
  have hSame : (ask question p).on w = (match question w.disk (w.here.join p) with
      | .ok answer => pure answer
      | .error e => refuse e p : Action Bool).on w := rfl
  rw [hSame]
  split <;> rfl

/-- A canonical form is that of the path from the root, on
the disk as it is. -/
theorem canonical_on (p : Path) (w : World) :
    (canonical p).on w = match w.disk.canonical (w.here.join p) with
      | .ok path => (.ok path, w)
      | .error .circle => (.error .linkCircle, w)
      | .error .nul => (.error .nulInPath, w) := by
  have hAbsolute : (absolute p).on w = (.ok (w.here.join p), w) := rfl
  rw [canonical, on_bind_ok (on_get w), on_bind_ok hAbsolute]
  rcases w.disk.canonical (w.here.join p) with (_ | _) | path
  · rfl
  · rfl
  · rfl

/-- Looking up an entry leaves the world alone, whether it is
found or refused. -/
theorem entry_on (p : Path) (w : World) :
    (entry p).on w = match w.disk.entry true (w.here.join p) with
      | .ok e => (.ok e, w)
      | .error r => (refuseBy r p : Action (Place × Item)).on w := by
  have hSame : (entry p).on w = (match w.disk.entry true (w.here.join p) with
      | .ok e => pure e
      | .error r => refuseBy r p : Action (Place × Item)).on w := rfl
  rw [hSame]
  split <;> rfl

theorem refuseBy_on (r : Disk.Refusal) (p : Path) (w : World) :
    ∃ e, (refuseBy r p : Action α).on w = (.error e, w) := by
  cases r with
  | errno e => exact ⟨_, rfl⟩
  | nul => exact ⟨_, rfl⟩

theorem still_ask (question : Disk → Path → Except Errno Bool) (p : Path) : Moves Eq (ask question p) := by
  intro w
  rw [ask_on]
  split <;> rfl

theorem still_entry (p : Path) : Moves Eq (entry p) := by
  intro w
  rw [entry_on]
  split
  · rfl
  · next r _ =>
    obtain ⟨e, hRefuse⟩ := refuseBy_on r p w (α := Place × Item)
    rw [hRefuse]

/-- What is not locked can be opened, and no lock wears off by that. -/
theorem tryLock_open {w : World} {p : Path} (hOpen : w.OpenAt (w.here.join p).text) :
    (tryLock p).on w = (.ok (), w) := by
  rw [tryLock_on]
  split
  · rfl
  · next n hLock => rw [if_pos (hOpen n hLock)]

/-- Opening something succeeds only where no lock had to wear off, so the
world is the same. -/
theorem tryLock_on_ok {p : Path} {w w' : World} (hOpen : (tryLock p).on w = (.ok (), w')) : w' = w := by
  rw [tryLock_on] at hOpen
  split at hOpen
  · exact (Prod.mk.inj hOpen).2.symm
  · split_ifs at hOpen
    · exact (Prod.mk.inj hOpen).2.symm
    all_goals cases hOpen

/-- The bytes that are read are those of the file at the end of the path. -/
theorem readBytes_on_ok {p : Path} {w w' : World} {bytes : List UInt8}
    (hRead : (readBytes p).on w = (.ok bytes, w')) :
    w' = w ∧
      ∃ place mtime, w.disk.locate true (w.here.join p) = .ok (.found place (.file bytes mtime)) := by
  obtain ⟨_, w₁, hLock, hRest⟩ := of_on_bind hRead
  obtain rfl := tryLock_on_ok hLock
  obtain ⟨⟨place, item⟩, w₂, hEntry, hItem⟩ := of_on_bind hRest
  rw [entry_on] at hEntry
  split at hEntry
  · next e hFound =>
    obtain ⟨rfl, rfl⟩ : e = (place, item) ∧ w₁ = w₂ := by
      simpa using hEntry
    cases item with
    | file content mtime =>
        obtain ⟨rfl, rfl⟩ : content = bytes ∧ w₁ = w' := by
          simpa [on_pure] using hItem
        exact ⟨rfl, place, mtime, Disk.entry_eq_ok_iff.mp hFound⟩
    | directory => cases hItem
    | link target => cases hItem
  · next r _ =>
    obtain ⟨e, hRefuse⟩ := refuseBy_on r p w₁ (α := Place × Item)
    rw [hRefuse] at hEntry
    cases hEntry

/-- Where its path is not locked, a file is read at once. -/
theorem readBytes_open {p : Path} {w : World} (hOpen : w.OpenAt (w.here.join p).text) {place : Place}
    {bytes : List UInt8} {mtime : Int}
    (hLocate : w.disk.locate true (w.here.join p) = .ok (.found place (.file bytes mtime))) :
    (readBytes p).on w = (.ok bytes, w) := by
  rw [readBytes, on_bind_ok (tryLock_open hOpen)]
  have hEntry : (entry p).on w = (.ok (place, .file bytes mtime), w) := by
    rw [entry_on, Disk.entry_eq_ok_iff.mpr hLocate]
  rw [on_bind_ok hEntry]
  rfl

/-- A path that is locked is not read. -/
theorem readBytes_locked {p : Path} {w : World} (hLocked : ¬ w.OpenAt (w.here.join p).text) :
    ∃ w', (readBytes p).on w = (.error (.system ⟨.permission, p.text, none⟩), w') := by
  simp only [World.OpenAt, not_forall] at hLocked
  obtain ⟨n, hLock, hNonzero⟩ := hLocked
  have hRefused := tryLock_on p w
  simp only [hLock, if_neg hNonzero] at hRefused
  exact ⟨_, by rw [readBytes, on_bind_error hRefused]⟩

/-- The time of a file is the one that stands in its entry. -/
theorem modified_on_file {p : Path} {w : World} {place : Place} {bytes : List UInt8} {mtime : Int}
    (hLocate : w.disk.locate true (w.here.join p) = .ok (.found place (.file bytes mtime))) :
    (modified p).on w = (.ok mtime, w) := by
  have hEntry : (entry p).on w = (.ok (place, .file bytes mtime), w) := by
    rw [entry_on, Disk.entry_eq_ok_iff.mpr hLocate]
  rw [modified, on_bind_ok hEntry]
  rfl

/-- On every world with this disk and working directory, what the action
gives has a property. -/
def Gives (d : Disk) (here : Standpoint) (a : Action α) (P : α → Prop) : Prop :=
  ∀ w x w', w.disk = d → w.here = here → a.on w = (.ok x, w') → P x

section Gives

variable {d : Disk} {here : Standpoint} {P : α → Prop} {Q : β → Prop}

theorem gives_pure {x : α} (hx : P x) : Gives d here (pure x) P := by
  intro w y w' _ _ hRun
  obtain rfl := Except.ok.inj (Prod.mk.inj hRun).1
  exact hx

theorem gives_throw (f : Failure) : Gives d here (throw f) P := fun _ _ _ _ _ hRun => by cases hRun

/-- What is known of the first result is at hand for the second step. The
first step must only look, so that the second one finds the disk and the
working directory that the statement names. -/
theorem Gives.bind {a : Action α} {f : α → Action β} (hFirst : Gives d here a P) (hLooks : Looks a)
    (hNext : ∀ x, P x → Gives d here (f x) Q) : Gives d here (a >>= f) Q := by
  intro w y w'' hDisk hHere hRun
  obtain ⟨x, w', hx, hy⟩ := of_on_bind hRun
  have hLooked := hLooks w
  rw [hx] at hLooked
  exact hNext x (hFirst w x w' hDisk hHere hx) w' y w'' (hLooked.disk.trans hDisk)
    (hLooked.here.trans hHere) hy

/-- What an action gives also has every weaker property. -/
theorem Gives.mono {R : α → Prop} {a : Action α} (hGives : Gives d here a P)
    (hMono : ∀ x, P x → R x) : Gives d here a R :=
  fun w x w' hDisk hHere hRun => hMono x (hGives w x w' hDisk hHere hRun)

theorem gives_true (a : Action α) : Gives d here a fun _ => True := fun _ _ _ _ _ _ => trivial

theorem gives_get : Gives d here (get : Action World) fun w => w.disk = d ∧ w.here = here := by
  intro w x w' hDisk hHere hRun
  obtain rfl := Except.ok.inj (Prod.mk.inj hRun).1
  exact ⟨hDisk, hHere⟩

/-- A guard that throws lets through only what it does not hold of. The
statement has the form that `unless` takes in a sequence. -/
theorem Gives.unless {c : Prop} [Decidable c] {f : Failure} {next : PUnit → Action β}
    (hNext : ¬ c → Gives d here (next ⟨⟩) Q) :
    Gives d here (if c then throw f >>= next else next ⟨⟩) Q := by
  split
  · exact (gives_throw (P := fun _ => False) f).bind (looks_throw f) fun _ hFalse => hFalse.elim
  · next hc => exact hNext hc

/-- A choice between two actions that look, as `if` makes it
inside a sequence. -/
theorem gives_choice {c : Prop} [Decidable c] {a b : Action α} {next : α → Action β} (ha : Looks a)
    (hb : Looks b) (hNext : ∀ x, Gives d here (next x) Q) :
    Gives d here (if c then a >>= next else b >>= next) Q := by
  split
  · exact (gives_true a).bind ha fun x _ => hNext x
  · exact (gives_true b).bind hb fun x _ => hNext x

/-- If an attempt gives a result of the action and no refusal, that result
is as the action gives it. -/
theorem Gives.attempt {a : Action α} (hGives : Gives d here a P) :
    Gives d here (attempt a) fun result => ∀ x, result = .ok x → P x := by
  rintro w result w' hDisk hHere hRun x rfl
  rw [on_attempt] at hRun
  rcases hFirst : a.on w with ⟨f | y, w₁⟩ <;> rw [hFirst] at hRun
  · cases f <;> cases hRun
  · obtain rfl := Except.ok.inj (Except.ok.inj (Prod.mk.inj hRun).1)
    exact hGives w y w₁ hDisk hHere hFirst

/-- Results of several actions correspond one by one to what
these were made from. -/
theorem gives_mapM {f : α → Action β} {R : α → β → Prop} {xs : List α}
    (hLooks : ∀ x, Looks (f x)) (hEach : ∀ x ∈ xs, Gives d here (f x) (R x)) :
    Gives d here (xs.mapM f) fun ys => List.Forall₂ R xs ys := by
  induction xs with
  | nil => exact gives_pure .nil
  | cons x xs ih =>
      rw [List.mapM_cons]
      refine (hEach x (List.mem_cons_self ..)).bind (hLooks x) fun y hy => ?_
      refine (ih fun x hx => hEach x (List.mem_cons_of_mem _ hx)).bind (looks_mapM hLooks xs)
        fun ys hys => gives_pure (.cons hy hys)

/-- An answer that is given is the answer to that question on this disk. -/
theorem gives_ask (question : Disk → Path → Except Errno Bool) (p : Path) :
    Gives d here (ask question p) fun answer => question d (here.join p) = .ok answer := by
  rintro w answer w' rfl rfl hRun
  rw [ask_on] at hRun
  split at hRun
  · next answer' hAnswer =>
    obtain rfl := Except.ok.inj (Prod.mk.inj hRun).1
    exact hAnswer
  · cases hRun

theorem gives_canonical (p : Path) :
    Gives d here (canonical p) fun q => d.canonical (here.join p) = .ok q := by
  rintro w q w' rfl rfl hRun
  rw [canonical_on] at hRun
  split at hRun
  · next path hPath =>
    obtain rfl := Except.ok.inj (Prod.mk.inj hRun).1
    exact hPath
  · cases hRun
  · cases hRun

/-- An entry that is given is the one that the path leads to. -/
theorem gives_entry (p : Path) :
    Gives d here (entry p) fun e => d.locate true (here.join p) = .ok (.found e.1 e.2) := by
  rintro w e w' rfl rfl hRun
  rw [entry_on] at hRun
  split at hRun
  · next e' hEntry =>
    obtain rfl := Except.ok.inj (Prod.mk.inj hRun).1
    exact Disk.entry_eq_ok_iff.mp hEntry
  · next r _ =>
    obtain ⟨f, hRefuse⟩ := refuseBy_on r p w (α := Place × Item)
    rw [hRefuse] at hRun
    cases hRun

/-- Names are given of a directory only, and they are all the names in it. -/
theorem gives_listNames (p : Path) :
    Gives d here (listNames p) fun names => ∃ place,
      d.locate true (here.join p) = .ok (.found place .directory) ∧ names = d.names place := by
  refine (gives_true (tryLock p)).bind (looks_tryLock p) fun _ _ => ?_
  refine (gives_entry p).bind (looks_entry p) fun e hEntry => ?_
  split
  · next place =>
    rintro w names w' rfl rfl hRun
    obtain rfl := Except.ok.inj (Prod.mk.inj hRun).1
    exact ⟨place, hEntry, rfl⟩
  · exact gives_throw _

end Gives

/-- On every world with this disk and working directory the
action gives a result. -/
def Answers (d : Disk) (here : Standpoint) (a : Action α) : Prop :=
  ∀ w : World, w.disk = d → w.here = here → ∃ x w', a.on w = (.ok x, w')

section Answers

variable {d : Disk} {here : Standpoint} {P : α → Prop}

theorem answers_pure (x : α) : Answers d here (pure x : Action α) := fun w _ _ => ⟨x, w, rfl⟩

theorem answers_log (level : Level) (channel : Channel) (message : Text) :
    Answers d here (log level channel message) := fun _ _ _ => ⟨_, _, rfl⟩

theorem answers_get : Answers d here (get : Action World) := fun w _ _ => ⟨w, w, rfl⟩

/-- A sequence gives a result if the first step does, and the second one
does for whatever the first step may give. -/
theorem Answers.bind {a : Action α} {f : α → Action β} (hFirst : Answers d here a) (hLooks : Looks a)
    (hGives : Gives d here a P) (hNext : ∀ x, P x → Answers d here (f x)) :
    Answers d here (a >>= f) := by
  intro w hDisk hHere
  obtain ⟨x, w', hRun⟩ := hFirst w hDisk hHere
  have hLooked := hLooks w
  rw [hRun] at hLooked
  rw [on_bind_ok hRun]
  exact hNext x (hGives w x w' hDisk hHere hRun) w' (hLooked.disk.trans hDisk) (hLooked.here.trans hHere)

theorem answers_mapM {f : α → Action β} {xs : List α} (hLooks : ∀ x, Looks (f x))
    (hEach : ∀ x ∈ xs, Answers d here (f x)) : Answers d here (xs.mapM f) := by
  induction xs with
  | nil => exact answers_pure _
  | cons x xs ih =>
      rw [List.mapM_cons]
      refine (hEach x (List.mem_cons_self ..)).bind (hLooks x) (gives_true _) fun y _ => ?_
      refine (ih fun x hx => hEach x (List.mem_cons_of_mem _ hx)).bind (looks_mapM hLooks xs)
        (gives_true _) fun ys _ => answers_pure _

/-- A question is answered if the disk has an answer. It has none for a name
that is too long. -/
theorem answers_ask {question : Disk → Path → Except Errno Bool} {p : Path}
    (hQuestion : ∃ b, question d (here.join p) = .ok b) : Answers d here (ask question p) := by
  obtain ⟨b, hQuestion⟩ := hQuestion
  rintro w rfl rfl
  rw [ask_on, hQuestion]
  exact ⟨b, w, rfl⟩

/-- On worlds with this disk and working directory the action stops for
refusals of the system only, from which an attempt goes on. -/
def Refusable (d : Disk) (here : Standpoint) (a : Action α) : Prop :=
  ∀ (w : World) (f : Failure) (w' : World), w.disk = d → w.here = here → a.on w = (.error f, w') →
    ∃ e, f = .system e

/-- An attempt of what can at most be refused always gives a result, be it
the refusal. -/
theorem Refusable.attempt {a : Action α} (hRefusable : Refusable d here a) :
    Answers d here (attempt a) := by
  intro w hDisk hHere
  rw [on_attempt]
  rcases hRun : a.on w with ⟨f | x, w'⟩
  · obtain ⟨e, rfl⟩ := hRefusable w f w' hDisk hHere hRun
    exact ⟨.error e, w', rfl⟩
  · exact ⟨.ok x, w', rfl⟩

/-- A sequence can at most be refused if this holds of each of its steps. -/
theorem Refusable.bind {a : Action α} {f : α → Action β} (hFirst : Refusable d here a) (hLooks : Looks a)
    (hNext : ∀ x, Refusable d here (f x)) : Refusable d here (a >>= f) := by
  intro w failure w'' hDisk hHere hRun
  rcases of_on_bind_error hRun with hStop | ⟨x, w', hStep, hRest⟩
  · exact hFirst w failure w'' hDisk hHere hStop
  · have hLooked := hLooks.run hStep
    exact hNext x w' failure w'' (hLooked.disk.trans hDisk) (hLooked.here.trans hHere) hRest

theorem refusable_of_answers {a : Action α} (hAnswers : Answers d here a) : Refusable d here a := by
  intro w f w' hDisk hHere hRun
  obtain ⟨x, w'', hOk⟩ := hAnswers w hDisk hHere
  rw [hOk] at hRun
  cases hRun

theorem refusable_refuse (errno : Errno) (p : Path) : Refusable d here (refuse errno p : Action α) := by
  intro w f w' _ _ hRun
  exact ⟨_, (Except.error.inj (Prod.mk.inj hRun).1).symm⟩

theorem refusable_tryLock (p : Path) : Refusable d here (tryLock p) := by
  intro w f w' _ _ hRun
  rw [tryLock_on] at hRun
  split at hRun
  · cases hRun
  · split at hRun
    · cases hRun
    · exact ⟨_, (Except.error.inj (Prod.mk.inj hRun).1).symm⟩

/-- An entry is refused by the system at most, unless the path
has a NUL character. -/
theorem refusable_entry {p : Path} (hNul : d.locate true (here.join p) ≠ .error .nul) :
    Refusable d here (entry p) := by
  rintro w f w' rfl rfl hRun
  rw [entry_on] at hRun
  split at hRun
  · cases hRun
  · next r hEntry =>
    cases r with
    | errno e => exact refusable_refuse e p w f w' rfl rfl hRun
    | nul =>
        rw [Disk.entry] at hEntry
        split at hEntry
        · cases hEntry
        · cases hEntry
        · next r hLocate =>
          obtain rfl := Except.error.inj hEntry
          exact absurd hLocate hNul

/-- A file that is read is refused by the system at most, by a lock or by
what stands there. -/
theorem refusable_readBytes {p : Path} (hNul : d.locate true (here.join p) ≠ .error .nul) :
    Refusable d here (readBytes p) := by
  refine (refusable_tryLock p).bind (looks_tryLock p) fun _ => ?_
  refine (refusable_entry hNul).bind (looks_entry p) fun e => ?_
  split
  · exact refusable_of_answers (answers_pure _)
  · exact refusable_refuse _ _

theorem refusable_listNames {p : Path} (hNul : d.locate true (here.join p) ≠ .error .nul) :
    Refusable d here (listNames p) := by
  refine (refusable_tryLock p).bind (looks_tryLock p) fun _ => ?_
  refine (refusable_entry hNul).bind (looks_entry p) fun e => ?_
  split
  · exact (refusable_of_answers answers_get).bind looks_get fun _ => refusable_of_answers (answers_pure _)
  · exact refusable_refuse _ _

end Answers

/-- What the action gives, or the failure it stops with, depends on the disk
and the working directory only. -/
def Settled (a : Action α) : Prop :=
  ∀ v w : World, v.disk = w.disk → v.here = w.here → (a.on v).1 = (a.on w).1

theorem settled_pure (x : α) : Settled (pure x : Action α) := fun _ _ _ _ => rfl

theorem settled_throw (f : Failure) : Settled (throw f : Action α) := fun _ _ _ _ => rfl

/-- A sequence comes to the same in worlds with one disk and one working
directory if its steps do. -/
theorem Settled.bind {a : Action α} {f : α → Action β} (hFirst : Settled a) (hLooks : Looks a)
    (hNext : ∀ x, Settled (f x)) : Settled (a >>= f) := by
  intro v w hDisk hHere
  have hSame := hFirst v w hDisk hHere
  have hv := hLooks v
  have hw := hLooks w
  rw [on_bind, on_bind]
  rcases hRun : a.on v with ⟨e | x, v'⟩ <;> rcases hRun' : a.on w with ⟨e' | x', w'⟩ <;>
    rw [hRun, hRun'] at hSame <;> rw [hRun] at hv <;> rw [hRun'] at hw
  · exact congrArg Except.error (Except.error.inj hSame)
  · cases hSame
  · cases hSame
  · obtain rfl := Except.ok.inj hSame
    refine hNext x v' w' ?_ ?_
    · rw [hv.disk, hw.disk, hDisk]
    · rw [hv.here, hw.here, hHere]

theorem settled_canonical (p : Path) : Settled (canonical p) := by
  intro v w hDisk hHere
  rw [canonical_on, canonical_on, hDisk, hHere]
  split <;> rfl

/-- Whatever the world is, the action stops for such failures only. -/
def StopsBy (P : Failure → Prop) (a : Action α) : Prop :=
  ∀ (w : World) (f : Failure) (w' : World), a.on w = (.error f, w') → P f

section StopsBy

variable {P Q : Failure → Prop}

theorem stopsBy_pure (x : α) : StopsBy P (pure x : Action α) := fun _ _ _ hRun => by cases hRun

theorem stopsBy_throw {f : Failure} (hf : P f) : StopsBy P (throw f : Action α) := by
  intro w f' w' hRun
  obtain rfl := Except.error.inj (Prod.mk.inj hRun).1
  exact hf

theorem stopsBy_log (level : Level) (channel : Channel) (message : Text) :
    StopsBy P (log level channel message) := fun _ _ _ hRun => by cases hRun

theorem stopsBy_now : StopsBy P now := fun _ _ _ hRun => by cases hRun

/-- A sequence stops for such causes only if each of its steps does. -/
theorem StopsBy.bind {a : Action α} {f : α → Action β} (hFirst : StopsBy P a)
    (hNext : ∀ x, StopsBy P (f x)) : StopsBy P (a >>= f) := by
  intro w failure w'' hRun
  rcases of_on_bind_error hRun with hStop | ⟨x, w', -, hRest⟩
  · exact hFirst w failure w'' hStop
  · exact hNext x w' failure w'' hRest

/-- Weaker causes may be named instead. -/
theorem StopsBy.mono {a : Action α} (hStops : StopsBy P a) (hMono : ∀ f, P f → Q f) : StopsBy Q a :=
  fun w f w' hRun => hMono f (hStops w f w' hRun)

/-- An attempt does not stop for refusals of the system. -/
theorem StopsBy.attempt {a : Action α} (hStops : StopsBy P a) (hMono : ∀ f, P f → f.IsRefusal ∨ Q f) :
    StopsBy Q (attempt a) := by
  intro w failure w' hRun
  rw [on_attempt] at hRun
  rcases hStep : a.on w with ⟨f | x, w₁⟩ <;> rw [hStep] at hRun
  · have hf := hMono f (hStops w f w₁ hStep)
    cases f with
    | system e => cases hRun
    | _ =>
        obtain rfl := Except.error.inj (Prod.mk.inj hRun).1
        exact hf.resolve_left (by rintro ⟨e, hSystem⟩; cases hSystem)
  · cases hRun

theorem stopsBy_refuse (errno : Errno) (p : Path) :
    StopsBy Failure.IsRefusal (refuse errno p : Action α) := stopsBy_throw ⟨_, rfl⟩

/-- A question that is not answered is a refusal of the system, such as that
a name is too long. -/
theorem stopsBy_ask (question : Disk → Path → Except Errno Bool) (p : Path) :
    StopsBy Failure.IsRefusal (ask question p) := by
  intro w f w' hRun
  rw [ask_on] at hRun
  split at hRun
  · cases hRun
  · obtain rfl := Except.error.inj (Prod.mk.inj hRun).1
    exact ⟨_, rfl⟩

end StopsBy

end Action

end SourceAtlas
