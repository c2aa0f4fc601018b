import SourceAtlas.Proofs.World.Looking

/-!
For what actions stop on the worlds that they meet. While an action only looks these are the worlds
with one disk and one working directory; once it writes, the working directory is all that stays.
-/
namespace SourceAtlas

/-- The second world has the working directory of the first. -/
def World.Stays (w w' : World) : Prop := w'.here = w.here

instance : IsTrans World World.Stays := ⟨fun _ _ _ hFirst hSecond => hSecond.trans hFirst⟩

namespace Action

variable {α β : Type} {d : Disk} {here : Standpoint} {P : Failure → Prop}

/-- On worlds with this disk and working directory the action stops for such
failures only. -/
def Fails (d : Disk) (here : Standpoint) (a : Action α) (P : Failure → Prop) : Prop :=
  ∀ (w : World) (f : Failure) (w' : World), w.disk = d → w.here = here → a.on w = (.error f, w') → P f

theorem fails_pure (x : α) : Fails d here (pure x : Action α) P := fun _ _ _ _ _ hRun => by cases hRun

theorem fails_throw {f : Failure} (hf : P f) : Fails d here (throw f : Action α) P :=
  fun w f' w' _ _ hRun => stopsBy_throw hf w f' w' hRun

/-- An action that stops for such causes in every world does
so in these worlds. -/
theorem fails_of_stopsBy {a : Action α} (hStops : StopsBy P a) : Fails d here a P :=
  fun w f w' _ _ hRun => hStops w f w' hRun

/-- An action that can at most be refused fails by refusals. -/
theorem fails_of_refusable {a : Action α} (hRefusable : Refusable d here a) (hRefusal : ∀ e, P (.system e)) :
    Fails d here a P := by
  intro w f w' hDisk hHere hRun
  obtain ⟨e, rfl⟩ := hRefusable w f w' hDisk hHere hRun
  exact hRefusal e

/-- An action that gives a result in these worlds does not fail there. -/
theorem fails_of_answers {a : Action α} (hAnswers : Answers d here a) : Fails d here a P := by
  intro w f w' hDisk hHere hRun
  obtain ⟨x, v, hOk⟩ := hAnswers w hDisk hHere
  rw [hOk] at hRun
  cases hRun

/-- An attempt hands on all failures but refusals, which become results. -/
theorem Fails.attempt {a : Action α} (hFails : Fails d here a P) : Fails d here (attempt a) P := by
  intro w f w' hDisk hHere hRun
  rw [on_attempt] at hRun
  rcases hStep : a.on w with ⟨f' | x, v⟩ <;> rw [hStep] at hRun
  · have hf := hFails w f' v hDisk hHere hStep
    cases f' with
    | system e => cases hRun
    | _ =>
        obtain rfl := Except.error.inj (Prod.mk.inj hRun).1
        exact hf
  · cases hRun

/-- What an action gives, it gives in such a world. -/
theorem gives_run (d : Disk) (here : Standpoint) (a : Action α) : Gives d here a fun x =>
    ∃ v v', v.disk = d ∧ v.here = here ∧ a.on v = (.ok x, v') :=
  fun v _ v' hDisk hHere hRun => ⟨v, v', hDisk, hHere, hRun⟩

/-- The second step is looked at for those results only that the first one
gives. The first one only looks, so both are in worlds with this disk. -/
theorem Fails.bind {a : Action α} {f : α → Action β} {Q : α → Prop} (hFirst : Fails d here a P)
    (hLooks : Looks a) (hGives : Gives d here a Q) (hNext : ∀ x, Q x → Fails d here (f x) P) :
    Fails d here (a >>= f) P := by
  intro w failure w'' hDisk hHere hRun
  rcases of_on_bind_error hRun with hStop | ⟨x, w', hStep, hRest⟩
  · exact hFirst w failure w'' hDisk hHere hStop
  · have hLooked := hLooks.run hStep
    exact hNext x (hGives w x w' hDisk hHere hStep) w' failure w'' (hLooked.disk.trans hDisk)
      (hLooked.here.trans hHere) hRest

/-- Going on from any result. -/
theorem Fails.next {a : Action α} {f : α → Action β} (hFirst : Fails d here a P) (hLooks : Looks a)
    (hNext : ∀ x, Fails d here (f x) P) : Fails d here (a >>= f) P :=
  hFirst.bind hLooks (gives_true a) fun x _ => hNext x

/-- Stopping under a condition and then going on. -/
theorem Fails.unless {c : Prop} [Decidable c] {f : Failure} {next : PUnit → Action β} (hf : c → P f)
    (hNext : ¬ c → Fails d here (next ⟨⟩) P) :
    Fails d here (if c then throw f >>= next else next ⟨⟩) P := by
  split
  · next hc =>
    refine (fails_throw (hf hc)).bind (looks_throw f) (gives_throw (P := fun _ => False) f) ?_
    exact fun _ hFalse => hFalse.elim
  · next hc => exact hNext hc

/-- Going on from one of two actions. -/
theorem fails_choice {c : Prop} [Decidable c] {a b : Action α} {next : α → Action β}
    (ha : Fails d here (a >>= next) P) (hb : Fails d here (b >>= next) P) :
    Fails d here (if c then a >>= next else b >>= next) P := by
  split
  · exact ha
  · exact hb

/-- Going on with what never stops. -/
theorem Fails.then_unstoppable {a : Action α} {f : α → Action β} (hFirst : Fails d here a P)
    (hNext : ∀ x, StopsBy (fun _ => False) (f x)) : Fails d here (a >>= f) P := by
  intro w failure w'' hDisk hHere hRun
  rcases of_on_bind_error hRun with hStop | ⟨x, w', -, hRest⟩
  · exact hFirst w failure w'' hDisk hHere hStop
  · exact (hNext x w' failure w'' hRest).elim

/-- A loop stops for what a turn for one of the elements stops for. -/
theorem stopsBy_forM {f : α → Action PUnit} {xs : List α} (hEach : ∀ x ∈ xs, StopsBy P (f x)) :
    StopsBy P (xs.forM f) := by
  induction xs with
  | nil => exact stopsBy_pure _
  | cons x xs ih =>
      exact (hEach x (List.mem_cons_self ..)).bind fun _ => ih fun y hy => hEach y (List.mem_cons_of_mem _ hy)

/-- The same for several actions that give results. As each only looks, all
find one disk. -/
theorem fails_mapM {f : α → Action β} {xs : List α} (hLooks : ∀ x, Looks (f x))
    (hEach : ∀ x ∈ xs, Fails d here (f x) P) : Fails d here (xs.mapM f) P := by
  induction xs with
  | nil => exact fails_pure _
  | cons x xs ih =>
      rw [List.mapM_cons]
      refine (hEach x (List.mem_cons_self ..)).next (hLooks x) fun y => ?_
      exact (ih fun x hx => hEach x (List.mem_cons_of_mem _ hx)).next (looks_mapM hLooks xs) fun ys => fails_pure _

/-- The same for a loop that carries a state along. -/
theorem fails_foldlM {f : β → α → Action β} {xs : List α} (hLooks : ∀ y x, Looks (f y x))
    (hEach : ∀ y, ∀ x ∈ xs, Fails d here (f y x) P) (y : β) : Fails d here (xs.foldlM f y) P := by
  induction xs generalizing y with
  | nil => exact fails_pure _
  | cons x xs ih =>
      rw [List.foldlM_cons]
      exact (hEach y x (List.mem_cons_self ..)).next (hLooks y x)
        (ih fun y x hx => hEach y x (List.mem_cons_of_mem _ hx))

/-- The same for a filter that asks about each element. -/
theorem fails_filterM {f : α → Action Bool} (hLooks : ∀ x, Looks (f x)) (hEach : ∀ x, Fails d here (f x) P)
    (xs : List α) : Fails d here (xs.filterM f) P := by
  have hAux (kept : List α) : Fails d here (xs.filterAuxM f kept) P := by
    induction xs generalizing kept with
    | nil => exact fails_pure _
    | cons x xs ih =>
        rw [List.filterAuxM]
        exact (hEach x).next (hLooks x) fun b => ih _
  exact (hAux []).next (Moves.filterAuxM World.Looked.refl hLooks xs []) fun _ => fails_pure _

/-- What is kept has passed the test. -/
theorem gives_filterM {f : α → Action Bool} {R : α → Prop} (hLooks : ∀ x, Looks (f x))
    (hEach : ∀ x, Gives d here (f x) fun b => b = true → R x) (xs : List α) :
    Gives d here (xs.filterM f) fun ys => ∀ y ∈ ys, y ∈ xs ∧ R y := by
  have hAux (kept : List α) : Gives d here (xs.filterAuxM f kept) fun ys =>
      ∀ y ∈ ys, y ∈ kept ∨ y ∈ xs ∧ R y := by
    induction xs generalizing kept with
    | nil => exact gives_pure fun y hy => .inl hy
    | cons x xs ih =>
        rw [List.filterAuxM]
        refine (hEach x).bind (hLooks x) fun b hb => (ih _).mono fun ys hys y hy => ?_
        rcases hys y hy with hKept | ⟨hLater, hR⟩
        · cases b with
          | false => exact .inl hKept
          | true =>
              rcases List.mem_cons.mp hKept with rfl | hKept
              · exact .inr ⟨List.mem_cons_self .., hb rfl⟩
              · exact .inl hKept
        · exact .inr ⟨List.mem_cons_of_mem _ hLater, hR⟩
  refine (hAux []).bind (Moves.filterAuxM World.Looked.refl hLooks xs []) fun ys hys => gives_pure fun y hy => ?_
  exact (hys y (List.mem_reverse.mp hy)).resolve_left List.not_mem_nil

theorem fails_ask (hRefusal : ∀ e, P (.system e)) (question : Disk → Path → Except Errno Bool) (p : Path) :
    Fails d here (ask question p) P := by
  refine fails_of_stopsBy ((stopsBy_ask question p).mono ?_)
  rintro f ⟨e, rfl⟩
  exact hRefusal e

/-- A path has no canonical form for one of two reasons: links that lead in
a circle, or a NUL character in a name. -/
theorem fails_canonical {p : Path} (hCircle : d.canonical (here.join p) = .error .circle → P .linkCircle)
    (hNul : d.canonical (here.join p) = .error .nul → P .nulInPath) : Fails d here (canonical p) P := by
  rintro w f w' rfl rfl hRun
  rw [canonical_on] at hRun
  split at hRun
  · cases hRun
  · next hError =>
    obtain rfl := Except.error.inj (Prod.mk.inj hRun).1
    exact hCircle hError
  · next hError =>
    obtain rfl := Except.error.inj (Prod.mk.inj hRun).1
    exact hNul hError

/-- An action that looks moves no working directory. -/
theorem stays_of_looks {a : Action α} (hLooks : Looks a) : Moves World.Stays a :=
  hLooks.mono fun hLooked => hLooked.here

/-- After an action that may write only the working directory is known. -/
theorem fails_bind_written {a : Action α} {f : α → Action β} (hFirst : ∀ d, Fails d here a P)
    (hStays : Moves World.Stays a) (hNext : ∀ x d, Fails d here (f x) P) (d : Disk) :
    Fails d here (a >>= f) P := by
  intro w failure w'' _ hHere hRun
  rcases of_on_bind_error hRun with hStop | ⟨x, w', hStep, hRest⟩
  · exact hFirst w.disk w failure w'' rfl hHere hStop
  · exact hNext x w'.disk w' failure w'' rfl ((hStays.run hStep).trans hHere) hRest

end Action

end SourceAtlas
