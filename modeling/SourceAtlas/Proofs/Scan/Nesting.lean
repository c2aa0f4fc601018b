import SourceAtlas.Proofs.Scan.Exact

/-!
Ignore modes nest: the more ignore files a scan respects, the fewer files it finds. Scans of one world are
taken side by side. They go the same way through the directories whatever they ignore, and a file is left
out as soon as one of the ignore files says so. Of the rules nothing matters but that an ignore file says
the same of a path whenever it is read.
-/
namespace SourceAtlas

namespace Action

variable {α β γ δ : Type} {w v u : World}

/-- Where two actions both give a result on a world, their results are
related, and they leave one world. -/
def Abreast (R : α → β → Prop) (a : Action α) (b : Action β) : Prop :=
  ∀ w x y v u, a.on w = (.ok x, v) → b.on w = (.ok y, u) → R x y ∧ v = u

theorem abreast_pure {R : α → β → Prop} {x : α} {y : β} (hRelated : R x y) :
    Abreast R (pure x : Action α) (pure y) := by
  rintro w x' y' v u ⟨⟩ ⟨⟩
  exact ⟨hRelated, rfl⟩

/-- An action that only fails is abreast of every other. -/
theorem abreast_throw_left {R : α → β → Prop} (f : Failure) (b : Action β) :
    Abreast R (throw f : Action α) b := by
  rintro w x y v u ⟨⟩

theorem abreast_throw_right {R : α → β → Prop} (a : Action α) (f : Failure) :
    Abreast R a (throw f : Action β) := by
  rintro w x y v u - ⟨⟩

theorem abreast_self (a : Action α) : Abreast Eq a a := by
  intro w x y v u hRun hRun'
  obtain ⟨hSame, rfl⟩ := Prod.mk.inj (hRun.symm.trans hRun')
  exact ⟨Except.ok.inj hSame, rfl⟩

/-- Actions go abreast one after the other, if the later ones do on all
results that are related. -/
theorem Abreast.bind {R : α → β → Prop} {S : γ → δ → Prop} {a : Action α} {b : Action β} {f : α → Action γ}
    {g : β → Action δ} (hFirst : Abreast R a b) (hNext : ∀ x y, R x y → Abreast S (f x) (g y)) :
    Abreast S (a >>= f) (b >>= g) := by
  intro w z z' v u hRun hRun'
  obtain ⟨x, w₁, hOne, hRest⟩ := of_on_bind hRun
  obtain ⟨y, w₂, hOther, hRest'⟩ := of_on_bind hRun'
  obtain ⟨hRelated, rfl⟩ := hFirst _ _ _ _ _ hOne hOther
  exact hNext x y hRelated _ _ _ _ _ hRest hRest'

/-- After one and the same action, what goes abreast on each of its results
goes abreast. -/
theorem abreast_bind_self {S : γ → δ → Prop} {a : Action α} {f : α → Action γ} {g : α → Action δ}
    (hNext : ∀ x, Abreast S (f x) (g x)) : Abreast S (a >>= f) (a >>= g) := by
  apply (abreast_self a).bind
  rintro x _ rfl
  exact hNext x

/-- Actions on each member of a list go abreast if they do for each member. -/
theorem abreast_mapM {R : β → γ → Prop} {f : α → Action β} {g : α → Action γ} (xs : List α)
    (hEach : ∀ x, Abreast R (f x) (g x)) : Abreast (List.Forall₂ R) (xs.mapM f) (xs.mapM g) := by
  induction xs with
  | nil => exact abreast_pure .nil
  | cons x xs ih =>
      rw [List.mapM_cons, List.mapM_cons]
      apply (hEach x).bind
      intro y z hRelated
      apply ih.bind
      intro ys zs hRest
      exact abreast_pure (.cons hRelated hRest)

/-- Results of actions that change nothing are those that each action gives
on the world as it is. -/
theorem forall₂_of_still {f : α → Action β} (hStill : ∀ x, Moves Eq (f x)) {xs : List α} {ys : List β}
    (hRun : (xs.mapM f).on w = (.ok ys, v)) : List.Forall₂ (fun x y => (f x).on w = (.ok y, w)) xs ys := by
  induction xs generalizing ys v with
  | nil =>
      obtain ⟨hNil, -⟩ := Prod.mk.inj hRun
      obtain rfl := Except.ok.inj hNil
      exact .nil
  | cons x xs ih =>
      rw [List.mapM_cons] at hRun
      obtain ⟨y, w₁, hFirst, hRest⟩ := of_on_bind hRun
      obtain ⟨zs, w₂, hOthers, hLast⟩ := of_on_bind hRest
      obtain rfl := (hStill x).run hFirst
      obtain ⟨hSame, -⟩ := Prod.mk.inj hLast
      obtain rfl := Except.ok.inj hSame
      exact .cons hFirst (ih hOthers)

theorem mem_filterAuxM {f : α → Action Bool} (hStill : ∀ x, Moves Eq (f x)) {xs kept ys : List α}
    (hRun : (xs.filterAuxM f kept).on w = (.ok ys, v)) {x : α}
    (hx : x ∈ kept ∨ x ∈ xs ∧ (f x).on w = (.ok true, w)) : x ∈ ys := by
  induction xs generalizing kept with
  | nil =>
      obtain ⟨hSame, -⟩ := Prod.mk.inj hRun
      obtain rfl := Except.ok.inj hSame
      simpa using hx
  | cons x' xs ih =>
      rw [List.filterAuxM] at hRun
      obtain ⟨b, w₁, hFirst, hRest⟩ := of_on_bind hRun
      obtain rfl := (hStill x').run hFirst
      apply ih hRest
      rcases hx with hKept | ⟨hMember, hTrue⟩
      · left
        cases b <;> simp [hKept]
      · rcases List.mem_cons.mp hMember with rfl | hMember
        · obtain ⟨hSame, -⟩ := Prod.mk.inj (hFirst.symm.trans hTrue)
          obtain rfl := Except.ok.inj hSame
          simp
        · exact .inr ⟨hMember, hTrue⟩

/-- A member for which a test holds is kept, where testing changes nothing. -/
theorem mem_filterM {f : α → Action Bool} (hStill : ∀ x, Moves Eq (f x)) {xs ys : List α}
    (hRun : (xs.filterM f).on w = (.ok ys, v)) {x : α} (hx : x ∈ xs) (hTrue : (f x).on w = (.ok true, w)) :
    x ∈ ys := by
  obtain ⟨kept, w₁, hAux, hLast⟩ := of_on_bind hRun
  obtain ⟨hSame, -⟩ := Prod.mk.inj hLast
  obtain rfl := Except.ok.inj hSame
  rw [List.mem_reverse]
  exact mem_filterAuxM hStill hAux (.inr ⟨hx, hTrue⟩)

end Action

open SourceAtlas.Action

namespace IgnoreFile

variable {p : Path} {fs gs : List IgnoreFile}

/-- What one ignore file says of a path. -/
def verdict (p : Path) (f : IgnoreFile) : Except Pattern.Ignore.Broken Bool :=
  match p.relativeTo? f.directory with
  | none => .ok false
  | some relative => Pattern.Ignore.ignores f.rules relative.text

/-- Whether one of several ignore files ignores a path is the verdict of the
first, or what the rest of them say if it does not. -/
theorem anyIgnores_cons (p : Path) (f : IgnoreFile) (fs : List IgnoreFile) :
    anyIgnores p (f :: fs) = match verdict p f with
      | .error e => .error e
      | .ok true => .ok true
      | .ok false => anyIgnores p fs := by
  rw [anyIgnores, verdict]
  cases p.relativeTo? f.directory <;> rfl

/-- A path is ignored only if one of the files says so. -/
theorem exists_of_anyIgnores (hIgnores : anyIgnores p fs = .ok true) : ∃ f ∈ fs, verdict p f = .ok true := by
  induction fs with
  | nil => cases hIgnores
  | cons f fs ih =>
      rw [anyIgnores_cons] at hIgnores
      split at hIgnores
      · cases hIgnores
      · next hVerdict => exact ⟨f, List.mem_cons_self .., hVerdict⟩
      · obtain ⟨g, hg, hVerdict⟩ := ih hIgnores
        exact ⟨g, List.mem_cons_of_mem _ hg, hVerdict⟩

/-- If one of the files says so, no answer but that is given. -/
theorem anyIgnores_of_verdict {b : Bool} {f : IgnoreFile} (hf : f ∈ gs) (hVerdict : verdict p f = .ok true)
    (hAnswer : anyIgnores p gs = .ok b) : b = true := by
  induction gs with
  | nil => cases hf
  | cons g gs ih =>
      rw [anyIgnores_cons] at hAnswer
      split at hAnswer
      · cases hAnswer
      · exact (Except.ok.inj hAnswer).symm
      · next hSilent =>
        rcases List.mem_cons.mp hf with rfl | hf
        · rw [hVerdict] at hSilent
          cases hSilent
        · exact ih hf hAnswer

/-- More ignore files ignore no less, for a path is ignored as soon as one
of them says so. -/
theorem anyIgnores_mono {b : Bool} (hSubset : fs ⊆ gs) (hIgnores : anyIgnores p fs = .ok true)
    (hAnswer : anyIgnores p gs = .ok b) : b = true := by
  obtain ⟨f, hf, hVerdict⟩ := exists_of_anyIgnores hIgnores
  exact anyIgnores_of_verdict (hSubset hf) hVerdict hAnswer

/-- Loading an ignore file changes nothing in the world. -/
theorem still_load (path : Path) : Moves Eq (load path) := Scan.moves_ignoreFile_load (fun _ => rfl) still_entry path

/-- The ignore files that are read are those in their files. -/
theorem mem_loaded {files : List Path} {loaded : List IgnoreFile} {w v : World}
    (hRun : (files.mapM load).on w = (.ok loaded, v)) (f : IgnoreFile) :
    f ∈ loaded ↔ ∃ file ∈ files, (load file).on w = (.ok f, w) := by
  have hEach := forall₂_of_still still_load hRun
  constructor
  · exact exists_of_forall₂_right hEach
  · rintro ⟨file, hFile, hLoad⟩
    obtain ⟨g, hg, hLoad'⟩ := exists_of_forall₂_right hEach.flip hFile
    obtain ⟨hSame, -⟩ := Prod.mk.inj (hLoad.symm.trans hLoad')
    rwa [Except.ok.inj hSame]

/-- The ignore file of the root is among those at any depth. -/
theorem collect_subset {start : Path} {w v u : World} (hAlone : (collect start false).on w = (.ok fs, v))
    (hNested : (collect start true).on w = (.ok gs, u)) : fs ⊆ gs := by
  obtain ⟨present, w₁, hAsk, hLoad⟩ := of_on_bind hAlone
  obtain rfl := (still_ask _ _).run hAsk
  obtain ⟨files, w₂, hFiles, hLoad'⟩ := of_on_bind hNested
  rw [allBelow, on_bind_ok (on_get _)] at hFiles
  obtain ⟨kept, w₃, hKept, hSort⟩ := of_on_bind hFiles
  obtain rfl := (Moves.filterM (fun _ => rfl) (fun _ => still_ask _ _) _).run hKept
  obtain ⟨hSorted, rfl⟩ := Prod.mk.inj hSort
  obtain rfl := Except.ok.inj hSorted
  intro f hf
  obtain ⟨file, hFile, hLoaded⟩ := (mem_loaded hLoad f).mp hf
  refine (mem_loaded hLoad' f).mpr ⟨file, ?_, hLoaded⟩
  obtain ⟨rfl, rfl⟩ : present = true ∧ file = start.join (Path.parse fileName) := by
    cases present <;> simp_all
  rw [Sorting.mem_sort]
  refine mem_filterM (fun _ => still_ask _ _) hKept ?_ hAsk
  exact List.mem_map.mpr ⟨start.parts, List.mem_cons_self .., rfl⟩

end IgnoreFile

def ScanOptions.mode (o : ScanOptions) (respect nested : Bool) : ScanOptions :=
  { o with respectIgnore := respect, nestedIgnore := nested }

namespace Scan

variable {o : ScanOptions} {fs gs : List IgnoreFile}

/-- A scan finds no other files than another, in the same order, and the
same faults. -/
structure Narrower (s t : Scan) : Prop where
  files : s.files.Sublist t.files
  faults : s.faults = t.faults

theorem Narrower.refl (s : Scan) : Narrower s s := ⟨.refl _, rfl⟩

/-- Scans put one behind another are narrower if each of them is. -/
theorem narrower_concat {parts parts' : List Scan} (hParts : List.Forall₂ Narrower parts parts') :
    Narrower (concat parts) (concat parts') := by
  induction hParts with
  | nil => exact .refl _
  | cons hFirst _ ih => exact ⟨hFirst.files.append ih.files, congrArg₂ (· ++ ·) hFirst.faults ih.faults⟩

/-- A file that is found is found with fewer ignore files too: all the other
tests are the same. -/
theorem abreast_isSource (hSubset : fs ⊆ gs) (root p : Path) :
    Abreast (fun b c : Bool => b = true → c = true) (isSource o gs root p) (isSource o fs root p) := by
  rw [isSource, isSource]
  split
  · exact abreast_pure id
  refine abreast_bind_self fun isLink => ?_
  split
  · exact abreast_pure id
  refine abreast_bind_self fun isFile => ?_
  split
  · exact abreast_pure id
  refine abreast_bind_self fun isWithin => ?_
  split
  · exact abreast_pure id
  rcases hWide : IgnoreFile.anyIgnores p gs with e | _ | _
  · exact abreast_throw_left _ _
  · rcases hFew : IgnoreFile.anyIgnores p fs with e | _ | _
    · exact abreast_throw_right _ _
    · exact abreast_pure id
    · cases IgnoreFile.anyIgnores_mono hSubset hFew hWide
  · rcases hFew : IgnoreFile.anyIgnores p fs with e | _ | _
    · exact abreast_throw_right _ _
    · exact abreast_pure fun hFound => absurd hFound Bool.false_ne_true
    · exact abreast_pure id

/-- So what is found below an entry. Directories are listed at the same
turns, so they wear off the same locks. -/
theorem abreast_entry (hSubset : fs ⊆ gs) (root : Path) (depth : Nat) (p : Path) :
    Abreast Narrower (entry o gs root depth p) (entry o fs root depth p) := by
  induction depth generalizing p with
  | zero => exact abreast_pure (.refl _)
  | succ depth ih =>
      rw [entry, entry]
      refine abreast_bind_self fun isDirectory => ?_
      split
      · split
        · exact abreast_pure (.refl _)
        refine abreast_bind_self fun isLink => ?_
        split
        · exact abreast_pure (.refl _)
        refine abreast_bind_self fun entries => ?_
        split
        · exact abreast_bind_self fun _ => abreast_pure (.refl _)
        · exact (abreast_mapM _ ih).bind fun parts parts' hParts => abreast_pure (narrower_concat hParts)
      · refine (abreast_isSource hSubset root p).bind fun b c hFound => ?_
        cases b with
        | false =>
            cases c with
            | false => exact abreast_pure (.refl _)
            | true => exact abreast_pure ⟨List.nil_sublist _, rfl⟩
        | true =>
            rw [hFound rfl]
            exact abreast_pure (.refl _)

/-- Past the ignore files, the modes do not matter: they decide which of
these are read and nothing else. -/
theorem entry_mode (respect nested : Bool) : entry (o.mode respect nested) = entry o := by
  funext ignoring root depth p
  induction depth generalizing p with
  | zero => rfl
  | succ depth ih =>
      rw [entry, entry, funext ih]
      rfl

/-- A scan begins where another does, and knows the ignore
files of the other. -/
structure Warier (x y : Opening) : Prop where
  root : x.root = y.root
  entries : x.entries = y.entries
  ignoring : y.ignoring ⊆ x.ignoring

/-- Scans open abreast if the ignore files of one are among
those of the other. -/
theorem abreast_opening {o o' : ScanOptions} (root : Path)
    (hIgnoring : ∀ start, Abreast (fun gs fs => fs ⊆ gs) (ignoreFiles o start) (ignoreFiles o' start)) :
    Abreast Warier (opening o root) (opening o' root) := by
  rw [opening, opening]
  refine abreast_bind_self fun start => abreast_bind_self fun isDirectory => ?_
  cases isDirectory with
  | false => exact abreast_throw_left _ _
  | true =>
    refine abreast_bind_self fun entries => ?_
    cases entries with
    | error fault => exact abreast_throw_left _ _
    | ok entries =>
      dsimp only
      rw [opened_eq, opened_eq]
      exact (hIgnoring start).bind fun gs fs hSubset => abreast_pure ⟨rfl, rfl, hSubset⟩

/-- A mode that goes as deep and is as watchful as another respects the
ignore files of the other. -/
theorem abreast_ignoreFiles {respect nested respect' nested' : Bool} (hDeep : nested' = true → nested = true)
    (hWatchful : respect' = true → respect = true ∨ nested = true) (start : Path) :
    Abreast (fun gs fs => fs ⊆ gs) (ignoreFiles (o.mode respect nested) start)
      (ignoreFiles (o.mode respect' nested') start) := by
  intro w gs fs v u hRun hRun'
  refine ⟨?_, (ignoreFiles_world hRun).trans (ignoreFiles_world hRun').symm⟩
  have hForm (respect nested : Bool) : ignoreFiles (o.mode respect nested) start =
      if respect || nested then IgnoreFile.collect start nested else pure [] := rfl
  rw [hForm] at hRun hRun'
  by_cases hFew : (respect' || nested') = true
  · have hMore : (respect || nested) = true := by
      cases respect' <;> cases nested' <;> simp_all
    rw [if_pos hMore] at hRun
    rw [if_pos hFew] at hRun'
    by_cases hSame : nested = nested'
    · subst hSame
      obtain ⟨rfl, -⟩ := abreast_self _ _ _ _ _ _ hRun hRun'
      exact List.Subset.refl _
    · obtain ⟨rfl, rfl⟩ : nested = true ∧ nested' = false := by
        cases nested <;> cases nested' <;> simp_all
      exact IgnoreFile.collect_subset hRun' hRun
  · rw [if_neg hFew] at hRun'
    obtain rfl := Except.ok.inj (Prod.mk.inj hRun').1
    exact List.nil_subset _

/-- Two scans of one world have one root, and the scan in the mode with more
ignore files is the narrower. -/
theorem narrower_of_modes {respect nested respect' nested' : Bool} (hDeep : nested' = true → nested = true)
    (hWatchful : respect' = true → respect = true ∨ nested = true) {root : Path} {found found' : Path × Scan}
    {w v u : World} (hRun : (project (o.mode respect nested) root).on w = (.ok found, v))
    (hRun' : (project (o.mode respect' nested') root).on w = (.ok found', u)) :
    found.1 = found'.1 ∧ Narrower found.2 found'.2 := by
  rw [project_eq] at hRun hRun'
  obtain ⟨x, w₁, hOpening, hWalk⟩ := of_on_bind hRun
  obtain ⟨y, w₂, hOpening', hWalk'⟩ := of_on_bind hRun'
  obtain ⟨⟨hRoot, hEntries, hSubset⟩, rfl⟩ :=
    abreast_opening root (abreast_ignoreFiles hDeep hWatchful) _ _ _ _ _ hOpening hOpening'
  rw [walk, on_bind_ok (on_get _)] at hWalk hWalk'
  obtain ⟨parts, w₃, hParts, hLast⟩ := of_on_bind hWalk
  obtain ⟨parts', w₄, hParts', hLast'⟩ := of_on_bind hWalk'
  rw [entry_mode, hEntries, hRoot] at hParts
  rw [entry_mode] at hParts'
  obtain ⟨hEach, -⟩ := abreast_mapM _ (abreast_entry hSubset _ _) _ _ _ _ _ hParts hParts'
  obtain ⟨hFound, -⟩ := Prod.mk.inj hLast
  obtain ⟨hFound', -⟩ := Prod.mk.inj hLast'
  obtain rfl := Except.ok.inj hFound
  obtain rfl := Except.ok.inj hFound'
  exact ⟨hRoot, narrower_concat hEach⟩

/-- How scans of one world in different modes go together, as far as they
give a result. -/
structure Nesting (w : World) (o : ScanOptions) (root : Path) : Prop where
  /-- The scan that respects all ignore files is narrower than the one that respects the root's alone, -/
  deep : ∀ respect (found alone : Path × Scan) (v u : World),
    (project (o.mode respect true) root).on w = (.ok found, v) →
    (project (o.mode true false) root).on w = (.ok alone, u) → found.1 = alone.1 ∧ Narrower found.2 alone.2
  /-- which is narrower than the one that respects none; -/
  alone : ∀ (found plain : Path × Scan) (v u : World),
    (project (o.mode true false) root).on w = (.ok found, v) →
    (project (o.mode false false) root).on w = (.ok plain, u) → found.1 = plain.1 ∧ Narrower found.2 plain.2
  /-- and so is the first, whether or not the one in between comes through. -/
  ends : ∀ respect (found plain : Path × Scan) (v u : World),
    (project (o.mode respect true) root).on w = (.ok found, v) →
    (project (o.mode false false) root).on w = (.ok plain, u) → found.1 = plain.1 ∧ Narrower found.2 plain.2

/-- Ignore modes nest. -/
theorem modes_nest (w : World) (o : ScanOptions) (root : Path) : Nesting w o root where
  deep _ _ _ _ _ hRun hRun' := narrower_of_modes (by simp) (by simp) hRun hRun'
  alone _ _ _ _ hRun hRun' := narrower_of_modes (by simp) (by simp) hRun hRun'
  ends _ _ _ _ _ hRun hRun' := narrower_of_modes (by simp) (by simp) hRun hRun'

namespace Sample

/-- A project with an ignore file behind a link, another further down, and a
directory that cannot be listed at once. -/
def littered : World where
  disk := ⟨[(["p"], .directory), (["p", ".gitignore"], .link "rules"),
    (["p", "rules"], .file (Text.Utf8.encode "b.ts") 1), (["p", "a.ts"], .file [] 2), (["p", "b.ts"], .file [] 3),
    (["p", "s"], .directory), (["p", "s", ".gitignore"], .file (Text.Utf8.encode "c.ts") 4),
    (["p", "s", "c.ts"], .file [] 5), (["p", "s", "d.ts"], .file [] 6), (["p", "t"], .directory)]⟩
  here := ⟨⟨.root, []⟩, []⟩
  locks := [("/p/t", 1)]
  watch := ⟨0, 1⟩

def gathered (respect nested : Bool) : Except Failure (Path × Scan) × World :=
  (project (ScanOptions.mode {} respect nested) ⟨.root, ["p"]⟩).on littered

/-- The texts of the files that were found, and how many directories could
not be listed. -/
def tally (found : Path × Scan) : List Text × Nat := (found.2.files.map Path.text, found.2.faults.length)

/-- Without ignore files all four files are found. -/
theorem gathered_plain : passes
    (fun found _ => tally found = ((["/p/a.ts", "/p/b.ts", "/p/s/c.ts", "/p/s/d.ts"] : List Text), 1))
    (gathered false false) = true := by
  decide +kernel

/-- The ignore file of the root takes one of them away. -/
theorem gathered_alone : passes (fun found _ => tally found = ((["/p/a.ts", "/p/s/c.ts", "/p/s/d.ts"] : List Text), 1))
    (gathered true false) = true := by
  decide +kernel

/-- With nested ignore files another one goes, and the directory that cannot
be listed is reported each time. -/
theorem gathered_deep : passes (fun found _ => tally found = ((["/p/a.ts", "/p/s/d.ts"] : List Text), 1))
    (gathered false true) = true := by
  decide +kernel

/-- Each mode finds one file less than the one before it, and so the modes
differ in that project. -/
theorem littered_nests : ∃ (deep alone plain : Path × Scan) (w₂ w₁ w₀ : World),
    gathered false true = (.ok deep, w₂) ∧ gathered true false = (.ok alone, w₁) ∧
      gathered false false = (.ok plain, w₀) ∧ Narrower deep.2 alone.2 ∧ Narrower alone.2 plain.2 ∧
        deep.2.files.length < alone.2.files.length ∧ alone.2.files.length < plain.2.files.length := by
  obtain ⟨deep, w₂, hDeep, hTally₂⟩ := exists_of_passes gathered_deep
  obtain ⟨alone, w₁, hAlone, hTally₁⟩ := exists_of_passes gathered_alone
  obtain ⟨plain, w₀, hPlain, hTally₀⟩ := exists_of_passes gathered_plain
  have hNesting := modes_nest littered {} ⟨.root, ["p"]⟩
  have hLength {found : Path × Scan} {texts : List Text} {n : Nat} (hTally : tally found = (texts, n)) :
      found.2.files.length = texts.length := by
    rw [← (Prod.mk.inj hTally).1, List.length_map]
  refine ⟨deep, alone, plain, w₂, w₁, w₀, hDeep, hAlone, hPlain, (hNesting.deep _ _ _ _ _ hDeep hAlone).2,
    (hNesting.alone _ _ _ _ hAlone hPlain).2, ?_, ?_⟩
  · rw [hLength (of_decide_eq_true hTally₂), hLength (of_decide_eq_true hTally₁)]
    decide
  · rw [hLength (of_decide_eq_true hTally₁), hLength (of_decide_eq_true hTally₀)]
    decide

end Sample

end Scan

end SourceAtlas
