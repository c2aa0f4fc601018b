import SourceAtlas.Disk.Canonical
import SourceAtlas.Proofs.Disk.Lookup

/-!
The names in canonical paths. They come from the path that is given and from the links on the way,
and steps up are gone.
-/
namespace SourceAtlas.Disk

variable {d : Disk}

/-- Every place that links are known to stand for is made of parts. -/
def KnownParts (known : Known) : Prop := ∀ q ∈ known, ∀ goal, q.2 = some goal → ∀ n ∈ goal, IsPart n

/-- What is reached is made of parts, and so is all that is known then. -/
structure Canonical.Parted (c : Canonical) : Prop where
  place : ∀ n ∈ c.place, IsPart n
  known : KnownParts c.known

theorem KnownParts.cons_none {known : Known} (hKnown : KnownParts known) (p : Place) :
    KnownParts ((p, none) :: known) := by
  intro q hq goal hGoal
  rcases List.mem_cons.mp hq with rfl | hq
  · cases hGoal
  · exact hKnown q hq goal hGoal

theorem KnownParts.cons_some {known : Known} (hKnown : KnownParts known) (p : Place) {goal : Place}
    (hParts : ∀ n ∈ goal, IsPart n) : KnownParts ((p, some goal) :: known) := by
  intro q hq goal' hGoal
  rcases List.mem_cons.mp hq with rfl | hq
  · exact Option.some.inj hGoal ▸ hParts
  · exact hKnown q hq goal' hGoal

theorem isPart_of_mem_append {xs ys : List Text} (hxs : ∀ n ∈ xs, IsPart n)
    (hys : ∀ n ∈ ys, IsPart n) : ∀ n ∈ xs ++ ys, IsPart n := by
  intro n hn
  rcases List.mem_append.mp hn with hn | hn
  · exact hxs n hn
  · exact hys n hn

/-- Names are followed to a place made of parts, if links are. -/
theorem canonicalNames_parted {onLink : Known → Place → List Text → Canonical}
    (hLink : ∀ known here names, KnownParts known → (∀ n ∈ here, IsPart n) →
      (∀ n ∈ names, IsPart n) → (onLink known here names).Parted)
    {known : Known} {here : Place} {names : List Text} (hKnown : KnownParts known)
    (hHere : ∀ n ∈ here, IsPart n) (hNames : ∀ n ∈ names, IsPart n) :
    (canonicalNames d onLink known here names).Parted := by
  induction names generalizing known here with
  | nil => exact ⟨hHere, hKnown⟩
  | cons name rest ih =>
      have hRest : ∀ n ∈ rest, IsPart n := fun n hn => hNames n (List.mem_cons_of_mem _ hn)
      have hPlace : ∀ n ∈ here ++ [name], IsPart n :=
        isPart_of_mem_append hHere (by simpa using hNames name (List.mem_cons_self ..))
      rw [canonicalNames]
      split
      · exact ih hKnown (fun n hn => hHere n (List.mem_of_mem_dropLast hn)) hRest
      · simp only
        split
        · next target _ =>
          split
          · next goal hGoal =>
            obtain ⟨before, after, hSplit, -⟩ := List.lookup_eq_some_iff.mp hGoal
            exact ih hKnown (hKnown (here ++ [name], some goal) (by simp [hSplit]) goal rfl) hRest
          · exact ⟨isPart_of_mem_append hPlace hRest, hKnown⟩
          · have hStart : ∀ n ∈ (if (Path.parse target).isAbsolute then [] else here), IsPart n := by
              split
              · simp
              · exact hHere
            have hReached := hLink _ _ _ (hKnown.cons_none (here ++ [name])) hStart
              (Path.parse_readable target)
            generalize (if (Path.parse target).isAbsolute then [] else here) = start at hReached ⊢
            split
            · exact ih (hReached.known.cons_some _ hReached.place) hReached.place hRest
            · exact ⟨isPart_of_mem_append hReached.place hRest, hReached.known⟩
        · exact ih hKnown hPlace hRest

theorem canonicalFrom_parted (depth : Nat) {known : Known} {here : Place} {names : List Text}
    (hKnown : KnownParts known) (hHere : ∀ n ∈ here, IsPart n) (hNames : ∀ n ∈ names, IsPart n) :
    (canonicalFrom d depth known here names).Parted := by
  induction depth generalizing known here names with
  | zero =>
      refine canonicalNames_parted (fun known here names hKnown hHere hNames => ?_) hKnown hHere hNames
      exact ⟨isPart_of_mem_append hHere hNames, hKnown⟩
  | succ depth ih => exact canonicalNames_parted (fun _ _ _ => ih) hKnown hHere hNames

theorem canonical_eq {p q : Path} (hCanonical : d.canonical p = .ok q) :
    q = (Path.mk .root (d.canonicalFrom (d.linkCount + 1) [] [] p.parts).place).normalize := by
  rw [canonical] at hCanonical
  split at hCanonical
  · cases hCanonical
  · simp only at hCanonical
    split at hCanonical
    · cases hCanonical
    · exact (Except.ok.inj hCanonical).symm

theorem canonical_anchor {p q : Path} (hCanonical : d.canonical p = .ok q) : q.anchor = .root := by
  rw [canonical_eq hCanonical]
  rfl

theorem canonical_isAbsolute {p q : Path} (hCanonical : d.canonical p = .ok q) : q.isAbsolute = true := by
  simp [Path.isAbsolute, canonical_anchor hCanonical]

/-- No step up is left in a canonical path. -/
theorem canonical_no_up {p q : Path} (hCanonical : d.canonical p = .ok q) : (".." : Text) ∉ q.parts := by
  intro hUp
  rw [canonical_eq hCanonical] at hUp
  exact (Path.mem_collapse List.not_mem_nil hUp).2 rfl

/-- The canonical form of a path made of parts is made of names. -/
theorem canonical_named {p q : Path} (hParts : p.Readable) (hCanonical : d.canonical p = .ok q) :
    q.Named := by
  rw [canonical_eq hCanonical]
  refine Path.normalize_named rfl ?_
  exact (canonicalFrom_parted _ (by simp [KnownParts]) (by simp) hParts).place

/-- A canonical path to an entry is made of names, whatever path
it was made from. -/
theorem named_of_locate {p q : Path} (hProper : d.Proper) (hCanonical : d.canonical p = .ok q)
    {followLast : Bool} {place : Place} {item : Item}
    (hLocate : d.locate followLast q = .ok (.found place item)) : q.Named := by
  intro n hn
  rcases (locate_eq_ok_iff.mp hLocate).2.2.names_of_found hProper n hn with rfl | hName
  · exact absurd hn (canonical_no_up hCanonical)
  · exact hName

end SourceAtlas.Disk
