import SourceAtlas.Proofs.Disk.Canonical
import SourceAtlas.Proofs.World.Stopping

/-!
Paths as the program is given them. A home is put in for a tilde first, and the canonical form is
that of the path then; a path from the root names no home.
-/
namespace SourceAtlas

namespace Standpoint

variable {here : Standpoint} {d : Disk} {p q : Path} {f : Failure}

/-- A path from the root has no first name that could be a home. -/
theorem expand_of_absolute (hAbsolute : p.isAbsolute = true) (here : Standpoint) : here.expand p = .ok p := by
  have hAnchor : p.anchor ≠ .none := by simpa [Path.isAbsolute] using hAbsolute
  rw [expand]
  split
  · next hNone _ => exact absurd hNone hAnchor
  · rfl

/-- A home is put in unless there is none, or its name has a NUL character. -/
theorem expand_error (hExpand : here.expand p = .error f) : f = .homeless ∨ f = .nulInPath := by
  rw [expand] at hExpand
  split at hExpand
  · split at hExpand
    · exact .inr (Except.error.inj hExpand).symm
    · split at hExpand
      · exact .inl (Except.error.inj hExpand).symm
      · split at hExpand
        · exact .inl (Except.error.inj hExpand).symm
        · cases hExpand
  · cases hExpand

/-- A path has a canonical form if it names a home that there is, if it
names one at all, and leads in no circle then. -/
theorem resolve_eq_ok_iff :
    here.resolve d p = .ok q ↔ ∃ e, here.expand p = .ok e ∧ d.canonical (here.join e) = .ok q := by
  rw [resolve]
  rcases here.expand p with f | e
  · simp [bind, Except.bind]
  · simp only [bind, Except.bind, Except.ok.injEq, exists_eq_left']
    rcases d.canonical (here.join e) with (_ | _) | path <;> simp

/-- A path has no canonical form if it names a home that there is not, leads
in a circle or has a name that the system does not take. -/
theorem resolve_eq_error_iff : here.resolve d p = .error f ↔ here.expand p = .error f ∨
    ∃ e, here.expand p = .ok e ∧ (d.canonical (here.join e) = .error .circle ∧ f = .linkCircle ∨
      d.canonical (here.join e) = .error .nul ∧ f = .nulInPath) := by
  rw [resolve]
  rcases here.expand p with f' | e
  · simp [bind, Except.bind]
  · simp only [bind, Except.bind, Except.ok.injEq, exists_eq_left', reduceCtorEq, false_or]
    rcases d.canonical (here.join e) with (_ | _) | path <;> simp [eq_comm]

/-- For a path from the root the canonical form is the one that the disk
gives, wherever the program stands. -/
theorem resolve_of_absolute (hAbsolute : p.isAbsolute = true) :
    here.resolve d p = .ok q ↔ d.canonical p = .ok q := by
  rw [resolve_eq_ok_iff, expand_of_absolute hAbsolute]
  simp only [Except.ok.injEq, exists_eq_left', Path.join_of_absolute hAbsolute]

theorem resolve_isAbsolute (hResolve : here.resolve d p = .ok q) : q.isAbsolute = true := by
  obtain ⟨e, -, hCanonical⟩ := resolve_eq_ok_iff.mp hResolve
  exact Disk.canonical_isAbsolute hCanonical

/-- What is resolved begins at the root, so it can be resolved again without
a thought for homes. -/
theorem resolve_anchor (hResolve : here.resolve d p = .ok q) : q.anchor = .root := by
  obtain ⟨e, -, hCanonical⟩ := resolve_eq_ok_iff.mp hResolve
  exact Disk.canonical_anchor hCanonical

/-- A canonical path to an entry is made of names, whatever path
it was made from. -/
theorem resolve_named (hProper : d.Proper) (hResolve : here.resolve d p = .ok q) {followLast : Bool}
    {place : Place} {item : Item} (hLocate : d.locate followLast q = .ok (.found place item)) : q.Named := by
  obtain ⟨e, -, hCanonical⟩ := resolve_eq_ok_iff.mp hResolve
  exact Disk.named_of_locate hProper hCanonical hLocate

/-- On disks that give every path the same canonical form, paths lead alike. -/
theorem resolve_congr {d' : Disk} (hSame : ∀ p, d'.canonical p = d.canonical p) (p : Path) :
    here.resolve d' p = here.resolve d p := by
  simp only [resolve, hSame]

end Standpoint

namespace Action

variable {d : Disk} {here : Standpoint} {P : Failure → Prop}

/-- A home is put in without a look at the disk. -/
theorem expand_on (p : Path) (w : World) : (expand p).on w = (w.here.expand p, w) := by
  rw [expand, on_bind_ok (on_get w)]
  cases w.here.expand p <;> rfl

/-- Resolving a path only looks. The result depends on the disk and on where
the program stands. -/
theorem resolve_on (p : Path) (w : World) : (resolve p).on w = (w.here.resolve w.disk p, w) := by
  rw [resolve, on_bind_ok (on_get w), on_bind_ok (on_get w)]
  cases w.here.resolve w.disk p <;> rfl

theorem looks_expand (p : Path) : Looks (expand p) := fun w => by
  rw [expand_on]
  exact .refl w

theorem looks_resolve (p : Path) : Looks (resolve p) := fun w => by
  rw [resolve_on]
  exact .refl w

theorem gives_expand (p : Path) : Gives d here (expand p) fun q => here.expand p = .ok q := by
  rintro w q w' rfl rfl hRun
  rw [expand_on] at hRun
  exact (Prod.mk.inj hRun).1

theorem gives_resolve (p : Path) : Gives d here (resolve p) fun q => here.resolve d p = .ok q := by
  rintro w q w' rfl rfl hRun
  rw [resolve_on] at hRun
  exact (Prod.mk.inj hRun).1

/-- A path is not expanded only if its home is unknown or has a NUL
character in its name. -/
theorem fails_expand {p : Path} (hExpand : ∀ f, here.expand p = .error f → P f) : Fails d here (expand p) P := by
  rintro w f w' rfl rfl hRun
  rw [expand_on] at hRun
  exact hExpand f (Prod.mk.inj hRun).1

/-- A path is not resolved for the reasons that the standpoint
and the disk give. -/
theorem fails_resolve {p : Path} (hResolve : ∀ f, here.resolve d p = .error f → P f) :
    Fails d here (resolve p) P := by
  rintro w f w' rfl rfl hRun
  rw [resolve_on] at hRun
  exact hResolve f (Prod.mk.inj hRun).1

end Action

end SourceAtlas
