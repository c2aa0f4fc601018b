import SourceAtlas.Proofs.Disk.Canonical

/-!
What a canonical form is for. Where every link on the way can be followed to an end, the canonical
form is that end: no link is left on it, so following it leads to the place it names. The places
that links are known to stand for are never wrong, and a link is not met while it is being followed.
-/
namespace SourceAtlas

namespace Disk

variable {d : Disk} {here goal : Place} {name target : Text} {names rest : List Text} {n depth : Nat}

/-- The directory that the target of a link in a directory starts from. -/
abbrev targetStart (here : Place) (target : Text) : Place :=
  if (Path.parse target).isAbsolute then [] else here

/-- Names lead from a place to a goal in so many steps, with every link on
the way followed to an end. Names that are not there are kept. -/
inductive Resolves (d : Disk) : Nat → Place → List Text → Place → Prop
  | done {here : Place} : Resolves d 0 here [] here
  | up {n : Nat} {here goal : Place} {rest : List Text} (hRest : Resolves d n here.dropLast rest goal) :
      Resolves d (n + 1) here (".." :: rest) goal
  | plain {n : Nat} {here goal : Place} {name : Text} {rest : List Text} (hName : name ≠ "..")
      (hItem : ∀ target, d.itemAt? (here ++ [name]) ≠ some (.link target))
      (hRest : Resolves d n (here ++ [name]) rest goal) : Resolves d (n + 1) here (name :: rest) goal
  | link {m n : Nat} {here middle goal : Place} {name target : Text} {rest : List Text}
      (hName : name ≠ "..") (hItem : d.itemAt? (here ++ [name]) = some (.link target))
      (hTarget : Resolves d m (targetStart here target) (Path.parse target).parts middle)
      (hRest : Resolves d n middle rest goal) : Resolves d (m + n + 1) here (name :: rest) goal

/-- Every link on the way of a path can be followed to an end. -/
def Followable (d : Disk) (p : Path) : Prop := ∃ n goal, Resolves d n [] p.parts goal

namespace Resolves

/-- Names lead to one goal, in one number of steps. -/
theorem unique {n' : Nat} {goal' : Place} (hFirst : Resolves d n here names goal)
    (hSecond : Resolves d n' here names goal') : n = n' ∧ goal = goal' := by
  induction hFirst generalizing n' goal' with
  | done =>
      cases hSecond
      exact ⟨rfl, rfl⟩
  | up _ ih =>
      cases hSecond with
      | up hRest =>
          obtain ⟨rfl, rfl⟩ := ih hRest
          exact ⟨rfl, rfl⟩
      | plain hName => exact absurd rfl hName
      | link hName => exact absurd rfl hName
  | plain hName hItem _ ih =>
      cases hSecond with
      | up => exact absurd rfl hName
      | plain _ _ hRest =>
          obtain ⟨rfl, rfl⟩ := ih hRest
          exact ⟨rfl, rfl⟩
      | link _ hLink => exact absurd hLink (hItem _)
  | link hName hItem _ _ ihTarget ihRest =>
      cases hSecond with
      | up => exact absurd rfl hName
      | plain _ hPlain => exact absurd hItem (hPlain _)
      | link _ hLink hTarget hRest =>
          obtain rfl : _ = _ := Item.link.inj (Option.some.inj (hItem.symm.trans hLink))
          obtain ⟨rfl, rfl⟩ := ihTarget hTarget
          obtain ⟨rfl, rfl⟩ := ihRest hRest
          exact ⟨rfl, rfl⟩

end Resolves

/-- The link at a place stands for a goal, found in so many steps. -/
def StandsAt (d : Disk) (place : Place) (n : Nat) (goal : Place) : Prop :=
  ∃ here name target, place = here ++ [name] ∧ d.itemAt? place = some (.link target) ∧
    Resolves d n (targetStart here target) (Path.parse target).parts goal

/-- A link stands for the goal that its target leads to. -/
theorem StandsAt.unique {m : Nat} {goal' : Place}
    (hStands : d.StandsAt (here ++ [name]) n goal) (hItem : d.itemAt? (here ++ [name]) = some (.link target))
    (hTarget : Resolves d m (targetStart here target) (Path.parse target).parts goal') :
    n = m ∧ goal = goal' := by
  obtain ⟨here', name', target', hPlace, hItem', hResolves⟩ := hStands
  obtain ⟨rfl, hName⟩ := List.append_inj' hPlace rfl
  obtain rfl := Item.link.inj (Option.some.inj (hItem.symm.trans hItem'))
  exact hResolves.unique hTarget

/-- What is known of links is right: a goal is that of the link, and a link
without one is among those that are being followed. -/
structure Known.Sound (d : Disk) (following : List Place) (known : Known) : Prop where
  goals : ∀ q g, known.lookup q = some (some g) → ∃ n, d.StandsAt q n g
  openings : ∀ q, known.lookup q = some none → q ∈ following

/-- A link that is met is followed from then on. -/
theorem Known.Sound.opening {known : Known} {following : List Place} (hSound : known.Sound d following)
    (place : Place) : Known.Sound d (place :: following) ((place, none) :: known) where
  goals q g hq := by
    rw [List.lookup_cons] at hq
    split at hq
    · cases hq
    · exact hSound.goals q g hq
  openings q hq := by
    rw [List.lookup_cons] at hq
    split at hq
    · next hSame => exact List.mem_cons.mpr (.inl (by simpa using hSame))
    · exact List.mem_cons_of_mem _ (hSound.openings q hq)

/-- A link that was followed to its goal is followed no more. -/
theorem Known.Sound.closing {known : Known} {following : List Place} {place middle : Place}
    (hSound : known.Sound d (place :: following)) (hStands : d.StandsAt place n middle) :
    Known.Sound d following ((place, some middle) :: known) where
  goals q g hq := by
    rw [List.lookup_cons] at hq
    split at hq
    · next hSame =>
      obtain rfl := Option.some.inj (Option.some.inj hq)
      obtain rfl : q = place := by simpa using hSame
      exact ⟨n, hStands⟩
    · exact hSound.goals q g hq
  openings q hq := by
    rw [List.lookup_cons] at hq
    split at hq
    · cases hq
    · next hOther =>
      refine (List.mem_cons.mp (hSound.openings q hq)).resolve_left ?_
      rintro rfl
      simp at hOther

/-- Links that are being followed are different ones, and the way of none of
them is shorter than the way ahead. So none of them stands on the way ahead. -/
structure Pending (d : Disk) (following : List Place) (n : Nat) : Prop where
  nodup : following.Nodup
  longer : ∀ q ∈ following, ∃ m g, d.StandsAt q m g ∧ n ≤ m

/-- The shorter the way ahead, the more links may be on their way. -/
theorem Pending.mono {following : List Place} {m : Nat} (hPending : Pending d following n) (hLe : m ≤ n) :
    Pending d following m where
  nodup := hPending.nodup
  longer q hq := by
    obtain ⟨k, g, hStands, hLonger⟩ := hPending.longer q hq
    exact ⟨k, g, hStands, hLe.trans hLonger⟩

/-- A link on the way is pending while its own way is followed. -/
theorem Pending.opening {following : List Place} {place goal : Place} {m : Nat} (hPending : Pending d following n)
    (hNew : place ∉ following) (hStands : d.StandsAt place m goal) (hLe : m ≤ n) :
    Pending d (place :: following) m where
  nodup := List.nodup_cons.mpr ⟨hNew, hPending.nodup⟩
  longer q hq := by
    rcases List.mem_cons.mp hq with rfl | hq
    · exact ⟨m, goal, hStands, le_refl m⟩
    · exact (hPending.mono hLe).longer q hq

/-- A link ahead is none of those that are being followed. -/
theorem Pending.not_mem {following : List Place} {m : Nat} {middle : Place}
    (hPending : Pending d following n) (hItem : d.itemAt? (here ++ [name]) = some (.link target))
    (hTarget : Resolves d m (targetStart here target) (Path.parse target).parts middle) (hShort : m < n) :
    here ++ [name] ∉ following := by
  intro hMem
  obtain ⟨k, g, hStands, hLonger⟩ := hPending.longer _ hMem
  obtain ⟨rfl, -⟩ := hStands.unique hItem hTarget
  omega

theorem find?_of_itemAt? {q : Place} {item : Item} (hItem : d.itemAt? q = some item) :
    d.find? q = some item := by
  rw [itemAt?] at hItem
  split at hItem
  · exact hItem
  · cases hItem

/-- No more links can be followed at a time than there are on the disk. -/
theorem length_le_linkCount {following : List Place} (hNodup : following.Nodup)
    (hLinks : ∀ q ∈ following, ∃ target, d.itemAt? q = some (.link target)) :
    following.length ≤ d.linkCount := by
  obtain ⟨links, hLength, hMem⟩ : ∃ links : List (Place × Item), links.length = d.linkCount ∧
      ∀ q target, (q, .link target) ∈ d.entries → (q, .link target) ∈ links :=
    ⟨_, rfl, fun q target hEntry => List.mem_filter.mpr ⟨hEntry, rfl⟩⟩
  have hSubset : following ⊆ links.map Prod.fst := by
    intro q hq
    obtain ⟨target, hItem⟩ := hLinks q hq
    have hFind := find?_of_itemAt? hItem
    rw [find?] at hFind
    split at hFind
    · cases hFind
    · exact List.mem_map.mpr ⟨(q, .link target), hMem q target (Assoc.mem_of_get? hFind), rfl⟩
  have hCount := (hNodup.subperm hSubset).length_le
  rwa [List.length_map, hLength] at hCount

theorem canonicalFrom_nil (depth : Nat) (known : Known) (here : Place) :
    d.canonicalFrom depth known here [] = ⟨here, true, known⟩ := by
  cases depth <;> rfl

/-- A way up leads on from the directory above. -/
theorem canonicalFrom_up (depth : Nat) (known : Known) (here : Place) (rest : List Text) :
    d.canonicalFrom depth known here (".." :: rest) = d.canonicalFrom depth known here.dropLast rest := by
  cases depth <;> simp only [canonicalFrom, canonicalNames, if_true]

/-- A name that is no link leads on from the place below. -/
theorem canonicalFrom_plain (hName : name ≠ "..")
    (hItem : ∀ target, d.itemAt? (here ++ [name]) ≠ some (.link target)) (depth : Nat) (known : Known)
    (rest : List Text) : d.canonicalFrom depth known here (name :: rest) =
      d.canonicalFrom depth known (here ++ [name]) rest := by
  cases depth <;> rw [canonicalFrom, canonicalNames, if_neg hName] <;> dsimp only <;> split
  · next target hLink => exact absurd hLink (hItem target)
  · rfl
  · next target hLink => exact absurd hLink (hItem target)
  · rfl

/-- A link with a known goal is replaced by it. -/
theorem canonicalFrom_known (hName : name ≠ "..") (hItem : d.itemAt? (here ++ [name]) = some (.link target))
    {known : Known} {middle : Place} (hKnown : known.lookup (here ++ [name]) = some (some middle))
    (depth : Nat) (rest : List Text) : d.canonicalFrom depth known here (name :: rest) =
      d.canonicalFrom depth known middle rest := by
  cases depth <;> rw [canonicalFrom, canonicalNames, if_neg hName] <;> dsimp only <;>
    simp only [hItem, hKnown]

/-- A link that is met for the first time is followed, and its
goal is known then. -/
theorem canonicalFrom_link (hName : name ≠ "..") (hItem : d.itemAt? (here ++ [name]) = some (.link target))
    {known known' : Known} {middle : Place} (hKnown : known.lookup (here ++ [name]) = none)
    (hTarget : d.canonicalFrom depth ((here ++ [name], none) :: known) (targetStart here target)
      (Path.parse target).parts = ⟨middle, true, known'⟩) (rest : List Text) :
    d.canonicalFrom (depth + 1) known here (name :: rest) =
      d.canonicalFrom (depth + 1) ((here ++ [name], some middle) :: known') middle rest := by
  rw [canonicalFrom, canonicalNames, if_neg hName]
  dsimp only
  simp only [hItem, hKnown, hTarget, if_true]

/-- Names that can be followed to an end are followed there. The induction
is on the way: with each link that is followed on the way one more is
pending, and one level fewer is left. -/
theorem canonicalFrom_of_resolves (hResolves : Resolves d n here names goal) (depth : Nat) {known : Known}
    {following : List Place} (hSound : known.Sound d following) (hPending : Pending d following n)
    (hDepth : depth + following.length = d.linkCount + 1) :
    ∃ known', d.canonicalFrom depth known here names = ⟨goal, true, known'⟩ ∧ known'.Sound d following := by
  induction hResolves generalizing depth known following with
  | done => exact ⟨known, canonicalFrom_nil depth known _, hSound⟩
  | up _ ih =>
      rw [canonicalFrom_up]
      exact ih depth hSound (hPending.mono (Nat.le_succ _)) hDepth
  | plain hName hItem _ ih =>
      rw [canonicalFrom_plain hName hItem]
      exact ih depth hSound (hPending.mono (Nat.le_succ _)) hDepth
  | @link m n here middle goal name target rest hName hItem hTarget hRest ihTarget ihRest =>
      have hAfter : Pending d following n := hPending.mono (by omega)
      have hNew : here ++ [name] ∉ following := hPending.not_mem hItem hTarget (by omega)
      rcases hLookup : known.lookup (here ++ [name]) with _ | (_ | known')
      · -- one level is left, since a link that is not pending is on the disk too
        have hStands : d.StandsAt (here ++ [name]) m middle := ⟨here, name, target, rfl, hItem, hTarget⟩
        have hPending' := hPending.opening hNew hStands (by omega)
        have hCount := length_le_linkCount hPending'.nodup fun q hq => by
          obtain ⟨_, _, ⟨_, _, target, _, hLink, _⟩, _⟩ := hPending'.longer q hq
          exact ⟨target, hLink⟩
        rw [List.length_cons] at hCount
        obtain ⟨left, rfl⟩ : ∃ left, depth = left + 1 := ⟨depth - 1, by omega⟩
        obtain ⟨known₁, hReached, hSound₁⟩ := ihTarget left (hSound.opening _) hPending'
          (by rw [List.length_cons]; omega)
        rw [canonicalFrom_link hName hItem hLookup hReached]
        exact ihRest (left + 1) (hSound₁.closing hStands) hAfter hDepth
      · exact absurd (hSound.openings _ hLookup) hNew
      · obtain ⟨k, hStands⟩ := hSound.goals _ _ hLookup
        obtain ⟨-, rfl⟩ := hStands.unique hItem hTarget
        rw [canonicalFrom_known hName hItem hLookup]
        exact ihRest depth hSound hAfter hDepth

/-- There is no link on the way down to a place. -/
def LinkFree (d : Disk) (p : Place) : Prop := ∀ q, q <+: p → ∀ target, d.itemAt? q ≠ some (.link target)

theorem linkFree_root (d : Disk) : LinkFree d [] := by
  intro q hq target hLink
  obtain rfl := List.prefix_nil.mp hq
  cases find?_of_itemAt? hLink

/-- Without links down to a place there are none down to those above it. -/
theorem LinkFree.above {p q : Place} (hFree : LinkFree d p) (hPrefix : q <+: p) : LinkFree d q :=
  fun r hr => hFree r (hr.trans hPrefix)

/-- A place without links on the way, and a name there that is no link. -/
theorem LinkFree.concat (hFree : LinkFree d here)
    (hItem : ∀ target, d.itemAt? (here ++ [name]) ≠ some (.link target)) : LinkFree d (here ++ [name]) := by
  intro q hq
  rcases List.prefix_concat_iff.mp hq with rfl | hq
  · exact hItem
  · exact hFree q hq

/-- Where links are followed to their ends, no link is on the way
down to the goal. -/
theorem Resolves.linkFree (hResolves : Resolves d n here names goal) (hHere : LinkFree d here) :
    LinkFree d goal := by
  induction hResolves with
  | done => exact hHere
  | up _ ih => exact ih (hHere.above (List.dropLast_prefix _))
  | plain _ hItem _ ih => exact ih (hHere.concat hItem)
  | link _ _ _ _ ihTarget ihRest =>
      refine ihRest (ihTarget ?_)
      unfold targetStart
      split
      · exact linkFree_root d
      · exact hHere

/-- A goal found from a place without ways up has none. -/
theorem Resolves.no_up (hResolves : Resolves d n here names goal) (hHere : (".." : Text) ∉ here) : (".." : Text) ∉ goal := by
  induction hResolves with
  | done => exact hHere
  | up _ ih => exact ih fun hUp => hHere (List.mem_of_mem_dropLast hUp)
  | plain hName _ _ ih => exact ih (by simpa using ⟨hHere, hName.symm⟩)
  | link _ _ _ _ ihTarget ihRest =>
      refine ihRest (ihTarget ?_)
      unfold targetStart
      split
      · exact List.not_mem_nil
      · exact hHere

/-- Without ways up nothing is collapsed. -/
theorem collapse_of_no_up {done parts : List Text} (hParts : (".." : Text) ∉ parts) :
    Path.collapse true done parts = done.reverse ++ parts := by
  induction parts generalizing done with
  | nil => simp [Path.collapse]
  | cons part rest ih =>
      rw [List.mem_cons, not_or] at hParts
      rw [Path.collapse.eq_def]
      simp only [if_pos (Ne.symm hParts.1), ih hParts.2, List.reverse_cons, List.append_assoc,
        List.singleton_append, ne_eq]

/-- What is left of a path that can be followed once its links and steps up
are gone is its goal. -/
theorem normalize_of_resolves {p : Path} (hResolves : Resolves d n [] p.parts goal) :
    (Path.mk .root (d.canonicalFrom (d.linkCount + 1) [] [] p.parts).place).normalize = ⟨.root, goal⟩ := by
  have hSound : Known.Sound d [] [] := ⟨by simp, by simp⟩
  obtain ⟨known', hReached, -⟩ := canonicalFrom_of_resolves hResolves (d.linkCount + 1) hSound
    ⟨List.nodup_nil, by simp⟩ rfl
  rw [hReached, Path.normalize]
  exact congrArg (Path.mk .root) (collapse_of_no_up (hResolves.no_up List.not_mem_nil))

/-- The canonical form of a path that can be followed is the
goal of the path. -/
theorem canonical_of_resolves {p q : Path} (hResolves : Resolves d n [] p.parts goal)
    (hCanonical : d.canonical p = .ok q) : q = ⟨.root, goal⟩ := by
  rw [canonical_eq hCanonical, normalize_of_resolves hResolves]

/-- A way can be followed in two parts. -/
theorem Resolves.split {front : List Text} (hResolves : Resolves d n here (front ++ rest) goal) :
    ∃ m k middle, Resolves d m here front middle ∧ Resolves d k middle rest goal := by
  induction front generalizing n here with
  | nil => exact ⟨0, n, here, .done, hResolves⟩
  | cons name front ih =>
      cases hResolves with
      | up hRest =>
          obtain ⟨m, k, middle, hFront, hBack⟩ := ih hRest
          exact ⟨_, k, middle, .up hFront, hBack⟩
      | plain hName hItem hRest =>
          obtain ⟨m, k, middle, hFront, hBack⟩ := ih hRest
          exact ⟨_, k, middle, .plain hName hItem hFront, hBack⟩
      | link hName hItem hTarget hRest =>
          obtain ⟨m, k, middle, hFront, hBack⟩ := ih hRest
          exact ⟨_, k, middle, .link hName hItem hTarget hFront, hBack⟩

theorem itemAt?_of_directory (hDirectory : d.isDirectoryAt here = true) (name : Text) :
    d.itemAt? (here ++ [name]) = d.find? (here ++ [name]) := by
  rw [itemAt?, List.dropLast_concat, if_pos hDirectory]

/-- Where the system follows names to an end, their links can be
followed to that end. -/
theorem Leads.resolves {links : Nat} {a : Arrival} (hLeads : Leads d true links here names a) :
    ∃ n, Resolves d n here names a.place := by
  induction hLeads with
  | here => exact ⟨0, .done⟩
  | up _ _ ih =>
      obtain ⟨n, hRest⟩ := ih
      exact ⟨n + 1, .up hRest⟩
  | absent hDirectory hName _ hFree =>
      have hItem := itemAt?_of_directory hDirectory _ ▸ hFree
      exact ⟨1, .plain hName (by simp [hItem]) .done⟩
  | last _ _ _ _ hStop => cases hStop
  | link hDirectory hName _ hFind _ _ ih =>
      obtain ⟨n, hRest⟩ := ih
      obtain ⟨m, k, middle, hTarget, hRest⟩ := hRest.split
      exact ⟨m + k + 1, .link hName ((itemAt?_of_directory hDirectory _).trans hFind) hTarget hRest⟩
  | down hDirectory hName _ hFind hItem _ ih =>
      obtain ⟨n, hRest⟩ := ih
      have hSame := (itemAt?_of_directory hDirectory _).trans hFind
      exact ⟨n + 1, .plain hName (by simpa [hSame] using hItem) hRest⟩

/-- On the way down to a place without links none is met, so there
are never too many. -/
theorem follow_of_linkFree {followLast : Bool} (links : Nat) (hFree : LinkFree d (here ++ names))
    (hUp : (".." : Text) ∉ names) : d.follow followLast links here names ≠ .error (.errno .linkLoop) := by
  have hNames (onLink : Place → List Text → Except Refusal Arrival) :
      followNames d followLast onLink here names ≠ .error (.errno .linkLoop) := by
    induction names generalizing here with
    | nil =>
        rw [followNames]
        split <;> simp
    | cons name rest ih =>
        rw [List.mem_cons, not_or] at hUp
        rw [followNames, if_neg (Ne.symm hUp.1)]
        split
        · simp
        next hDirectory =>
        split
        · simp
        dsimp only
        split
        · split <;> simp
        · next target hFind =>
          refine absurd (hFind ▸ itemAt?_of_directory (by simpa using hDirectory) name) (hFree _ ⟨rest, by simp⟩ target)
        · exact ih (by simpa using hFree) hUp.2
  cases links <;> exact hNames _

/-- A path that the system can follow has the place where it leads as its
canonical form. -/
theorem canonical_of_locate {p : Path} {a : Arrival} (hLocate : d.locate true p = .ok a) :
    d.canonical p = .ok ⟨.root, a.place⟩ := by
  obtain ⟨hNul, -, hLeads⟩ := locate_eq_ok_iff.mp hLocate
  obtain ⟨n, hResolves⟩ := hLeads.resolves
  have hFree : LinkFree d ([] ++ a.place) := hResolves.linkFree (linkFree_root d)
  have hUp := hResolves.no_up List.not_mem_nil
  rw [canonical, hNul]
  simp only [Bool.false_eq_true, if_false, normalize_of_resolves hResolves]
  split
  · next hLoop =>
    rw [locate] at hLoop
    split_ifs at hLoop
    · cases hLoop
    · cases hLoop
    · exact absurd hLoop (follow_of_linkFree _ hFree hUp)
  · rfl

/-- A way without links and steps up leads to the place it names. -/
theorem Leads.place_eq_of_linkFree {followLast : Bool} {links : Nat} {a : Arrival}
    (hLeads : Leads d followLast links here names a) (hNames : (".." : Text) ∉ names)
    (hFree : LinkFree d (here ++ names)) : a.place = here ++ names := by
  have hLink {here : Place} {name target : Text} {rest : List Text} (hDirectory : d.isDirectoryAt here = true)
      (hFind : d.find? (here ++ [name]) = some (.link target)) (hFree : LinkFree d (here ++ name :: rest)) :
      False := by
    refine hFree (here ++ [name]) ⟨rest, by simp⟩ target ?_
    rw [itemAt?, List.dropLast_concat, if_pos hDirectory, hFind]
  induction hLeads with
  | here => simp [Arrival.place]
  | up => simp at hNames
  | absent => rfl
  | last hDirectory _ _ hFind => exact (hLink hDirectory hFind hFree).elim
  | link hDirectory _ _ hFind => exact (hLink hDirectory hFind hFree).elim
  | down hDirectory _ _ _ _ _ ih =>
      rw [ih (fun hUp => hNames (List.mem_cons_of_mem _ hUp)) (by simpa using hFree)]
      simp

end Disk

end SourceAtlas
