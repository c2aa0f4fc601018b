import SourceAtlas.Disk.Lookup
import SourceAtlas.Proofs.Assoc
import SourceAtlas.Proofs.Path

/-!
Following paths on disks that differ. What is found on a disk is found at the same place on every
disk that extends it, and a place that is free becomes the end of its path once an item is put
there.
-/
namespace SourceAtlas.Disk

variable {d d' : Disk} {place : Place} {item : Item}

/-- Every entry of the first disk is an entry of the second. -/
def Extends (d d' : Disk) : Prop := ∀ p i, d.find? p = some i → d'.find? p = some i

theorem Extends.refl (d : Disk) : Extends d d := fun _ _ => id

theorem Extends.trans {d'' : Disk} (hFirst : Extends d d') (hSecond : Extends d' d'') :
    Extends d d'' := fun p i hFind => hSecond p i (hFirst p i hFind)

theorem find?_put_self (hPlace : place ≠ []) (d : Disk) (item : Item) :
    (d.put place item).find? place = some item := by
  rw [find?, if_neg (by simpa using hPlace), put, Assoc.get?_put_self]

/-- Putting an item at a place leaves what stands at every other place. -/
theorem find?_put_of_ne {other : Place} (hOther : other ≠ place) (d : Disk) (item : Item) :
    (d.put place item).find? other = d.find? other := by
  rw [find?, find?, put, Assoc.get?_put_of_ne hOther]

/-- The last item put at a place is the one that stays there. -/
theorem put_put (d : Disk) (place : Place) (first second : Item) :
    (d.put place first).put place second = d.put place second := by
  rw [put, put, put, Assoc.put_put]

/-- Taking an entry away leaves every other entry as it was. -/
theorem find?_erase (hPlace : place ≠ []) (d : Disk) (other : Place) :
    (d.erase place).find? other = if other = place then none else d.find? other := by
  rw [find?, find?, erase, Assoc.get?_filter_ne]
  split_ifs <;> simp_all

/-- A disk extends another if it finds every entry of it. -/
theorem extends_of_entries (hEntries : ∀ e ∈ d.entries, d'.find? e.1 = some e.2) : Extends d d' := by
  intro p i hFind
  rw [find?] at hFind
  split at hFind
  · next hRoot =>
    rw [find?, if_pos hRoot]
    exact hFind
  · exact hEntries _ (Assoc.mem_of_get? hFind)

/-- Putting an item at a place that is free only adds an entry. -/
theorem extends_put (hFree : d.find? place = none) (item : Item) : Extends d (d.put place item) := by
  intro p i hFind
  have hOther : p ≠ place := by
    rintro rfl
    rw [hFree] at hFind
    cases hFind
  rw [find?_put_of_ne hOther, hFind]

/-- Every directory and every link of the first disk is one of the second. -/
def Agrees (d d' : Disk) : Prop :=
  ∀ p i, d.find? p = some i → (∀ bytes mtime, i ≠ .file bytes mtime) → d'.find? p = some i

/-- A disk that extends another has its directories and links among others. -/
theorem Extends.agrees (hExtends : Extends d d') : Agrees d d' := fun p i hFind _ => hExtends p i hFind

theorem Agrees.isDirectoryAt (hAgrees : Agrees d d') (hDirectory : d.isDirectoryAt place = true) :
    d'.isDirectoryAt place = true := by
  simp only [Disk.isDirectoryAt, decide_eq_true_eq] at hDirectory ⊢
  exact hAgrees place _ hDirectory (by simp)

theorem Extends.isDirectoryAt (hExtends : Extends d d') (hDirectory : d.isDirectoryAt place = true) :
    d'.isDirectoryAt place = true := hExtends.agrees.isDirectoryAt hDirectory

/-- How a path is followed to its end, name by name. `links` bounds the
links on the way. -/
inductive Leads (d : Disk) (followLast : Bool) : Nat → Place → List Text → Arrival → Prop where
  | here {links : Nat} {here : Place} {item : Item} (hFind : d.find? here = some item) :
      Leads d followLast links here [] (.found here item)
  | up {links : Nat} {here : Place} {rest : List Text} {a : Arrival}
      (hDirectory : d.isDirectoryAt here = true)
      (hRest : Leads d followLast links here.dropLast rest a) :
      Leads d followLast links here (".." :: rest) a
  | absent {links : Nat} {here : Place} {name : Text} (hDirectory : d.isDirectoryAt here = true)
      (hName : name ≠ "..") (hSize : Text.Utf8.size name ≤ longestName)
      (hFree : d.find? (here ++ [name]) = none) :
      Leads d followLast links here [name] (.absent (here ++ [name]))
  | last {links : Nat} {here : Place} {name target : Text}
      (hDirectory : d.isDirectoryAt here = true) (hName : name ≠ "..")
      (hSize : Text.Utf8.size name ≤ longestName)
      (hFind : d.find? (here ++ [name]) = some (.link target)) (hStop : followLast = false) :
      Leads d followLast links here [name] (.found (here ++ [name]) (.link target))
  | link {links : Nat} {here : Place} {name target : Text} {rest : List Text} {a : Arrival}
      (hDirectory : d.isDirectoryAt here = true) (hName : name ≠ "..")
      (hSize : Text.Utf8.size name ≤ longestName)
      (hFind : d.find? (here ++ [name]) = some (.link target))
      (hGo : rest = [] → followLast = true)
      (hRest : Leads d followLast links (if (Path.parse target).isAbsolute then [] else here)
        ((Path.parse target).parts ++ rest) a) :
      Leads d followLast (links + 1) here (name :: rest) a
  | down {links : Nat} {here : Place} {name : Text} {rest : List Text} {item : Item} {a : Arrival}
      (hDirectory : d.isDirectoryAt here = true) (hName : name ≠ "..")
      (hSize : Text.Utf8.size name ≤ longestName) (hFind : d.find? (here ++ [name]) = some item)
      (hItem : ∀ target, item ≠ .link target)
      (hRest : Leads d followLast links (here ++ [name]) rest a) :
      Leads d followLast links here (name :: rest) a

variable {followLast : Bool} {links : Nat} {here : Place} {names : List Text} {a : Arrival}

/-- The names of a path are followed as `Leads` says, if links are. -/
theorem leads_of_followNames {onLink : Place → List Text → Except Refusal Arrival}
    (hLink : ∀ here names, onLink here names = .ok a →
      ∃ before, links = before + 1 ∧ Leads d followLast before here names a)
    (hFollow : followNames d followLast onLink here names = .ok a) :
    Leads d followLast links here names a := by
  induction names generalizing here with
  | nil =>
      rw [followNames] at hFollow
      split at hFollow
      · next item hFind =>
        cases hFollow
        exact .here hFind
      · cases hFollow
  | cons name rest ih =>
      rw [followNames] at hFollow
      by_cases hDirectory : d.isDirectoryAt here = true
      · rw [if_neg (by simpa using hDirectory)] at hFollow
        by_cases hName : name = ".."
        · rw [if_pos hName] at hFollow
          exact hName ▸ .up hDirectory (ih hFollow)
        · rw [if_neg hName] at hFollow
          by_cases hSize : longestName < Text.Utf8.size name
          · rw [if_pos hSize] at hFollow
            cases hFollow
          · rw [if_neg hSize] at hFollow
            simp only at hFollow
            have hFits : Text.Utf8.size name ≤ longestName := Nat.le_of_not_lt hSize
            split at hFollow
            · next hFree =>
              split at hFollow
              · next hLast =>
                cases hFollow
                obtain rfl := List.isEmpty_iff.mp hLast
                exact .absent hDirectory hName hFits hFree
              · cases hFollow
            · next target hFind =>
              split at hFollow
              · next hLast =>
                simp only [Bool.and_eq_true, List.isEmpty_iff, Bool.not_eq_true'] at hLast
                obtain ⟨rfl, hStop⟩ := hLast
                cases hFollow
                exact .last hDirectory hName hFits hFind hStop
              · next hGo =>
                obtain ⟨before, rfl, hLeads⟩ := hLink _ _ hFollow
                refine .link hDirectory hName hFits hFind (fun hLast => ?_) hLeads
                simpa [hLast] using hGo
            · next item hNoLink hFind =>
              exact .down hDirectory hName hFits hFind (fun t hEq => hNoLink t hEq) (ih hFollow)
      · rw [if_pos (by simpa using hDirectory)] at hFollow
        cases hFollow

/-- Following a path is following its names, where a link that is met on the
way is followed with one link less to spend. -/
theorem follow_eq (d : Disk) (followLast : Bool) (links : Nat) :
    ∃ onLink, follow d followLast links = followNames d followLast onLink ∧
      ∀ before, links = before + 1 → onLink = follow d followLast before := by
  cases links with
  | zero => exact ⟨_, rfl, fun _ hSucc => by cases hSucc⟩
  | succ links => exact ⟨_, rfl, fun _ hSucc => by cases hSucc; rfl⟩

/-- Following a path gives the end it leads to. -/
theorem follow_eq_ok_iff :
    follow d followLast links here names = .ok a ↔ Leads d followLast links here names a := by
  constructor
  · intro hFollow
    induction links generalizing here names with
    | zero => exact leads_of_followNames (fun _ _ hLink => by cases hLink) hFollow
    | succ links ih => exact leads_of_followNames (fun _ _ hLink => ⟨links, rfl, ih hLink⟩) hFollow
  · intro hLeads
    induction hLeads with
    | @here links here item hFind =>
        obtain ⟨onLink, hEq, -⟩ := follow_eq d followLast links
        rw [hEq, followNames, hFind]
    | @up links here rest a hDirectory hRest ih =>
        obtain ⟨onLink, hEq, -⟩ := follow_eq d followLast links
        rw [hEq] at ih ⊢
        rw [followNames, if_neg (by simpa using hDirectory), if_pos rfl, ih]
    | @absent links here name hDirectory hName hSize hFree =>
        obtain ⟨onLink, hEq, -⟩ := follow_eq d followLast links
        rw [hEq, followNames, if_neg (by simpa using hDirectory), if_neg hName,
          if_neg (Nat.not_lt.mpr hSize)]
        simp [hFree]
    | @last links here name target hDirectory hName hSize hFind hStop =>
        obtain ⟨onLink, hEq, -⟩ := follow_eq d followLast links
        rw [hEq, followNames, if_neg (by simpa using hDirectory), if_neg hName,
          if_neg (Nat.not_lt.mpr hSize)]
        simp [hFind, hStop]
    | @link links here name target rest a hDirectory hName hSize hFind hGo hRest ih =>
        obtain ⟨onLink, hEq, hBefore⟩ := follow_eq d followLast (links + 1)
        rw [hEq, hBefore links rfl, followNames, if_neg (by simpa using hDirectory), if_neg hName,
          if_neg (Nat.not_lt.mpr hSize)]
        have hOn : (rest.isEmpty && !followLast) = false := by
          cases rest with
          | nil => simp [hGo rfl]
          | cons => rfl
        simp only [hFind, hOn]
        exact ih
    | @down links here name rest item a hDirectory hName hSize hFind hItem hRest ih =>
        obtain ⟨onLink, hEq, -⟩ := follow_eq d followLast links
        rw [hEq] at ih ⊢
        rw [followNames, if_neg (by simpa using hDirectory), if_neg hName,
          if_neg (Nat.not_lt.mpr hSize)]
        cases item with
        | link target => exact absurd rfl (hItem target)
        | file bytes mtime => simpa only [hFind] using ih
        | directory => simpa only [hFind] using ih

def Arrival.AtEnd (d : Disk) : Arrival → Prop
  | .found place item => d.find? place = some item
  | .absent place => d.find? place = none ∧ place ≠ []

namespace Leads

/-- What is found at the end of a path is what stands there. -/
theorem atEnd (hLeads : Leads d followLast links here names a) : a.AtEnd d := by
  induction hLeads with
  | here hFind => exact hFind
  | absent _ _ _ hFree => exact ⟨hFree, by simp⟩
  | last _ _ _ hFind _ => exact hFind
  | up _ _ ih => exact ih
  | link _ _ _ _ _ _ ih => exact ih
  | down _ _ _ _ _ _ ih => exact ih

/-- No path goes on from a regular file. -/
theorem eq_of_file (hLeads : Leads d followLast links here names a) {bytes : List UInt8} {mtime : Int}
    (hFile : d.find? here = some (.file bytes mtime)) : names = [] ∧ a = .found here (.file bytes mtime) := by
  have hNoDirectory : d.isDirectoryAt here ≠ true := by simp [isDirectoryAt, hFile]
  cases hLeads with
  | here hFind =>
      rw [hFile] at hFind
      cases hFind
      exact ⟨rfl, rfl⟩
  | up hDirectory _ => exact absurd hDirectory hNoDirectory
  | absent hDirectory _ _ _ => exact absurd hDirectory hNoDirectory
  | last hDirectory _ _ _ _ => exact absurd hDirectory hNoDirectory
  | link hDirectory _ _ _ _ _ => exact absurd hDirectory hNoDirectory
  | down hDirectory _ _ _ _ _ => exact absurd hDirectory hNoDirectory

/-- Files lie on no path but at its end: on a disk with the same directories
and links and the same end, a path leads to where it led. -/
theorem of_agrees (hLeads : Leads d followLast links here names a) (hAgrees : Agrees d d')
    (hEnd : a.AtEnd d') : Leads d' followLast links here names a := by
  induction hLeads with
  | here _ => exact .here hEnd
  | absent hDirectory hName hSize _ => exact .absent (hAgrees.isDirectoryAt hDirectory) hName hSize hEnd.1
  | last hDirectory hName hSize _ hStop =>
      exact .last (hAgrees.isDirectoryAt hDirectory) hName hSize hEnd hStop
  | up hDirectory _ ih => exact .up (hAgrees.isDirectoryAt hDirectory) (ih hEnd)
  | link hDirectory hName hSize hFind hGo _ ih =>
      exact .link (hAgrees.isDirectoryAt hDirectory) hName hSize (hAgrees _ _ hFind (by simp)) hGo (ih hEnd)
  | @down links here name rest item a hDirectory hName hSize hFind hItem hRest ih =>
      refine .down (hAgrees.isDirectoryAt hDirectory) hName hSize ?_ hItem (ih hEnd)
      cases item with
      | directory => exact hAgrees _ _ hFind (by simp)
      | link target => exact absurd rfl (hItem target)
      | file bytes mtime =>
          obtain ⟨-, rfl⟩ := hRest.eq_of_file hFind
          exact hEnd

/-- A path leads to the file that stands at its end on a disk with the same
directories and links. -/
theorem to_file (hLeads : Leads d false links here names a) (hAgrees : Agrees d d') {bytes : List UInt8}
    {mtime : Int} (hThere : d'.find? a.place = some (.file bytes mtime)) :
    Leads d' true links here names (.found a.place (.file bytes mtime)) := by
  induction hLeads with
  | here _ => exact .here hThere
  | absent hDirectory hName hSize _ =>
      exact .down (hAgrees.isDirectoryAt hDirectory) hName hSize hThere (by simp) (.here hThere)
  | last _ _ _ hFind _ =>
      have hLink := hAgrees _ _ hFind (by simp)
      rw [Arrival.place, hLink] at hThere
      cases hThere
  | up hDirectory _ ih => exact .up (hAgrees.isDirectoryAt hDirectory) (ih hThere)
  | link hDirectory hName hSize hFind _ _ ih =>
      exact .link (hAgrees.isDirectoryAt hDirectory) hName hSize (hAgrees _ _ hFind (by simp))
        (fun _ => rfl) (ih hThere)
  | @down links here name rest item a hDirectory hName hSize hFind hItem hRest ih =>
      cases item with
      | directory =>
          exact .down (hAgrees.isDirectoryAt hDirectory) hName hSize (hAgrees _ _ hFind (by simp)) hItem
            (ih hThere)
      | link target => exact absurd rfl (hItem target)
      | file content time =>
          obtain ⟨rfl, rfl⟩ := hRest.eq_of_file hFind
          exact .down (hAgrees.isDirectoryAt hDirectory) hName hSize hThere (by simp) (.here hThere)

/-- On a disk with more entries a path leads to what it led to. -/
theorem of_extends (hExtends : Extends d d')
    (hLeads : Leads d followLast links here names (.found place item)) :
    Leads d' followLast links here names (.found place item) :=
  hLeads.of_agrees hExtends.agrees (hExtends _ _ hLeads.atEnd)

/-- A path that ends at a free place leads to what is put there. -/
theorem put (hLeads : Leads d false links here names (.absent place)) (item : Item) :
    Leads (d.put place item) false links here names (.found place item) := by
  have hFree : d.find? place = none ∧ place ≠ [] := hLeads.atEnd
  have hExtends := extends_put hFree.1 item
  have hFind := find?_put_self hFree.2 d item
  clear hFree
  generalize hArrival : Arrival.absent place = a at hLeads
  induction hLeads with
  | here => cases hArrival
  | last => cases hArrival
  | absent hDirectory hName hSize _ =>
      obtain rfl := Arrival.absent.inj hArrival
      cases item with
      | link target => exact .last (hExtends.isDirectoryAt hDirectory) hName hSize hFind rfl
      | file bytes mtime =>
          exact .down (hExtends.isDirectoryAt hDirectory) hName hSize hFind (by simp) (.here hFind)
      | directory =>
          exact .down (hExtends.isDirectoryAt hDirectory) hName hSize hFind (by simp) (.here hFind)
  | up hDirectory _ ih => exact .up (hExtends.isDirectoryAt hDirectory) (ih hArrival)
  | link hDirectory hName hSize hFind' hGo _ ih =>
      exact .link (hExtends.isDirectoryAt hDirectory) hName hSize (hExtends _ _ hFind') hGo
        (ih hArrival)
  | down hDirectory hName hSize hFind' hItem _ ih =>
      exact .down (hExtends.isDirectoryAt hDirectory) hName hSize (hExtends _ _ hFind') hItem
        (ih hArrival)

/-- Without following a last link, a path to an entry leads to the same
entry or to that link. -/
theorem unfollowed (hLeads : Leads d true links here names (.found place item)) :
    ∃ place' item', Leads d false links here names (.found place' item') ∧
      (place' = place ∨ ∃ target, item' = .link target) := by
  generalize hArrival : Arrival.found place item = a at hLeads
  induction hLeads with
  | here hFind =>
      obtain ⟨rfl, rfl⟩ := Arrival.found.inj hArrival
      exact ⟨_, _, .here hFind, .inl rfl⟩
  | absent => cases hArrival
  | last _ _ _ _ hStop => cases hStop
  | up hDirectory _ ih =>
      obtain ⟨place', item', hLeads, hSame⟩ := ih hArrival
      exact ⟨place', item', .up hDirectory hLeads, hSame⟩
  | @link links here name target rest a hDirectory hName hSize hFind hGo _ ih =>
      cases rest with
      | nil => exact ⟨_, _, .last hDirectory hName hSize hFind rfl, .inr ⟨target, rfl⟩⟩
      | cons next rest =>
          obtain ⟨place', item', hLeads, hSame⟩ := ih hArrival
          exact ⟨place', item', .link hDirectory hName hSize hFind (by simp) hLeads, hSame⟩
  | down hDirectory hName hSize hFind hItem _ ih =>
      obtain ⟨place', item', hLeads, hSame⟩ := ih hArrival
      exact ⟨place', item', .down hDirectory hName hSize hFind hItem hLeads, hSame⟩

/-- A path that ends at no link leads to the same entry whether a last link
is followed or not. -/
theorem followed (hLeads : Leads d false links here names (.found place item))
    (hItem : ∀ target, item ≠ .link target) : Leads d true links here names (.found place item) := by
  generalize hArrival : Arrival.found place item = a at hLeads
  induction hLeads with
  | here hFind => exact .here hFind
  | absent => cases hArrival
  | last =>
      obtain ⟨-, rfl⟩ := Arrival.found.inj hArrival
      exact absurd rfl (hItem _)
  | up hDirectory _ ih => exact .up hDirectory (ih hArrival)
  | link hDirectory hName hSize hFind _ _ ih =>
      exact .link hDirectory hName hSize hFind (fun _ => rfl) (ih hArrival)
  | down hDirectory hName hSize hFind hNoLink _ ih =>
      exact .down hDirectory hName hSize hFind hNoLink (ih hArrival)

/-- The names along a path that is followed are no longer than allowed. -/
theorem size_of_mem (hLeads : Leads d followLast links here names a) :
    ∀ n ∈ names, n = ".." ∨ Text.Utf8.size n ≤ longestName := by
  induction hLeads with
  | here => simp
  | absent _ _ hSize _ => simp [hSize]
  | last _ _ hSize _ _ => simp [hSize]
  | up _ _ ih => simpa using ih
  | link _ _ hSize _ _ _ ih =>
      intro n hn
      rcases List.mem_cons.mp hn with rfl | hn
      · exact .inr hSize
      · exact ih n (List.mem_append_right _ hn)
  | down _ _ hSize _ _ _ ih =>
      intro n hn
      rcases List.mem_cons.mp hn with rfl | hn
      · exact .inr hSize
      · exact ih n hn

/-- From a directory that a path leads to, other names go on. -/
theorem append {rest : List Text} (hLeads : Leads d true links here names (.found place .directory))
    (hRest : ∀ links, Leads d followLast links place rest a) (hSome : rest ≠ []) :
    Leads d followLast links here (names ++ rest) a := by
  generalize hArrival : Arrival.found place .directory = b at hLeads
  induction hLeads with
  | here _ =>
      obtain ⟨rfl, -⟩ := Arrival.found.inj hArrival
      exact hRest _
  | absent => cases hArrival
  | last _ _ _ _ hStop => cases hStop
  | up hUp _ ih => exact .up hUp (ih hArrival)
  | link hUp hName hSize hFind _ _ ih =>
      apply Leads.link hUp hName hSize hFind
      · intro hNone
        exact absurd (List.append_eq_nil_iff.mp hNone).2 hSome
      · have hOn := ih hArrival
        rwa [List.append_assoc] at hOn
  | down hUp hName hSize hFind hItem _ ih => exact .down hUp hName hSize hFind hItem (ih hArrival)

/-- A path that goes on from a directory by a name leads to the
entry of that name. -/
theorem snoc (hLeads : Leads d true links here names (.found place .directory)) {n : Text}
    (hName : n ≠ "..") (hSize : Text.Utf8.size n ≤ longestName)
    (hFind : d.find? (place ++ [n]) = some item) :
    Leads d false links here (names ++ [n]) (.found (place ++ [n]) item) := by
  have hDirectory : d.isDirectoryAt place = true := by
    rw [isDirectoryAt, decide_eq_true_eq]
    exact hLeads.atEnd
  refine hLeads.append (fun links => ?_) (by simp)
  cases item with
  | link target => exact .last hDirectory hName hSize hFind rfl
  | file bytes mtime => exact .down hDirectory hName hSize hFind (by simp) (.here hFind)
  | directory => exact .down hDirectory hName hSize hFind (by simp) (.here hFind)

end Leads

/-- A disk whose entries stand under names, each at a place of its own. -/
structure Proper (d : Disk) : Prop where
  names : ∀ e ∈ d.entries, ∀ n ∈ e.1, IsName n
  keys : (d.entries.map Prod.fst).Nodup

instance (d : Disk) : Decidable d.Proper :=
  decidable_of_iff ((∀ e ∈ d.entries, ∀ n ∈ e.1, IsName n) ∧ (d.entries.map Prod.fst).Nodup)
    ⟨fun h => ⟨h.1, h.2⟩, fun h => ⟨h.names, h.keys⟩⟩

theorem Proper.of_find? (hProper : d.Proper) (hFind : d.find? place = some item) :
    ∀ n ∈ place, IsName n := by
  rw [find?] at hFind
  split at hFind
  · next hRoot => simp [List.isEmpty_iff.mp hRoot]
  · exact hProper.names _ (Assoc.mem_of_get? hFind)

/-- Putting an item at a place made of names keeps a disk proper. -/
theorem Proper.put (hProper : d.Proper) (hNames : ∀ n ∈ place, IsName n) (item : Item) :
    (d.put place item).Proper where
  names e he := by
    rcases Assoc.mem_put he with rfl | he
    · exact hNames
    · exact hProper.names e he
  keys := Assoc.nodup_put hProper.keys place item

theorem Proper.erase (hProper : d.Proper) (place : Place) : (d.erase place).Proper where
  names e he := hProper.names e (List.mem_filter.mp he).1
  keys := hProper.keys.sublist (List.filter_sublist.map Prod.fst)

/-- The place of a directory is made of names, the root's of none at all. -/
theorem Proper.of_isDirectoryAt (hProper : d.Proper) (hDirectory : d.isDirectoryAt place = true) :
    ∀ n ∈ place, IsName n := by
  simp only [isDirectoryAt, decide_eq_true_eq] at hDirectory
  exact hProper.of_find? hDirectory

/-- The names along a path to an entry are names of entries,
apart from steps up. -/
theorem Leads.names_of_found (hLeads : Leads d followLast links here names (.found place item))
    (hProper : d.Proper) : ∀ n ∈ names, n = ".." ∨ IsName n := by
  generalize hArrival : Arrival.found place item = a at hLeads
  have hLastName {here : Place} {name : Text} {i : Item} (hFind : d.find? (here ++ [name]) = some i) :
      IsName name := hProper.of_find? hFind name (by simp)
  induction hLeads with
  | here => simp
  | absent => cases hArrival
  | last _ _ _ hFind _ => simp [hLastName hFind]
  | up _ _ ih => simpa using ih hArrival
  | link _ _ _ hFind _ _ ih =>
      intro n hn
      rcases List.mem_cons.mp hn with rfl | hn
      · exact .inr (hLastName hFind)
      · exact ih hArrival n (List.mem_append_right _ hn)
  | down _ _ _ hFind _ _ ih =>
      intro n hn
      rcases List.mem_cons.mp hn with rfl | hn
      · exact .inr (hLastName hFind)
      · exact ih hArrival n hn

/-- A path made of parts ends at a place made of names. -/
theorem Leads.place_named (hLeads : Leads d followLast links here names a) (hProper : d.Proper)
    (hNames : ∀ n ∈ names, IsPart n) : ∀ n ∈ a.place, IsName n := by
  induction hLeads with
  | here hFind => exact hProper.of_find? hFind
  | last _ _ _ hFind _ => exact hProper.of_find? hFind
  | @absent links here name hDirectory hName _ _ =>
      intro n hn
      rcases List.mem_append.mp hn with hn | hn
      · exact hProper.of_isDirectoryAt hDirectory n hn
      · obtain rfl := List.mem_singleton.mp hn
        exact ⟨hNames n (List.mem_cons_self ..), hName⟩
  | up _ _ ih => exact ih fun n hn => hNames n (List.mem_cons_of_mem _ hn)
  | @link links here name target rest a _ _ _ _ _ _ ih =>
      refine ih fun n hn => ?_
      rcases List.mem_append.mp hn with hn | hn
      · exact Path.parse_readable target n hn
      · exact hNames n (List.mem_cons_of_mem _ hn)
  | down _ _ _ _ _ _ ih => exact ih fun n hn => hNames n (List.mem_cons_of_mem _ hn)

/-- A path that is followed at all has a text that the system takes. -/
theorem locate_eq_ok_iff {p : Path} :
    d.locate followLast p = .ok a ↔
      (p.parts.any fun part => part.toList.contains (Char.ofNat 0)) = false ∧
        Text.Utf8.size p.text < pathLimit ∧ Leads d followLast mostLinks [] p.parts a := by
  rw [locate]
  split_ifs with hNul hLong
  · refine ⟨nofun, fun hAll => ?_⟩
    cases hNul.symm.trans hAll.1
  · refine ⟨nofun, fun hAll => ?_⟩
    exact absurd hAll.2.1 (Nat.not_lt.mpr hLong)
  · rw [follow_eq_ok_iff]
    exact ⟨fun hLeads => ⟨Bool.eq_false_iff.mpr hNul, Nat.lt_of_not_le hLong, hLeads⟩,
      fun hAll => hAll.2.2⟩

/-- No step from name to name refuses for a null character: that is tested
once, before the first name. -/
theorem followNames_ne_nul {onLink : Place → List Text → Except Refusal Arrival}
    (hLink : ∀ here names, onLink here names ≠ .error .nul) :
    followNames d followLast onLink here names ≠ .error .nul := by
  induction names generalizing here with
  | nil =>
      rw [followNames]
      split <;> simp
  | cons name rest ih =>
      rw [followNames]
      split
      · simp
      · split
        · exact ih
        · split
          · simp
          · simp only
            split
            · split <;> simp
            · split
              · simp
              · exact hLink _ _
            · exact ih

/-- Only a NUL character in the path itself makes it no path. -/
theorem locate_eq_nul_iff {p : Path} :
    d.locate followLast p = .error .nul ↔
      (p.parts.any fun part => part.toList.contains (Char.ofNat 0)) = true := by
  have hFollow : ∀ links here names, follow d followLast links here names ≠ .error .nul := by
    intro links
    induction links with
    | zero => exact fun _ _ => followNames_ne_nul (by simp)
    | succ links ih => exact fun _ _ => followNames_ne_nul ih
  rw [locate]
  split_ifs with hNul hLong
  · exact ⟨fun _ => hNul, fun _ => rfl⟩
  · exact ⟨nofun, fun hAny => absurd hAny hNul⟩
  · exact ⟨fun hError => absurd hError (hFollow _ _ _), fun hAny => absurd hAny hNul⟩

/-- Following names refuses with an error that means absence, or since a
name is too long, if links do. -/
theorem errno_of_followNames {onLink : Place → List Text → Except Refusal Arrival} {e : Errno}
    (hLink : ∀ here names, onLink here names = .error (.errno e) →
      e.meansAbsent = true ∨ e = .nameTooLong)
    (hFollow : followNames d followLast onLink here names = .error (.errno e)) :
    e.meansAbsent = true ∨ e = .nameTooLong := by
  induction names generalizing here with
  | nil =>
      rw [followNames] at hFollow
      split at hFollow
      · cases hFollow
      · cases hFollow
        exact .inl rfl
  | cons name rest ih =>
      rw [followNames] at hFollow
      split at hFollow
      · cases hFollow
        exact .inl rfl
      · split at hFollow
        · exact ih hFollow
        · split at hFollow
          · cases hFollow
            exact .inr rfl
          · simp only at hFollow
            split at hFollow
            · split at hFollow
              · cases hFollow
              · cases hFollow
                exact .inl rfl
            · split at hFollow
              · cases hFollow
              · exact hLink _ _ hFollow
            · exact ih hFollow

/-- A path is refused because nothing is there or because a name or the path
is too long. -/
theorem errno_of_locate {p : Path} {e : Errno} (hLocate : d.locate followLast p = .error (.errno e)) :
    e.meansAbsent = true ∨ e = .nameTooLong := by
  have hFollow : ∀ links here names, follow d followLast links here names = .error (.errno e) →
      e.meansAbsent = true ∨ e = .nameTooLong := by
    intro links
    induction links with
    | zero =>
        refine fun _ _ => errno_of_followNames fun _ _ hLoop => ?_
        cases hLoop
        exact .inl rfl
    | succ links ih => exact fun _ _ => errno_of_followNames ih
  rw [locate] at hLocate
  split_ifs at hLocate
  · cases hLocate
  · cases hLocate
    exact .inr rfl
  · exact hFollow _ _ _ hLocate

/-- If a path is refused even without following a last link, it is refused
with following it. -/
theorem followNames_error {onLink onLink' : Place → List Text → Except Refusal Arrival} {r : Refusal}
    (hLink : ∀ here names, onLink here names = .error r → onLink' here names = .error r)
    (hFollow : followNames d false onLink here names = .error r) :
    followNames d true onLink' here names = .error r := by
  induction names generalizing here with
  | nil => exact hFollow
  | cons name rest ih =>
      rw [followNames] at hFollow ⊢
      split at hFollow
      · next hDirectory => rw [if_pos hDirectory, hFollow]
      · next hDirectory =>
        rw [if_neg hDirectory]
        split at hFollow
        · next hUp => rw [if_pos hUp, ih hFollow]
        · next hUp =>
          rw [if_neg hUp]
          split at hFollow
          · next hLong => rw [if_pos hLong, hFollow]
          · next hLong =>
            rw [if_neg hLong]
            simp only at hFollow ⊢
            split at hFollow
            · exact hFollow
            · split at hFollow
              · cases hFollow
              · simpa using hLink _ _ hFollow
            · exact ih hFollow

/-- A refusal on the way to the last name is met as well when the last name
would be followed. -/
theorem locate_error_followed {p : Path} {r : Refusal} (hLocate : d.locate false p = .error r) :
    d.locate true p = .error r := by
  have hFollow : ∀ links here names, follow d false links here names = .error r →
      follow d true links here names = .error r := by
    intro links
    induction links with
    | zero => exact fun _ _ => followNames_error fun _ _ hLoop => hLoop
    | succ links ih => exact fun _ _ => followNames_error ih
  rw [locate] at hLocate ⊢
  split_ifs at hLocate ⊢
  · exact hLocate
  · exact hLocate
  · exact hFollow _ _ _ hLocate

/-- What a path leads to is an entry of the disk at the place
that it leads to. -/
theorem find?_of_locate {p : Path} (hLocate : d.locate followLast p = .ok (.found place item)) :
    d.find? place = some item :=
  (locate_eq_ok_iff.mp hLocate).2.2.atEnd

/-- A path that leads to an absent entry names a place that is free, and
never the root. -/
theorem free_of_locate {p : Path} (hLocate : d.locate followLast p = .ok (.absent place)) :
    d.find? place = none ∧ place ≠ [] :=
  (locate_eq_ok_iff.mp hLocate).2.2.atEnd

/-- Whatever a path leads to is found by it in a disk that
has entries besides. -/
theorem Extends.locate (hExtends : Extends d d') {p : Path}
    (hLocate : d.locate followLast p = .ok (.found place item)) :
    d'.locate followLast p = .ok (.found place item) := by
  obtain ⟨hNul, hSize, hLeads⟩ := locate_eq_ok_iff.mp hLocate
  exact locate_eq_ok_iff.mpr ⟨hNul, hSize, hLeads.of_extends hExtends⟩

/-- An item put where a path leads to nothing is what the
path then leads to. -/
theorem locate_put {p : Path} (hLocate : d.locate false p = .ok (.absent place)) (item : Item) :
    (d.put place item).locate false p = .ok (.found place item) := by
  obtain ⟨hNul, hSize, hLeads⟩ := locate_eq_ok_iff.mp hLocate
  exact locate_eq_ok_iff.mpr ⟨hNul, hSize, hLeads.put item⟩

/-- What a path leads to by its last link is beneath an entry of its own:
the same one, or the link. -/
theorem locate_unfollowed {p : Path} (hLocate : d.locate true p = .ok (.found place item)) :
    ∃ place' item', d.locate false p = .ok (.found place' item') ∧
      (place' = place ∨ ∃ target, item' = .link target) := by
  obtain ⟨hNul, hSize, hLeads⟩ := locate_eq_ok_iff.mp hLocate
  obtain ⟨place', item', hLeads', hSame⟩ := hLeads.unfollowed
  exact ⟨place', item', locate_eq_ok_iff.mpr ⟨hNul, hSize, hLeads'⟩, hSame⟩

/-- A path that ends on something other than a link leads there with links
followed as well. -/
theorem locate_followed {p : Path} (hLocate : d.locate false p = .ok (.found place item))
    (hItem : ∀ target, item ≠ .link target) : d.locate true p = .ok (.found place item) := by
  obtain ⟨hNul, hSize, hLeads⟩ := locate_eq_ok_iff.mp hLocate
  exact locate_eq_ok_iff.mpr ⟨hNul, hSize, hLeads.followed hItem⟩

/-- The place that a readable path leads to is made of names, on a
disk that is proper. -/
theorem place_named_of_locate {p : Path} (hLocate : d.locate followLast p = .ok a)
    (hProper : d.Proper) (hParts : p.Readable) : ∀ n ∈ a.place, IsName n :=
  (locate_eq_ok_iff.mp hLocate).2.2.place_named hProper hParts

theorem entry_eq_ok_iff {p : Path} :
    d.entry followLast p = .ok (place, item) ↔ d.locate followLast p = .ok (.found place item) := by
  rw [entry]
  rcases d.locate followLast p with r | (⟨q, i⟩ | q) <;> simp

/-- What a path is asked about is the entry it leads to. -/
theorem test_of_locate {p : Path} (hLocate : d.locate followLast p = .ok (.found place item))
    (ask : Item → Bool) : d.test followLast ask p = .ok (ask item) := by
  rw [test, entry_eq_ok_iff.mpr hLocate]

/-- A path to an entry that is no link ends at that entry itself. -/
theorem locate_of_no_link {p : Path} (hLocate : d.locate true p = .ok (.found place item))
    (hNoLink : d.isLink p = .ok false) : d.locate false p = .ok (.found place item) := by
  obtain ⟨place', item', hUnfollowed, -⟩ := locate_unfollowed hLocate
  have hItem : ∀ target, item' ≠ .link target := by
    rintro target rfl
    rw [isLink, test_of_locate hUnfollowed] at hNoLink
    cases hNoLink
  have hSame := (locate_followed hUnfollowed hItem).symm.trans hLocate
  rw [hUnfollowed, hSame]

/-- Only a path that is too long to be followed cannot be asked about. -/
theorem test_eq_error_iff {ask : Item → Bool} {p : Path} {e : Errno} :
    d.test followLast ask p = .error e ↔
      e = .nameTooLong ∧ d.locate followLast p = .error (.errno .nameTooLong) := by
  rw [test, entry]
  rcases hLocate : d.locate followLast p with (e' | _) | (⟨place, item⟩ | place)
  · simp only [Except.error.injEq, Refusal.errno.injEq]
    split_ifs with hAbsent
    · refine ⟨nofun, fun hBoth => ?_⟩
      rw [hBoth.2] at hAbsent
      cases hAbsent
    · obtain rfl := (errno_of_locate hLocate).resolve_left hAbsent
      exact ⟨fun hEq => ⟨(Except.error.inj hEq).symm, rfl⟩, fun hBoth => by rw [hBoth.1]⟩
  · simp
  · simp
  · simp [Errno.meansAbsent]

/-- A path that can be followed can be asked about, whether a last link is
followed or not. -/
theorem exists_test {p : Path} (hLocate : d.locate true p ≠ .error (.errno .nameTooLong))
    (followLast : Bool) (ask : Item → Bool) : ∃ b, d.test followLast ask p = .ok b := by
  rcases hTest : d.test followLast ask p with e | b
  · have hTooLong := (test_eq_error_iff.mp hTest).2
    cases followLast with
    | true => exact absurd hTooLong hLocate
    | false => exact absurd (locate_error_followed hTooLong) hLocate
  · exact ⟨b, rfl⟩

/-- A question is answered with yes only about an entry. -/
theorem found_of_test {ask : Item → Bool} {p : Path} (hTest : d.test followLast ask p = .ok true) :
    ∃ place item, d.locate followLast p = .ok (.found place item) ∧ ask item = true := by
  rw [test, entry] at hTest
  rcases hLocate : d.locate followLast p with (e | _) | (⟨place, item⟩ | place) <;>
    rw [hLocate] at hTest
  · simp only at hTest
    split at hTest <;> cases hTest
  · cases hTest
  · exact ⟨place, item, rfl, Except.ok.inj hTest⟩
  · cases hTest

/-- What is found has no NUL character in its path. -/
theorem ne_nul_of_locate {p : Path} {a : Arrival} (hLocate : d.locate followLast p = .ok a) :
    d.locate followLast p ≠ .error .nul := by
  simp [hLocate]

/-- A path that passes the test for files leads to a file. -/
theorem found_of_isFile {p : Path} (hFile : d.isFile p = .ok true) :
    ∃ place bytes mtime, d.locate true p = .ok (.found place (.file bytes mtime)) := by
  obtain ⟨place, item, hLocate, hItem⟩ := found_of_test hFile
  cases item with
  | file bytes mtime => exact ⟨place, bytes, mtime, hLocate⟩
  | directory => cases hItem
  | link target => cases hItem

end SourceAtlas.Disk
