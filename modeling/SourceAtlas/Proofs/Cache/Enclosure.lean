import SourceAtlas.Proofs.Cache.Confinement
import SourceAtlas.Proofs.Config
import SourceAtlas.Proofs.Disk.Resolving

/-!
The cache stays in its project. The names of its directory always go on from those of the root.
Where links lead in no circle on the way, that is also where the directory is, and saving the cache
writes there and nowhere else. A circle ends the search for links, and those behind it are kept.
-/
namespace SourceAtlas

open Scan

/-- A path above an entry of a directory is no longer than the directory. -/
theorem Path.Above.prefix_folder {a folder : Path} {name : Text} (hAbove : a.Above (child folder name)) :
    a.parts <+: folder.parts := by
  obtain ⟨-, n, rest, hParts⟩ := hAbove
  have hPrefix : a.parts <+: folder.parts ++ [name] := ⟨n :: rest, hParts.symm⟩
  refine (List.prefix_concat_iff.mp hPrefix).resolve_left fun hWhole => ?_
  have hLength := congrArg List.length hParts
  rw [hWhole] at hLength
  simp [child] at hLength

namespace Disk

variable {d d' : Disk} {folder : Path} {name : Text} {base q : Place}

/-- Where every entry stands in a directory, a link anywhere on a way is one
that would be followed. -/
theorem LinkFree.find?_ne (hFree : LinkFree d q) (hGrounded : d.Grounded) {p : Place} (hPrefix : p <+: q)
    (target : Text) : d.find? p ≠ some (.link target) := by
  intro hFind
  rcases List.eq_nil_or_concat p with rfl | ⟨front, last, rfl⟩
  · cases hFind
  · rw [List.concat_eq_append] at hFind hPrefix
    refine hFree _ hPrefix target ?_
    rw [itemAt?, List.dropLast_concat, if_pos (by simp [isDirectoryAt, hGrounded.directory hFind]), hFind]

/-- New directories bring no links. So a way down that had none still has
none after a save. -/
theorem LinkFree.paved {file : Path} (hFree : LinkFree d q) (hGrounded : d.Grounded)
    (hPaved : Paved file d d') : LinkFree d' q := by
  intro p hPrefix target hItem
  have hFind := find?_of_itemAt? hItem
  rcases hPaved p with hSame | ⟨-, a, -, hLocate⟩
  · exact hFree.find?_ne hGrounded hPrefix target (hSame ▸ hFind)
  · cases hFind.symm.trans (find?_of_locate hLocate)

theorem LinkFree.place_of_locate {p : Path} {followLast : Bool} {a : Arrival} (hFree : LinkFree d p.parts)
    (hUp : (".." : Text) ∉ p.parts) (hLocate : d.locate followLast p = .ok a) : a.place = p.parts :=
  (locate_eq_ok_iff.mp hLocate).2.2.place_eq_of_linkFree hUp hFree

/-- A place lies at or below another one, or it is a new directory on the
way to that. -/
def Within (base : Place) (d d' : Disk) (q : Place) : Prop :=
  base <+: q ∨ q <+: base ∧ d.find? q = none ∧ d'.find? q = some .directory

/-- Directories above a file are made at the places that their paths name,
and these lie within the base. -/
theorem Paved.within (hPaved : Paved (child folder name) d d') (hFree : LinkFree d folder.parts)
    (hGrounded : d.Grounded) (hUp : (".." : Text) ∉ folder.parts) (hBase : base <+: folder.parts)
    (hChanged : d'.find? q ≠ d.find? q) : Within base d d' q := by
  obtain ⟨hNone, a, hAbove, hLocate⟩ := (hPaved q).resolve_left hChanged
  have hPrefix := hAbove.prefix_folder
  have hFree' := (hFree.paved hGrounded hPaved).above hPrefix
  obtain rfl : q = a.parts := hFree'.place_of_locate (fun hIn => hUp (hPrefix.subset hIn)) hLocate
  rcases List.prefix_or_prefix_of_prefix hBase hPrefix with hBelow | hOn
  · exact .inl hBelow
  · exact .inr ⟨hOn, hNone, find?_of_locate hLocate⟩

/-- What writing a file may change lies below every
directory above the file. -/
theorem Confined.within (hConfined : Confined (child folder name) d d') (hFree : LinkFree d folder.parts)
    (hGrounded : d.Grounded) (hUp : (".." : Text) ∉ folder.parts) (hName : name ≠ "..") (hBase : base <+: folder.parts)
    (hChanged : d'.find? q ≠ d.find? q) : Within base d d' q := by
  cases hConfined with
  | paved hPaved => exact hPaved.within hFree hGrounded hUp hBase hChanged
  | @replaced between arrival bytes hPaved hLocate _ hDisk =>
      obtain ⟨directory, hPlace, hFolder⟩ := locate_parent hLocate hName
      have hThere : directory = folder.parts :=
        (hFree.paved hGrounded hPaved).place_of_locate hUp hFolder
      by_cases hSame : q = arrival.place
      · rw [hSame, hPlace, hThere]
        exact .inl (hBase.trans (List.prefix_append _ _))
      · have hOther : d'.find? q = between.find? q := by
          rw [hDisk, find?_put_of_ne hSame]
        rw [hOther] at hChanged
        exact (hPaved.within hFree hGrounded hUp hBase hChanged).imp_right
          (And.imp_right (And.imp_right hOther.trans))

end Disk

namespace Cache

open SourceAtlas.Action

variable {w w' : World} {root : Path} {dir : Text}

/-- Where links lead in no circle, the directory of a cache is what it is
called, and no link is on the way there. -/
theorem placed_straight {d : Disk} {base directory : Path} (hPlaced : Config.Placed d root dir base directory)
    (hFollowable : d.Followable (base.join (Path.parse dir))) :
    Disk.LinkFree d directory.parts ∧ (".." : Text) ∉ directory.parts := by
  obtain ⟨n, goal, hResolves⟩ := hFollowable
  obtain rfl := Disk.canonical_of_resolves hResolves hPlaced.found
  exact ⟨hResolves.linkFree (Disk.linkFree_root d), hResolves.no_up List.not_mem_nil⟩

/-- A directory that is given for the cache is called the root or something
below it. If every link on its way can be followed to an end, it also leads
to the place it is called, and all that saving a cache there changes lies at
or below the root, but for directories missing above the root itself. -/
theorem cache_within_project {directory : Path}
    (hRun : (Config.cacheDirectory root dir).on w = (.ok directory, w')) :
    ∃ base, w.disk.canonical (w.here.join root) = .ok base ∧ directory.anchor = base.anchor ∧
      base.parts <+: directory.parts ∧
      (w.disk.Followable (base.join (Path.parse dir)) →
        (∀ followLast arrival, w.disk.locate followLast directory = .ok arrival →
          arrival.place = directory.parts) ∧
        (w.disk.Grounded → ∀ c : Cache, c.file = child directory Config.cacheFileName →
          ∀ q, (c.save.on w).2.disk.find? q ≠ w.disk.find? q →
            Disk.Within base.parts w.disk (c.save.on w).2.disk q)) := by
  obtain ⟨base, hPlaced⟩ := Config.cacheDirectory_on_ok hRun
  have hAnchor : directory.anchor = base.anchor := by
    rw [Disk.canonical_anchor hPlaced.found, Disk.canonical_anchor hPlaced.rooted]
  refine ⟨base, hPlaced.rooted, hAnchor, hPlaced.within, fun hFollowable => ?_⟩
  obtain ⟨hFree, hUp⟩ := placed_straight hPlaced hFollowable
  refine ⟨fun followLast arrival hLocate => hFree.place_of_locate hUp hLocate,
    fun hGrounded c hFile q hChanged => ?_⟩
  have hConfined := save_confined hFile hPlaced.isAbsolute (by decide) w
  rw [World.OnDisk, hFile] at hConfined
  exact hConfined.within hFree hGrounded hUp (by decide) hPlaced.within hChanged

namespace Sample

/-- A project with a link to one of its directories, a link that leads to
itself and a link out. -/
def enclosed : World where
  disk := ⟨[(["p"], .directory), (["p", "chain"], .link "deep/store"), (["p", "deep"], .directory),
    (["p", "loop"], .link "loop"), (["p", "out"], .link "../outside"), (["outside"], .directory)]⟩
  here := ⟨⟨.root, []⟩, []⟩
  locks := []
  watch := ⟨0, 1⟩

theorem enclosed_items : enclosed.disk.itemAt? ["p"] = some .directory ∧
    enclosed.disk.itemAt? ["p", "chain"] = some (.link "deep/store") ∧
    enclosed.disk.itemAt? ["p", "deep"] = some .directory ∧
    enclosed.disk.itemAt? ["p", "deep", "store"] = none := by decide

theorem enclosed_names : ((Path.mk .root ["p"]).join (Path.parse "chain")).parts = ["p", "chain"] ∧
    (Path.parse "deep/store").parts = ["deep", "store"] ∧
    Disk.targetStart ["p"] "deep/store" = ["p"] := by decide +kernel

/-- The link leads to a directory that is not there yet. -/
theorem chain_followable : enclosed.disk.Followable ((Path.mk .root ["p"]).join (Path.parse "chain")) := by
  obtain ⟨hTop, hChain, hDeep, hStore⟩ := enclosed_items
  obtain ⟨hNames, hParts, hStart⟩ := enclosed_names
  have hTarget : enclosed.disk.Resolves 2 (Disk.targetStart ["p"] "deep/store")
      (Path.parse "deep/store").parts ["p", "deep", "store"] := by
    rw [hParts, hStart]
    refine .plain (by decide) (fun _ => ?_) (.plain (by decide) (fun _ => ?_) .done)
    · exact fun hLink => by cases hDeep.symm.trans hLink
    · exact fun hLink => by cases hStore.symm.trans hLink
  have hChainLeads : enclosed.disk.Resolves 3 ["p"] ["chain"] ["p", "deep", "store"] :=
    .link (by decide) hChain hTarget .done
  refine ⟨4, ["p", "deep", "store"], ?_⟩
  rw [hNames]
  exact .plain (by decide) (fun _ hLink => by cases hTop.symm.trans hLink) hChainLeads

def store : Path := ⟨.root, ["p", "deep", "store"]⟩

theorem chain_placed :
    passes (fun directory _ => directory = store) ((Config.cacheDirectory ⟨.root, ["p"]⟩ "chain").on enclosed) = true ∧
    enclosed.disk.canonical (enclosed.here.join ⟨.root, ["p"]⟩) = .ok ⟨.root, ["p"]⟩ ∧
    enclosed.disk.Grounded := by
  decide +kernel

/-- A cache that is kept behind a link of the project: saving it changes
nothing outside. -/
theorem chain_enclosed : enclosed.disk.Followable ((Path.mk .root ["p"]).join (Path.parse "chain")) ∧
    enclosed.disk.Grounded ∧
    ∃ v, (Config.cacheDirectory ⟨.root, ["p"]⟩ "chain").on enclosed = (.ok store, v) ∧
      (["p"] : Place) <+: store.parts ∧
      ∀ q, ((save { file := child store Config.cacheFileName, project := ⟨.root, ["p"]⟩ }).on enclosed).2.disk.find? q ≠
          enclosed.disk.find? q →
        Disk.Within ["p"] enclosed.disk
          ((save { file := child store Config.cacheFileName, project := ⟨.root, ["p"]⟩ }).on enclosed).2.disk q := by
  obtain ⟨hPlaced, hRoot, hGrounded⟩ := chain_placed
  obtain ⟨directory, v, hRun, hDirectory⟩ := exists_of_passes hPlaced
  obtain rfl : directory = store := by simpa using hDirectory
  obtain ⟨base, hBase, -, hBelow, hInside⟩ := cache_within_project hRun
  obtain rfl := Except.ok.inj (hRoot.symm.trans hBase)
  exact ⟨chain_followable, hGrounded, v, hRun, hBelow, (hInside chain_followable).2 hGrounded _ rfl⟩

-- Behind a link that leads to itself the link out of the project is not followed any more.
example : passes (fun directory _ => directory = ⟨.root, ["p", "out"]⟩)
      ((Config.cacheDirectory ⟨.root, ["p"]⟩ "loop/../out").on enclosed) = true ∧
    enclosed.disk.locate true ⟨.root, ["p", "out"]⟩ = .ok (.found ["outside"] .directory) := by
  decide +kernel

end Sample

end Cache

end SourceAtlas
