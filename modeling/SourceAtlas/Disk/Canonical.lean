import SourceAtlas.Disk.Lookup

/-!
The canonical form of a path: no link and no two points are left in it. Names that do not exist
are kept, so that a path to something yet to be made has a canonical form too.
-/
namespace SourceAtlas.Disk

/-- What is known about links on the way: the place a link stands for, or
nothing while it is still being followed. -/
abbrev Known := List (Place × Option Place)

/-- The names found so far, and whether every link could be followed. -/
structure Canonical where
  place : Place
  complete : Bool
  known : Known

/-- The item at a place whose directory is really there. -/
def itemAt? (d : Disk) (p : Place) : Option Item :=
  if d.isDirectoryAt p.dropLast then d.find? p else none

/-- Go on from a place by names. `onLink` follows the target of a
link from a place. -/
def canonicalNames (d : Disk) (onLink : Known → Place → List Text → Canonical) :
    Known → Place → List Text → Canonical
  | known, here, [] => ⟨here, true, known⟩
  | known, here, name :: rest =>
    if name = ".." then canonicalNames d onLink known here.dropLast rest
    else
      let place := here ++ [name]
      match d.itemAt? place with
      | some (.link target) =>
        match known.lookup place with
        | some (some goal) => canonicalNames d onLink known goal rest
        | some none => ⟨place ++ rest, false, known⟩
        | none =>
          let path := Path.parse target
          let reached := onLink ((place, none) :: known)
            (if path.isAbsolute then [] else here) path.parts
          if reached.complete then
            canonicalNames d onLink ((place, some reached.place) :: reached.known) reached.place rest
          else ⟨reached.place ++ rest, false, reached.known⟩
      | _ => canonicalNames d onLink known place rest

/-- Follow links up to a depth. Each level follows a link that no level
above it follows, so the number of links on the disk is depth enough. -/
def canonicalFrom (d : Disk) : Nat → Known → Place → List Text → Canonical
  | 0 => canonicalNames d fun known here names => ⟨here ++ names, false, known⟩
  | depth + 1 => canonicalNames d (canonicalFrom d depth)

def linkCount (d : Disk) : Nat :=
  (d.entries.filter fun e =>
    match e.2 with
    | .link _ => true
    | _ => false).length

/-- Why a path has no canonical form. -/
inductive Unresolvable where
  /-- Links lead in a circle. -/
  | circle
  | nul
  deriving DecidableEq, Repr

def canonical (d : Disk) (p : Path) : Except Unresolvable Path :=
  if p.parts.any fun part => part.toList.contains (Char.ofNat 0) then .error .nul
  else
    let reached := d.canonicalFrom (d.linkCount + 1) [] [] p.parts
    let path := (Path.mk .root reached.place).normalize
    match d.locate true path with
    | .error (.errno .linkLoop) => .error .circle
    | _ => .ok path

end SourceAtlas.Disk
