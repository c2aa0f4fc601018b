import SourceAtlas.Text.Basic

/-!
Paths as text rules them, without looking at a disk: doubled slashes and single points vanish, two
points stay until a path is normalised.
-/
namespace SourceAtlas

/-- What a path starts from. Exactly two leading slashes are a
root of their own. -/
inductive Anchor where
  | none
  | root
  | doubleRoot
  deriving DecidableEq, Repr

def Anchor.text : Anchor → Text
  | .none => ""
  | .root => "/"
  | .doubleRoot => "//"

/-- A path: where it starts from and the names along it. -/
structure Path where
  anchor : Anchor
  parts : List Text
  deriving DecidableEq, Repr

namespace Path

/-- Cut a text at its slashes; `current` holds the piece being
read, in reverse. -/
def piecesFrom (current : List Sign) : List Sign → List Text
  | [] => [Text.ofList current.reverse]
  | c :: rest =>
    if c = .char '/' then Text.ofList current.reverse :: piecesFrom [] rest
    else piecesFrom (c :: current) rest

/-- The pieces of a text between its slashes. -/
def pieces (cs : List Sign) : List Text := piecesFrom [] cs

/-- The anchor that a number of leading slashes makes. -/
def anchorOf (slashes : Nat) : Anchor :=
  if slashes = 0 then .none else if slashes = 2 then .doubleRoot else .root

def parse (s : Text) : Path :=
  let cs := s.toList
  ⟨anchorOf (cs.takeWhile (· = .char '/')).length, (pieces cs).filter fun p => p ≠ "" && p ≠ "."⟩

/-- The text of a path; the empty path is a point. -/
def text (p : Path) : Text :=
  let body := p.anchor.text ++ Text.intercalate "/" p.parts
  if body = "" then "." else body

def isAbsolute (p : Path) : Bool := p.anchor ≠ .none

/-- The second path seen from the first. -/
def join (p q : Path) : Path :=
  if q.isAbsolute then q else ⟨p.anchor, p.parts ++ q.parts⟩

def parent (p : Path) : Path := ⟨p.anchor, p.parts.dropLast⟩

/-- The last name, empty if there is none. -/
def name (p : Path) : Text := p.parts.getLast?.getD ""

/-- The last point of the last name and what follows it. A point at
either end of the name begins no suffix. -/
def suffix (p : Path) : Text :=
  let tail := (p.name.toList.reverse.takeWhile (· ≠ .char '.')).reverse
  if tail.isEmpty || p.name.toList.length ≤ tail.length + 1 then "" else "." ++ Text.ofList tail

/-- The path with another text at the end of its last name in place of its
suffix. A path without names has none to change. -/
def withSuffix? (p : Path) (new : Text) : Option Path :=
  if p.parts.isEmpty then none
  else
    let stem := p.name.toList.take (p.name.toList.length - p.suffix.toList.length)
    some ⟨p.anchor, p.parts.dropLast ++ [Text.ofList stem ++ new]⟩

/-- The path as seen from a directory above it. -/
def relativeTo? (p base : Path) : Option Path :=
  if p.anchor = base.anchor && base.parts.isPrefixOf p.parts then
    some ⟨.none, p.parts.drop base.parts.length⟩
  else none

/-- The text of `p` as seen from `base`, or of `p` itself if it
does not lie below. -/
def relativeText (p base : Path) : Text := ((p.relativeTo? base).getD p).text

/-- Drop two points together with the name before them; `done` holds names
in reverse. -/
def collapse (absolute : Bool) (done : List Text) : List Text → List Text
  | [] => done.reverse
  | part :: rest =>
    if part ≠ ".." then collapse absolute (part :: done) rest
    else
      match done with
      | [] => if absolute then collapse absolute [] rest else collapse absolute [".."] rest
      | last :: before =>
        if last = ".." then collapse absolute (".." :: done) rest
        else collapse absolute before rest

/-- The path without two points, as far as names before them allow. Links
are not looked at. -/
def normalize (p : Path) : Path := ⟨p.anchor, collapse p.isAbsolute [] p.parts⟩

/-- The text `extra` written directly after the path. -/
def append (p : Path) (extra : Text) : Path := parse (p.text ++ extra)

end Path

end SourceAtlas
