import SourceAtlas.Record.Basic
import SourceAtlas.Text.Parts
import SourceAtlas.World.Files

/-!
Where imports lead. Only a source that begins with a point is looked up: first the path itself,
then the path with each extension, then an index file in the directory of that name. The first
regular file decides.
-/
namespace SourceAtlas

/-- Whether a path leads to a regular file, seen from the working directory. -/
def World.hasFile (w : World) (p : Path) : Except SystemError Bool :=
  match w.disk.isFile (w.here.join p) with
  | .ok b => .ok b
  | .error e => .error ⟨e, p.text, none⟩

namespace Resolution

open Text

def isRelative (source : Text) : Bool := startsWith "." source

def groupOf (source : Text) : ImportGroup :=
  if startsWith "@angular/" source then .framework
  else if startsWith "." source || startsWith "/" source then .relative
  else .thirdParty

/-- The paths to try, in order. -/
def candidates (base : Path) (extensions : List Text) : List Path :=
  base :: extensions.map base.append ++
    extensions.map fun ext => base.join (Path.parse ("index" ++ ext))

/-- The first of the paths that leads to a file. A path that cannot be asked
about stops the search. -/
def firstFile (w : World) : List Path → Except SystemError (Option Path)
  | [] => .ok none
  | p :: rest =>
    match w.hasFile p with
    | .error e => .error e
    | .ok true => .ok (some p)
    | .ok false => firstFile w rest

/-- The path a source denotes for the file that imports it. -/
def base (importer : Path) (source : Text) : Path :=
  (importer.parent.join (Path.parse source)).normalize

def resolve (w : World) (importer : Path) (source : Text) (extensions : List Text) :
    Except SystemError (Option Path) :=
  firstFile w (candidates (base importer source) extensions)

/-- The kind of an import and the path it leads to. -/
def classify (w : World) (importer : Path) (extensions : List Text) (source : Text) :
    Except SystemError (ImportKind × Option Text) :=
  if isRelative source then
    match resolve w importer source extensions with
    | .error e => .error e
    | .ok none => .ok (.unresolved, none)
    | .ok (some p) => .ok (.inside, some p.text)
  else .ok (.external, none)

/-- Look up an import again. External ones stay as they are. -/
def refreshImport (w : World) (importer : Path) (extensions : List Text) (i : Import) :
    Except SystemError Import :=
  if i.kind = .external then .ok i
  else
    match classify w importer extensions i.source with
    | .error e => .error e
    | .ok (kind, resolved) => .ok { i with kind := kind, resolved := resolved }

/-- Look up the imports of a remembered record again. -/
def refresh (w : World) (extensions : List Text) (r : Record) : Except SystemError Record :=
  match r.imports.mapM (refreshImport w (Path.parse r.path) extensions) with
  | .error e => .error e
  | .ok imports => .ok { r with imports := imports }

end Resolution

end SourceAtlas
