import SourceAtlas.Toml.Value

/-!
TOML documents: lines that set keys, open tables and add tables to arrays. A table is opened once,
and what a line wrote is not written again.
-/
namespace SourceAtlas.Toml

/-- What is known about the tables written so far. -/
structure Flags where
  /-- Tables that may not be opened again. -/
  opened : List (List Text) := []
  /-- Values to which nothing may be added, at any depth. -/
  closed : List (List Text) := []
  /-- Tables made by keys with points since the last heading; they count as opened after the
  next. -/
  pending : List (List Text) := []

namespace Flags

def isOpened (f : Flags) (path : List Text) : Bool := f.opened.contains path

def isClosed (f : Flags) (path : List Text) : Bool := f.closed.any fun p => p.isPrefixOf path

/-- Forget all about a path and what lies below it. -/
def forget (path : List Text) (f : Flags) : Flags :=
  { f with
    opened := f.opened.filter fun p => !path.isPrefixOf p
    closed := f.closed.filter fun p => !path.isPrefixOf p }

def settle (f : Flags) : Flags := { f with opened := f.pending ++ f.opened, pending := [] }

end Flags

/-- A document between two lines. -/
structure Document where
  fields : Fields := []
  flags : Flags := {}
  /-- The table that keys are set in. -/
  heading : List Text := []

def openTable (d : Document) (path : List Text) : Option Document := do
  let flags := d.flags
  if flags.isOpened path || flags.isClosed path then none
  let fields ← inside true some path d.fields
  return { fields := fields, flags := { flags with opened := path :: flags.opened }, heading := path }

/-- Add a table to the array under a name. -/
def appendTable (k : Text) (fields : Fields) : Option Fields :=
  match Assoc.get? k fields with
  | none => some (Assoc.put k (.list [.table []]) fields)
  | some (.list items) => some (Assoc.put k (.list (items ++ [.table []])) fields)
  | some _ => none

/-- Add a table to an array and open it. -/
def openItem (d : Document) (path : List Text) : Option Document := do
  if d.flags.isClosed path then none
  let flags := d.flags.forget path
  let fields ← inside true (appendTable (path.getLast?.getD "")) path.dropLast d.fields
  return { fields := fields, flags := { flags with opened := path :: flags.opened }, heading := path }

/-- The tables on the way to a key with points, from the outside in. -/
def between (heading path : List Text) : List (List Text) :=
  (List.range (path.length - 1)).map fun i => heading ++ path.take (i + 1)

def setKey (d : Document) (path : List Text) (v : Datum) : Option Document := do
  let made := between d.heading path
  if made.any d.flags.isOpened then none
  let parent := d.heading ++ path.dropLast
  if d.flags.isClosed parent then none
  let fields ← inside true (addField (path.getLast?.getD "") v) parent d.fields
  let flags := { d.flags with pending := d.flags.pending ++ made }
  let flags :=
    if isClosed v then { flags with closed := (d.heading ++ path) :: flags.closed } else flags
  return { d with fields := fields, flags := flags }

/-- What a line does, and what follows it on the line. -/
def statement (d : Document) (cs : List Char) : Except Fault (Document × List Char) :=
  match cs with
  | '[' :: '[' :: rest => do
    let (path, rest) ← need (key (rest.length + 1) (skipBlanks rest))
    let d ← need (openItem { d with flags := d.flags.settle } path)
    return (d, ← need (expect ']' (← need (expect ']' rest))))
  | '[' :: rest => do
    let (path, rest) ← need (key (rest.length + 1) (skipBlanks rest))
    let d ← need (openTable { d with flags := d.flags.settle } path)
    return (d, ← need (expect ']' rest))
  | '#' :: _ => .ok (d, cs)
  | _ => do
    let (path, rest) ← need (key (cs.length + 1) cs)
    let (v, rest) ← value (rest.length + 1) (skipBlanks (← need (expect '=' rest)))
    return (← need (setKey d path v), rest)

/-- The lines of a document, or how many characters are left where it is not
read on. Each line takes at least one character, so the length of the text
is enough fuel. -/
def lines : Nat → Document → List Char → Except (Fault × Nat) Document
  | 0, d, _ => .ok d
  | fuel + 1, d, cs =>
    match skipBlanks cs with
    | [] => .ok d
    | '\n' :: rest => lines fuel d rest
    | text =>
      let after := do
        let (d, rest) ← statement d text
        return (d, ← need (skipComment (skipBlanks rest)))
      match after with
      | .ok (d, []) => .ok d
      | .ok (d, '\n' :: rest) => lines fuel d rest
      | .ok _ => .error (.malformed, text.length)
      | .error f => .error (f, text.length)

/-- Line breaks of two characters made one. -/
def joinBreaks : List Char → List Char
  | '\r' :: '\n' :: rest => '\n' :: joinBreaks rest
  | c :: rest => c :: joinBreaks rest
  | [] => []

/-- The fields of a whole document, or why it is not read
and near which line. -/
def parse (cs : List Char) : Except (Fault × Nat) Fields :=
  let cs := joinBreaks cs
  match lines (cs.length + 1) {} cs with
  | .ok d => .ok d.fields
  | .error (f, left) => .error (f, (cs.take (cs.length - left)).count '\n' + 1)

end SourceAtlas.Toml
