import SourceAtlas.Text.Basic

/-!
What can be wrong with a datum that should fit a shape. Checking goes on after a fault, so that
all faults of a document are found, in the order of the fields of its shape.
-/
namespace SourceAtlas.Schema

/-- Why a datum does not fit. -/
inductive Cause where
  /-- A required field is absent. -/
  | missing
  /-- A field the shape does not know. -/
  | unexpected
  | notTable
  | notText
  /-- A text that is none of the words allowed here. -/
  | notMember
  | notList
  | notMap
  | notInteger
  /-- A number with a fraction where an integer is needed. -/
  | fraction
  | notFinite
  | malformedInteger
  /-- An integer with more digits than are read. -/
  | hugeInteger
  | tooSmall
  | notBoolean
  | malformedBoolean
  | notNumber
  | malformedNumber
  /-- A rule of the shape's own, with its wording. -/
  | rejected (message : String)
  deriving DecidableEq, Repr

/-- A cause and where it is: the keys and indices from the outside in. -/
structure Fault where
  place : List Text
  cause : Cause
  deriving DecidableEq, Repr

/-- The same fault seen from one level further out. -/
def Fault.under (key : Text) (f : Fault) : Fault := { f with place := key :: f.place }

/-- A value, or all that is wrong with it. -/
inductive Checked (α : Type) where
  | valid (value : α)
  | invalid (faults : List Fault)
  deriving Repr

namespace Checked

variable {α β : Type}

def fail (cause : Cause) : Checked α := .invalid [⟨[], cause⟩]

def map (f : α → β) : Checked α → Checked β
  | valid a => valid (f a)
  | invalid fs => invalid fs

/-- Apply a checked function to a checked value; the faults of both count. -/
def apply : Checked (α → β) → Checked α → Checked β
  | valid f, valid a => valid (f a)
  | valid _, invalid fs => invalid fs
  | invalid fs, valid _ => invalid fs
  | invalid fs, invalid gs => invalid (fs ++ gs)

instance : Functor Checked where
  map := map

instance : Pure Checked where
  pure := valid

instance : Seq Checked where
  seq f x := apply f (x ())

def under (key : Text) : Checked α → Checked α
  | valid a => valid a
  | invalid fs => invalid (fs.map (Fault.under key))

/-- Faults to be counted besides those of the value. -/
def andAlso (extra : List Fault) : Checked α → Checked α
  | valid a => if extra.isEmpty then valid a else invalid extra
  | invalid fs => invalid (fs ++ extra)

end Checked

end SourceAtlas.Schema
