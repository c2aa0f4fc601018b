import SourceAtlas.Assoc
import SourceAtlas.Number.Decimal
import SourceAtlas.Text.Quoted

/-!
Values of documents before they are known to fit a shape: what a JSON or TOML text says. Tables
keep the order in which their keys were first written.
-/
namespace SourceAtlas

open SourceAtlas.Number SourceAtlas.Text

structure Day where
  year : Nat
  month : Nat
  date : Nat
  deriving DecidableEq, Repr

structure Clock where
  hour : Nat
  minute : Nat
  second : Nat
  micro : Nat
  deriving DecidableEq, Repr

/-- A date, a time, or both, with an offset from UTC in minutes
if one was written. -/
inductive Moment where
  | day (d : Day)
  | time (t : Clock)
  | both (d : Day) (t : Clock) (offset : Option Int)
  deriving DecidableEq, Repr

/-- A value of a document. -/
inductive Datum where
  | null
  | bool (b : Bool)
  | int (n : Int)
  | float (x : Double)
  | text (s : Text)
  | moment (m : Moment)
  | list (items : List Datum)
  | table (fields : List (Text × Datum))
  deriving Repr

namespace Datum

def lookup (key : Text) (fields : Assoc Text Datum) : Option Datum := Assoc.get? key fields

/-- Put a value under `key`: a known key keeps its place and
takes the new value. -/
def put (key : Text) (value : Datum) (fields : Assoc Text Datum) : Assoc Text Datum :=
  Assoc.put key value fields

def field? (key : Text) : Datum → Option Datum
  | .table fields => lookup key fields
  | _ => none

def intText (n : Int) : String :=
  if n < 0 then "-" ++ Style.natText n.natAbs else Style.natText n.natAbs

/-- Parts of a moment as they are shown, without trailing zero
parts of the time. -/
def clockText (t : Clock) : List String :=
  let base := [intText t.hour, intText t.minute]
  if t.micro ≠ 0 then base ++ [intText t.second, intText t.micro]
  else if t.second ≠ 0 then base ++ [intText t.second] else base

def dayText (d : Day) : List String := [intText d.year, intText d.month, intText d.date]

/-- The shown form of an offset: whole days below zero and the
seconds that remain. -/
def offsetText (minutes : Int) : String :=
  if minutes = 0 then "datetime.timezone.utc"
  else if 0 < minutes then
    "datetime.timezone(datetime.timedelta(seconds=" ++ intText (minutes * 60) ++ "))"
  else
    "datetime.timezone(datetime.timedelta(days=-1, seconds=" ++
      intText (86400 + minutes * 60) ++ "))"

def momentText : Moment → String
  | .day d => "datetime.date(" ++ ", ".intercalate (dayText d) ++ ")"
  | .time t => "datetime.time(" ++ ", ".intercalate (clockText t) ++ ")"
  | .both d t offset =>
    let zone := match offset with
      | none => []
      | some m => ["tzinfo=" ++ offsetText m]
    "datetime.datetime(" ++ ", ".intercalate (dayText d ++ clockText t ++ zone) ++ ")"

mutual

/-- The value as messages show it. -/
def shown : Datum → String
  | .null => "None"
  | .bool true => "True"
  | .bool false => "False"
  | .int n => intText n
  | .float x => Style.message.text x
  | .text s => Quoted.encode s
  | .moment m => momentText m
  | .list items => "[" ++ ", ".intercalate (shownItems items) ++ "]"
  | .table fields => "\x7b" ++ ", ".intercalate (shownFields fields) ++ "\x7d"

def shownItems : List Datum → List String
  | [] => []
  | d :: rest => shown d :: shownItems rest

def shownFields : List (Text × Datum) → List String
  | [] => []
  | (k, d) :: rest => (Quoted.encode k ++ ": " ++ shown d) :: shownFields rest

end

end Datum

end SourceAtlas
