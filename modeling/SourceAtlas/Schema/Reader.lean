import SourceAtlas.Datum
import SourceAtlas.Json.Reader
import SourceAtlas.Schema.Fault
import SourceAtlas.Text.Blank

/-!
Readers of data by shape. They are lenient where it is safe: a text of digits passes as an
integer, a word such as `yes` as a truth value, an integral number as an integer.
-/
namespace SourceAtlas.Schema

open SourceAtlas.Number

variable {α β : Type}

/-- The fields of a table. -/
abbrev Fields := List (Text × Datum)

/-- A reader of one datum. -/
abbrev Reader (α : Type) := Datum → Checked α

namespace Reader

def text : Reader Text
  | .text s => .valid s
  | _ => .fail .notText

/-- Leading zeros of a written integer, underscores among them, dropped; the
last zero of an integer that is zero stays. -/
def dropZeros (cs : List Char) : Option (List Char) :=
  match cs with
  | '0' :: rest =>
    match rest.dropWhile fun c => c = '0' || c = '_' with
    | [] => cs.getLast?.map fun c => [c]
    | '.' :: fraction => some ((cs.getD (cs.length - fraction.length - 2) '0') :: '.' :: fraction)
    | c :: more => if Json.isDigit c then some (c :: more) else none
  | c :: _ => if Json.isDigit c || c = '-' then some cs else none
  | [] => none

/-- A fraction of zeros only, dropped with its point. -/
def dropZeroFraction (cs : List Char) : List Char :=
  match cs.dropWhile (· ≠ '.') with
  | '.' :: fraction => if fraction.all (· = '0') then cs.takeWhile (· ≠ '.') else cs
  | _ => cs

/-- Whether underscores stand between digits only, one at a time. -/
def singleUnderscores : List Char → Bool
  | [] => true
  | ['_'] => false
  | '_' :: '_' :: _ => false
  | _ :: rest => singleUnderscores rest

/-- Underscores between digits dropped. -/
def dropUnderscores (cs : List Char) : List Char :=
  if cs.head? ≠ some '_' && singleUnderscores cs then cs.filter (· ≠ '_') else cs

/-- Decimal digits without needless zeros, after an optional minus. -/
def plainInteger? (cs : List Char) : Option Int :=
  let (negative, digits) := match cs with
    | '-' :: rest => (true, rest)
    | _ => (false, cs)
  if digits.isEmpty || !digits.all Json.isDigit || (digits.length > 1 && digits.head? = some '0') then
    none
  else
    let n : Int := Json.digitsValue digits
    some (if negative then -n else n)

/-- A written integer with blanks around it, a sign, underscores and a
fraction of zeros. -/
def integerText? (cs : List Char) : Option Int := do
  let cs := Text.trim Text.isWhite cs
  let cs ← match cs with
    | '+' :: '-' :: _ => none
    | '+' :: rest => some rest
    | _ => some cs
  let cs ← dropZeros cs
  plainInteger? (dropUnderscores (dropZeroFraction cs))

/-- Doubles that are integers are read only within the range of signed
64-bit words. -/
def integer : Reader Int
  | .int n => .valid n
  | .bool b => .valid (if b then 1 else 0)
  | .float x =>
    match x with
    | .finite _ _ _ =>
      if !x.isIntegral then .fail .fraction
      else
        let n := x.toInt
        if -9223372036854775808 < n && n < 9223372036854775808 then .valid n else .fail .hugeInteger
    | _ => .fail .notFinite
  | .text t =>
    if mostDigits < t.length then .fail .hugeInteger
    else
      match t.chars?.bind integerText? with
      | some n => .valid n
      | none => .fail .malformedInteger
  | _ => .fail .notInteger

/-- An integer that is not below `least`. -/
def integerFrom (least : Int) : Reader Int := fun d =>
  match integer d with
  | .valid n => if n < least then .fail .tooSmall else .valid n
  | other => other

def falseWords : List (List Char) := ["0", "off", "f", "false", "n", "no"].map String.toList

def trueWords : List (List Char) := ["1", "on", "t", "true", "y", "yes"].map String.toList

def boolean : Reader Bool
  | .bool b => .valid b
  | .int n =>
    if n = 0 then .valid false else if n = 1 then .valid true else .fail .malformedBoolean
  | .float x =>
    if x.isIntegral && x.toInt = 0 then .valid false
    else if x.isIntegral && x.toInt = 1 then .valid true
    else .fail .notBoolean
  | .text t =>
    let word := (t.chars?.getD []).map Char.toLower
    if falseWords.contains word then .valid false
    else if trueWords.contains word then .valid true
    else .fail .malformedBoolean
  | _ => .fail .notBoolean

/-- A written number without blanks: digits with an optional point and
exponent, or a name of infinity or of no number. -/
def plainNumber? (cs : List Char) : Option Double :=
  let (negative, body) := match cs with
    | '-' :: rest => (true, rest)
    | '+' :: rest => (false, rest)
    | _ => (false, cs)
  let word := String.ofList (body.map Char.toLower)
  if word = "inf" || word = "infinity" then some (.infinite negative)
  else if word = "nan" then some .notANumber
  else
    let whole := body.takeWhile Json.isDigit
    let rest := body.dropWhile Json.isDigit
    let (fraction, rest) := match rest with
      | '.' :: more => (more.takeWhile Json.isDigit, more.dropWhile Json.isDigit)
      | _ => ([], rest)
    if whole.isEmpty && fraction.isEmpty then none
    else
      let exponent : Option Int := match rest with
        | [] => some 0
        | e :: more =>
          if e = 'e' || e = 'E' then
            let (minus, digits) := match more with
              | '-' :: more => (true, more)
              | '+' :: more => (false, more)
              | _ => (false, more)
            if digits.isEmpty || !digits.all Json.isDigit then none
            else
              let n : Int := Json.digitsValue digits
              some (if minus then -n else n)
          else none
      exponent.map fun e =>
        Double.ofDecimal negative (Json.digitsValue (whole ++ fraction)) (e - fraction.length)

def number : Reader Double
  | .int n => .valid (Double.ofInt n)
  | .bool b => .valid (Double.ofInt (if b then 1 else 0))
  | .float x => .valid x
  | .text s =>
    let cs := Text.trim Text.isWhite (s.chars?.getD [])
    match plainNumber? cs <|> plainNumber? (dropUnderscores cs) with
    | some x => .valid x
    | none => .fail .malformedNumber
  | _ => .fail .notNumber

/-- One of the members of a closed set, by its word. -/
def member (all : List α) (word : α → Text) : Reader α
  | .text s =>
    match all.find? fun a => word a = s with
    | some a => .valid a
    | none => .fail .notMember
  | _ => .fail .notMember

def optional (read : Reader α) : Reader (Option α)
  | .null => .valid none
  | d => (read d).map some

def itemsFrom (read : Reader α) : Nat → List Datum → Checked (List α)
  | _, [] => .valid []
  | i, d :: rest =>
    Checked.apply (((read d).under (Style.natText i)).map List.cons) (itemsFrom read (i + 1) rest)

def list (read : Reader α) : Reader (List α)
  | .list items => itemsFrom read 0 items
  | _ => .fail .notList

def entries (read : Reader α) : Fields → Checked (List (Text × α))
  | [] => .valid []
  | (k, d) :: rest =>
    Checked.apply (((read d).under k).map fun a => List.cons (k, a)) (entries read rest)

def map (read : Reader α) : Reader (List (Text × α))
  | .table fields => entries read fields
  | _ => .fail .notMap

/-- A table of known fields. -/
def shape (read : Fields → Checked α) : Reader α
  | .table fields => read fields
  | _ => .fail .notTable

end Reader

def required (key : Text) (read : Reader α) (fields : Fields) : Checked α :=
  match Datum.lookup key fields with
  | some d => (read d).under key
  | none => .invalid [⟨[key], .missing⟩]

/-- A field with a value to take when it is absent. -/
def field (key : Text) (default : α) (read : Reader α) (fields : Fields) : Checked α :=
  match Datum.lookup key fields with
  | some d => (read d).under key
  | none => .valid default

/-- One fault for each field that is not among the `known`, in the
order of the table. -/
def unexpected (known : List Text) (fields : Fields) : List Fault :=
  (fields.filter fun p => !known.contains p.1).map fun p => ⟨[p.1], .unexpected⟩

end SourceAtlas.Schema
