import SourceAtlas.Datum

/-!
JSON text of a datum. Documents are written with sorted keys and an indent of two blanks;
messages between programs are written on one line.
-/
namespace SourceAtlas.Json

open SourceAtlas.Number

/-- Why a datum has no JSON text. -/
inductive WriteFault where
  /-- An integer outside the range of 64-bit words, signed or unsigned. -/
  | integerRange (n : Int)
  /-- A text with bytes that are no characters. -/
  | noString (t : Text)
  deriving DecidableEq, Repr

/-- The written form of one character between quotes. -/
def escapeChar (c : Char) : List Char :=
  if c = '"' then ['\\', '"']
  else if c = '\\' then ['\\', '\\']
  else if c = '\n' then ['\\', 'n']
  else if c = '\r' then ['\\', 'r']
  else if c = '\t' then ['\\', 't']
  else if c.toNat = 8 then ['\\', 'b']
  else if c.toNat = 12 then ['\\', 'f']
  else if c.toNat < 0x20 then '\\' :: 'u' :: Text.Quoted.hex 4 c.toNat
  else [c]

/-- The written form of one sign. A byte stands for itself in messages only. -/
def escapeSign : Sign → List Char
  | .char c => escapeChar c
  | .byte b => Text.Quoted.encodeByte b

/-- A text with its quotes. -/
def quote (t : Text) : List Char := '"' :: (t.toList.flatMap escapeSign ++ ['"'])

/-- Documents hold the integers that fit 64 bits, with or without a sign. -/
def inRange (n : Int) : Bool := -9223372036854775808 ≤ n && n < 18446744073709551616

/-- Fields in the order of their keys by code point. -/
def sortFields {α : Type} (fields : List (Text × α)) : List (Text × α) :=
  Sorting.sort (fun a b => !(decide (b.1 < a.1))) fields

/-- A line break and the blanks in front of a value at this depth. -/
def newline (depth : Nat) : List Char := '\n' :: List.replicate (2 * depth) ' '

/-- Bracket the written items, one on a line. No item at all
is written inline. -/
def block (opening closing : Char) (depth : Nat) (items : List (List Char)) : List Char :=
  if items.isEmpty then [opening, closing]
  else
    opening :: (newline (depth + 1) ++ (',' :: newline (depth + 1)).intercalate items ++
      newline depth ++ [closing])

mutual

/-- The datum over several lines, as it stands at `depth`. -/
def render (depth : Nat) : Datum → Except WriteFault (List Char)
  | .null => .ok "null".toList
  | .bool true => .ok "true".toList
  | .bool false => .ok "false".toList
  | .int n => if inRange n then .ok (Datum.intText n).toList else .error (.integerRange n)
  | .float x => .ok (Style.document.text x).toList
  | .text t => if t.isString then .ok (quote t) else .error (.noString t)
  | .moment m => .ok (quote (Datum.momentText m))
  | .list items => return block '[' ']' depth (← renderItems (depth + 1) items)
  | .table fields => do
    let written ← renderFields (depth + 1) fields
    return block '{' '}' depth ((sortFields written).map fun p => quote p.1 ++ ':' :: ' ' :: p.2)

def renderItems (depth : Nat) : List Datum → Except WriteFault (List (List Char))
  | [] => .ok []
  | d :: rest => return (← render depth d) :: (← renderItems depth rest)

/-- Every field of a table with its key, in the order of the table. -/
def renderFields (depth : Nat) : List (Text × Datum) → Except WriteFault (List (Text × List Char))
  | [] => .ok []
  | (k, d) :: rest =>
    if k.isString then return (k, ← render depth d) :: (← renderFields depth rest)
    else .error (.noString k)

end

/-- A document: sorted keys, two blanks of indent, no final line break. -/
def document (d : Datum) : Except WriteFault (List Char) := render 0 d

mutual

/-- The datum on one line, keys in the order of the table,
integers of any size. -/
def compact : Datum → String
  | .null => "null"
  | .bool true => "true"
  | .bool false => "false"
  | .int n => Datum.intText n
  | .float x => Style.document.text x
  | .text s => String.ofList (quote s)
  | .moment m => String.ofList (quote (Datum.momentText m))
  | .list items => "[" ++ ",".intercalate (compactItems items) ++ "]"
  | .table fields => "\x7b" ++ ",".intercalate (compactFields fields) ++ "\x7d"

def compactItems : List Datum → List String
  | [] => []
  | d :: rest => compact d :: compactItems rest

def compactFields : List (Text × Datum) → List String
  | [] => []
  | (k, d) :: rest => (String.ofList (quote k) ++ ":" ++ compact d) :: compactFields rest

end

end SourceAtlas.Json
