import SourceAtlas.Datum

/-!
JSON text read into a datum. The reader is strict: one value with blanks around it, no comments,
no trailing commas, no raw control characters in strings, no lone surrogates. A repeated key keeps
its first place and takes the last value.
-/
namespace SourceAtlas.Json

open SourceAtlas.Number

/-- Where a text stops being JSON: how many characters were left. -/
structure ReadFault where
  remaining : Nat
  deriving DecidableEq, Repr

/-- What becomes of an integer that fits no 64-bit word, and of a number
beyond all doubles. -/
inductive LargeIntegers where
  /-- An integer stays what it is, and the number beyond all doubles is infinite. -/
  | keep
  /-- An integer becomes the nearest double, and a number beyond all doubles is refused. -/
  | asDouble
  deriving DecidableEq, Repr

def refuse {α : Type} (cs : List Char) : Except ReadFault (α × List Char) := .error ⟨cs.length⟩

def isBlank (c : Char) : Bool := c = ' ' || c = '\n' || c = '\r' || c = '\t'

def skipBlanks (cs : List Char) : List Char := cs.dropWhile isBlank

def isDigit (c : Char) : Bool := '0' ≤ c && c ≤ '9'

def digitValue (c : Char) : Nat := c.toNat - '0'.toNat

def digitsValue (cs : List Char) : Nat := cs.foldl (fun n c => n * 10 + digitValue c) 0

def hexValue? (c : Char) : Option Nat :=
  if isDigit c then some (digitValue c)
  else if 'a' ≤ c && c ≤ 'f' then some (c.toNat - 'a'.toNat + 10)
  else if 'A' ≤ c && c ≤ 'F' then some (c.toNat - 'A'.toNat + 10)
  else none

/-- Four hexadecimal digits. -/
def hexUnit? : List Char → Option (Nat × List Char)
  | a :: b :: c :: d :: rest => do
    let a ← hexValue? a
    let b ← hexValue? b
    let c ← hexValue? c
    let d ← hexValue? d
    return (((a * 16 + b) * 16 + c) * 16 + d, rest)
  | _ => none

/-- The character of a `u` escape whose digits come next. A high surrogate
takes the low one that must follow it. -/
def unicodeEscape? (cs : List Char) : Option (Char × List Char) := do
  let (unit, rest) ← hexUnit? cs
  if 0xD800 ≤ unit && unit < 0xDC00 then
    match rest with
    | '\\' :: 'u' :: rest =>
      let (low, rest) ← hexUnit? rest
      if 0xDC00 ≤ low && low < 0xE000 then
        return (Char.ofNat (0x10000 + (unit - 0xD800) * 0x400 + (low - 0xDC00)), rest)
      else none
    | _ => none
  else if 0xDC00 ≤ unit && unit < 0xE000 then none
  else return (Char.ofNat unit, rest)

def simpleEscape? (c : Char) : Option Char :=
  if c = '"' || c = '\\' || c = '/' then some c
  else if c = 'b' then some (Char.ofNat 8)
  else if c = 'f' then some (Char.ofNat 12)
  else if c = 'n' then some '\n'
  else if c = 'r' then some '\r'
  else if c = 't' then some '\t'
  else none

/-- The rest of a string after its opening quote; `done` holds the
characters before, in reverse. Each step takes at least one character, so
the length of the input is enough fuel. -/
def stringTail : Nat → List Char → List Char → Except ReadFault (Text × List Char)
  | 0, _, cs => refuse cs
  | fuel + 1, done, cs =>
    match cs with
    | [] => refuse cs
    | '"' :: rest => .ok (Text.ofChars done.reverse, rest)
    | '\\' :: 'u' :: rest =>
      match unicodeEscape? rest with
      | some (c, rest) => stringTail fuel (c :: done) rest
      | none => refuse cs
    | '\\' :: e :: rest =>
      match simpleEscape? e with
      | some c => stringTail fuel (c :: done) rest
      | none => refuse cs
    | c :: rest => if c.toNat < 0x20 || c = '\\' then refuse cs else stringTail fuel (c :: done) rest

def fractional (large : LargeIntegers) (x : Double) (cs rest : List Char) :
    Except ReadFault (Datum × List Char) :=
  match large, x with
  | .asDouble, .infinite _ => refuse cs
  | _, x => .ok (.float x, rest)

/-- A number: an optional sign, an integer without leading zeros,
an optional fraction and an optional exponent. Only a bare
integer is an integer. -/
def number (large : LargeIntegers) (cs : List Char) : Except ReadFault (Datum × List Char) :=
  let (negative, body) := match cs with
    | '-' :: rest => (true, rest)
    | _ => (false, cs)
  let whole := body.takeWhile isDigit
  let rest := body.dropWhile isDigit
  if whole.isEmpty || (whole.length > 1 && whole.head? = some '0') then refuse cs
  else
    let (fraction, afterFraction, badFraction) := match rest with
      | '.' :: more => (more.takeWhile isDigit, more.dropWhile isDigit, !(more.head?.any isDigit))
      | _ => ([], rest, false)
    let (power, afterPower, badPower, hasPower) := match afterFraction with
      | e :: more =>
        if e = 'e' || e = 'E' then
          let (minus, digits) := match more with
            | '-' :: more => (true, more)
            | '+' :: more => (false, more)
            | _ => (false, more)
          let value : Int := digitsValue (digits.takeWhile isDigit)
          (if minus then -value else value, digits.dropWhile isDigit, !(digits.head?.any isDigit),
            true)
        else ((0 : Int), afterFraction, false, false)
      | [] => ((0 : Int), afterFraction, false, false)
    if badFraction || badPower then refuse cs
    else if fraction.isEmpty && !hasPower then
      let n : Int := digitsValue whole
      let n := if negative then -n else n
      let fits := -9223372036854775808 ≤ n && n < 18446744073709551616
      if fits || large = .keep then .ok (.int n, afterPower)
      else fractional large (Double.ofInt n) cs afterPower
    else
      let digits := digitsValue (whole ++ fraction)
      fractional large (Double.ofDecimal negative digits (power - fraction.length)) cs afterPower

def literal (word : List Char) (value : Datum) (cs : List Char) : Except ReadFault (Datum × List Char) :=
  if word.isPrefixOf cs then .ok (value, cs.drop word.length) else refuse cs

mutual

def value (large : LargeIntegers) : Nat → List Char → Except ReadFault (Datum × List Char)
  | 0, cs => refuse cs
  | fuel + 1, cs =>
    match skipBlanks cs with
    | [] => refuse []
    | '"' :: rest => do
      let (s, rest) ← stringTail rest.length.succ [] rest
      return (.text s, rest)
    | '[' :: rest =>
      match skipBlanks rest with
      | ']' :: rest => .ok (.list [], rest)
      | rest => items large fuel [] rest
    | '{' :: rest =>
      match skipBlanks rest with
      | '}' :: rest => .ok (.table [], rest)
      | rest => fields large fuel [] rest
    | 'n' :: rest => literal "null".toList .null ('n' :: rest)
    | 't' :: rest => literal "true".toList (.bool true) ('t' :: rest)
    | 'f' :: rest => literal "false".toList (.bool false) ('f' :: rest)
    | cs => number large cs

/-- The items of a list after `done`, up to its closing bracket. -/
def items (large : LargeIntegers) : Nat → List Datum → List Char → Except ReadFault (Datum × List Char)
  | 0, _, cs => refuse cs
  | fuel + 1, done, cs => do
    let (v, rest) ← value large fuel cs
    match skipBlanks rest with
    | ',' :: rest => items large fuel (v :: done) rest
    | ']' :: rest => return (.list (v :: done).reverse, rest)
    | rest => refuse rest

/-- The fields of a table after `done`, up to its closing brace. -/
def fields (large : LargeIntegers) : Nat → List (Text × Datum) → List Char → Except ReadFault (Datum × List Char)
  | 0, _, cs => refuse cs
  | fuel + 1, done, cs =>
    match skipBlanks cs with
    | '"' :: rest => do
      let (key, rest) ← stringTail rest.length.succ [] rest
      match skipBlanks rest with
      | ':' :: rest =>
        let (v, rest) ← value large fuel rest
        let done := Datum.put key v done
        match skipBlanks rest with
        | ',' :: rest => fields large fuel done rest
        | '}' :: rest => return (.table done, rest)
        | rest => refuse rest
      | rest => refuse rest
    | cs => refuse cs

end

def parse (large : LargeIntegers) (cs : List Char) : Except ReadFault Datum :=
  match value large (cs.length + 1) cs with
  | .ok (v, rest) => if (skipBlanks rest).isEmpty then .ok v else .error ⟨rest.length⟩
  | .error f => .error f

end SourceAtlas.Json
