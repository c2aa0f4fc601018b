import SourceAtlas.Json.Reader

/-!
Values of TOML documents: strings of four kinds, numbers, truth values, dates and times, arrays and
inline tables. Each reader takes a value off the front of the text, or refuses.
-/
namespace SourceAtlas.Toml

open Number

inductive Fault where
  /-- It is not TOML from here on. -/
  | malformed
  /-- An integer in base ten has more digits than are read. -/
  | hugeInteger
  deriving DecidableEq, Repr

/-- What is not there makes the text malformed. -/
def need {α : Type} : Option α → Except Fault α
  | some a => .ok a
  | none => .error .malformed

def isBlank (c : Char) : Bool := c = ' ' || c = '\t'

def skipBlanks (cs : List Char) : List Char := cs.dropWhile isBlank

def isBlankOrBreak (c : Char) : Bool := isBlank c || c = '\n'

def isControl (c : Char) : Bool := c.toNat < 32 || c.toNat = 127

/-- Control characters that may not stand in comments and
strings of one line. -/
def isIllegal (c : Char) : Bool := isControl c && c ≠ '\t'

/-- Control characters that may not stand in strings of several lines. -/
def isIllegalInLines (c : Char) : Bool := isIllegal c && c ≠ '\n'

/-- What follows a comment, if one stands here. -/
def skipComment (cs : List Char) : Option (List Char) :=
  match cs with
  | '#' :: rest =>
    if (rest.takeWhile (· ≠ '\n')).any isIllegal then none else some (rest.dropWhile (· ≠ '\n'))
  | _ => some cs

/-- Skip blanks, line breaks and comments between the items of an array. -/
def skipGaps : Nat → List Char → Option (List Char)
  | 0, _ => none
  | fuel + 1, cs => do
    let rest ← skipComment (cs.dropWhile isBlankOrBreak)
    if rest.length = cs.length then some rest else skipGaps fuel rest

/-- `count` hexadecimal digits of a character that is no surrogate. -/
def hexChar (count : Nat) (cs : List Char) : Option (Char × List Char) := do
  let digits := cs.take count
  if digits.length ≠ count then none
  let values ← digits.mapM Json.hexValue?
  let n := values.foldl (fun n v => n * 16 + v) 0
  if n < 0xD800 || (0xE000 ≤ n && n < 0x110000) then some (Char.ofNat n, cs.drop count) else none

/-- The character of an escape, after its backslash. -/
def escape (cs : List Char) : Option (Char × List Char) :=
  match cs with
  | 'u' :: rest => hexChar 4 rest
  | 'U' :: rest => hexChar 8 rest
  | 'b' :: rest => some (Char.ofNat 8, rest)
  | 't' :: rest => some ('\t', rest)
  | 'n' :: rest => some ('\n', rest)
  | 'f' :: rest => some (Char.ofNat 12, rest)
  | 'r' :: rest => some ('\r', rest)
  | '"' :: rest => some ('"', rest)
  | '\\' :: rest => some ('\\', rest)
  | _ => none

/-- The rest of a basic string of one line; `done` holds its
characters in reverse. -/
def basicTail : Nat → List Char → List Char → Option (Text × List Char)
  | 0, _, _ => none
  | fuel + 1, done, cs =>
    match cs with
    | [] => none
    | '"' :: rest => some (Text.ofChars done.reverse, rest)
    | '\\' :: rest => do
      let (c, rest) ← escape rest
      basicTail fuel (c :: done) rest
    | c :: rest => if isIllegal c then none else basicTail fuel (c :: done) rest

/-- The rest of a literal string of one line. -/
def literalTail (cs : List Char) : Option (Text × List Char) :=
  let body := cs.takeWhile (· ≠ '\'')
  match cs.dropWhile (· ≠ '\'') with
  | _ :: rest => if body.any isIllegal then none else some (Text.ofChars body, rest)
  | [] => none

/-- Up to two quotes that belong to a string whose closing
quotes they follow. -/
def closing (quote : Char) (done : List Char) (cs : List Char) : Text × List Char :=
  match cs with
  | a :: b :: rest =>
    if a = quote && b = quote then (Text.ofChars (quote :: quote :: done).reverse, rest)
    else if a = quote then (Text.ofChars (quote :: done).reverse, b :: rest)
    else (Text.ofChars done.reverse, cs)
  | [a] =>
    if a = quote then (Text.ofChars (quote :: done).reverse, [])
    else (Text.ofChars done.reverse, cs)
  | [] => (Text.ofChars done.reverse, cs)

/-- What follows a backslash at the end of a line: blanks and line
breaks are skipped. Nothing but blanks may stand between the backslash
and the line break. -/
def lineContinuation (cs : List Char) : Option (List Char) :=
  match skipBlanks cs with
  | [] => some []
  | '\n' :: rest => some (rest.dropWhile isBlankOrBreak)
  | _ => none

/-- The rest of a basic string of several lines. -/
def basicLinesTail : Nat → List Char → List Char → Option (Text × List Char)
  | 0, _, _ => none
  | fuel + 1, done, cs =>
    match cs with
    | [] => none
    | '"' :: '"' :: '"' :: rest => some (closing '"' done rest)
    | '\\' :: c :: rest =>
      if isBlankOrBreak c then do
        basicLinesTail fuel done (← lineContinuation (c :: rest))
      else do
        let (c, rest) ← escape (c :: rest)
        basicLinesTail fuel (c :: done) rest
    | c :: rest => if isIllegalInLines c || c = '\\' then none else basicLinesTail fuel (c :: done) rest

/-- The rest of a literal string of several lines. -/
def literalLinesTail (done : List Char) : List Char → Option (Text × List Char)
  | '\'' :: '\'' :: '\'' :: rest => some (closing '\'' done rest)
  | c :: rest => if isIllegalInLines c then none else literalLinesTail (c :: done) rest
  | [] => none

/-- A line break right after the opening quotes is no part of the string. -/
def dropBreak : List Char → List Char
  | '\n' :: rest => rest
  | cs => cs

def string (cs : List Char) : Option (Text × List Char) :=
  match cs with
  | '"' :: '"' :: '"' :: rest => basicLinesTail (rest.length + 1) [] (dropBreak rest)
  | '"' :: rest => basicTail (rest.length + 1) [] rest
  | '\'' :: '\'' :: '\'' :: rest => literalLinesTail [] (dropBreak rest)
  | '\'' :: rest => literalTail rest
  | _ => none

/-- Digits of a base with single underscores between them, at least one. -/
def digitRun (isDigit : Char → Bool) : List Char → List Char × List Char
  | '_' :: c :: rest =>
    if isDigit c then let (ds, rest) := digitRun isDigit rest; ('_' :: c :: ds, rest)
    else ([], '_' :: c :: rest)
  | c :: rest =>
    if isDigit c then let (ds, rest) := digitRun isDigit rest; (c :: ds, rest) else ([], c :: rest)
  | [] => ([], [])

/-- At least one digit, then digits with single underscores between them. -/
def digits (isDigit : Char → Bool) : List Char → Option (List Char × List Char)
  | c :: rest =>
    if isDigit c then let (ds, rest) := digitRun isDigit rest; some (c :: ds, rest) else none
  | [] => none

def isHexDigit (c : Char) : Bool := (Json.hexValue? c).isSome

/-- The value of digits in a base; underscores count for nothing. -/
def baseValue (base : Nat) (ds : List Char) : Nat :=
  ds.foldl (fun n c => if c = '_' then n else n * base + (Json.hexValue? c).getD 0) 0

/-- A sign if there is one, and whether it is a minus. -/
def sign (cs : List Char) : Bool × List Char :=
  match cs with
  | '+' :: rest => (false, rest)
  | '-' :: rest => (true, rest)
  | _ => (false, cs)

/-- An integer in base sixteen, eight or two. -/
def baseInteger (cs : List Char) : Option (Datum × List Char) :=
  let read (base : Nat) (isDigit : Char → Bool) (rest : List Char) : Option (Datum × List Char) := do
    let (ds, rest) ← digits isDigit rest
    return (.int (baseValue base ds), rest)
  match cs with
  | '0' :: 'x' :: rest => read 16 isHexDigit rest
  | '0' :: 'b' :: rest => read 2 (fun c => c = '0' || c = '1') rest
  | '0' :: 'o' :: rest => read 8 (fun c => '0' ≤ c && c ≤ '7') rest
  | _ => none

/-- An integer or a number with a fraction or an exponent, in base ten. Only
an integer has a limit to its digits. -/
def decimal (cs : List Char) : Except Fault (Datum × List Char) := do
  let (negative, body) := sign cs
  let (whole, rest) ← match body with
    | '0' :: rest => pure (['0'], rest)
    | _ => need (digits Json.isDigit body)
  let (fraction, rest) := match rest with
    | '.' :: more =>
      match digits Json.isDigit more with
      | some (ds, more) => (some ds, more)
      | none => (none, rest)
    | _ => (none, rest)
  let (exponent, rest) : Option Int × List Char := match rest with
    | e :: more =>
      if e = 'e' || e = 'E' then
        let (minus, more) := sign more
        match digits Json.isDigit more with
        | some (ds, more) =>
          let n : Int := baseValue 10 ds
          (some (if minus then -n else n), more)
        | none => (none, rest)
      else (none, rest)
    | [] => (none, rest)
  match fraction, exponent with
  | none, none =>
    if mostDigits < (whole.filter (· ≠ '_')).length then .error .hugeInteger
    else
      let n : Int := baseValue 10 whole
      return (.int (if negative then -n else n), rest)
  | _, _ =>
    let places := ((fraction.getD []).filter (· ≠ '_')).length
    let all := baseValue 10 (whole ++ fraction.getD [])
    return (.float (Double.ofDecimal negative all (exponent.getD 0 - places)), rest)

/-- Two digits of a number between `least` and `most`. -/
def twoDigits (least most : Nat) : List Char → Option (Nat × List Char)
  | a :: b :: rest =>
    if Json.isDigit a && Json.isDigit b then
      let n := Json.digitsValue [a, b]
      if least ≤ n && n ≤ most then some (n, rest) else none
    else none
  | _ => none

def expect (c : Char) : List Char → Option (List Char)
  | x :: rest => if x = c then some rest else none
  | [] => none

/-- A fraction of a second in microseconds; further digits are dropped. -/
def microseconds (cs : List Char) : Nat × List Char :=
  match cs with
  | '.' :: rest =>
    let ds := rest.takeWhile Json.isDigit
    if ds.isEmpty then (0, cs)
    else
      let six := ds.take 6
      (Json.digitsValue six * Nat.pow 10 (6 - six.length), rest.dropWhile Json.isDigit)
  | _ => (0, cs)

def time (cs : List Char) : Option (Clock × List Char) := do
  let (hour, cs) ← twoDigits 0 23 cs
  let (minute, cs) ← twoDigits 0 59 (← expect ':' cs)
  let (second, cs) ← twoDigits 0 59 (← expect ':' cs)
  let (micro, cs) := microseconds cs
  return (⟨hour, minute, second, micro⟩, cs)

/-- An offset from UTC in minutes, if one stands here. -/
def offset (cs : List Char) : Option Int × List Char :=
  match cs with
  | 'Z' :: rest => (some 0, rest)
  | 'z' :: rest => (some 0, rest)
  | s :: rest =>
    if s = '+' || s = '-' then
      let read : Option (Int × List Char) := do
        let (hour, cs) ← twoDigits 0 23 rest
        let (minute, cs) ← twoDigits 0 59 (← expect ':' cs)
        let n : Int := hour * 60 + minute
        return (if s = '-' then -n else n, cs)
      match read with
      | some (n, rest) => (some n, rest)
      | none => (none, cs)
    else (none, cs)
  | [] => (none, cs)

/-- The written form of a date, of a day that may not be in the calendar. -/
def date (cs : List Char) : Option (Day × List Char) := do
  let year := cs.take 4
  if year.length ≠ 4 || !year.all Json.isDigit then none
  let (month, cs) ← twoDigits 1 12 (← expect '-' (cs.drop 4))
  let (day, cs) ← twoDigits 1 31 (← expect '-' cs)
  return (⟨Json.digitsValue year, month, day⟩, cs)

def isLeap (year : Nat) : Bool := year % 4 = 0 && (year % 100 ≠ 0 || year % 400 = 0)

def daysIn (year month : Nat) : Nat :=
  if month = 2 then if isLeap year then 29 else 28
  else if month = 4 || month = 6 || month = 9 || month = 11 then 30 else 31

/-- Whether a day is in the calendar, which has no year zero. -/
def isDay (d : Day) : Bool := 1 ≤ d.year && d.date ≤ daysIn d.year d.month

def moment (cs : List Char) : Option (Moment × List Char) := do
  let (day, rest) ← date cs
  let after := match rest with
    | c :: more => if c = 'T' || c = 't' || c = ' ' then time more else none
    | [] => none
  match after with
  | some (clock, rest) =>
    let (zone, rest) := offset rest
    return (.both day clock zone, rest)
  | none => return (.day day, rest)

def momentDay : Moment → Option Day
  | .day d => some d
  | .both d _ _ => some d
  | .time _ => none

/-- A number, a date, a time or a name of infinity or of no number. A text
in the form of a date must be a day of the calendar. -/
def plain (cs : List Char) : Except Fault (Datum × List Char) :=
  match moment cs with
  | some (m, rest) =>
    if (momentDay m).all isDay then .ok (.moment m, rest) else .error .malformed
  | none =>
    match time cs with
    | some (clock, rest) => .ok (.moment (.time clock), rest)
    | none =>
      match baseInteger cs with
      | some found => .ok found
      | none =>
        match decimal cs with
        | .ok found => .ok found
        | .error .hugeInteger => .error .hugeInteger
        | .error .malformed =>
          let (negative, body) := sign cs
          if "inf".toList.isPrefixOf body then .ok (.float (.infinite negative), body.drop 3)
          else if "nan".toList.isPrefixOf body then .ok (.float .notANumber, body.drop 3)
          else .error .malformed

def isBareKey (c : Char) : Bool := c.isAlphanum || c = '-' || c = '_'

/-- One part of a key: a bare word or a string of one line. -/
def keyPart (cs : List Char) : Option (Text × List Char) :=
  match cs with
  | '"' :: rest => basicTail (rest.length + 1) [] rest
  | '\'' :: rest => literalTail rest
  | c :: _ =>
    if isBareKey c then some (Text.ofChars (cs.takeWhile isBareKey), cs.dropWhile isBareKey)
    else none
  | [] => none

/-- A key of one or more parts with points between them, and
the blanks after it. -/
def key : Nat → List Char → Option (List Text × List Char)
  | 0, _ => none
  | fuel + 1, cs => do
    let (part, rest) ← keyPart cs
    match skipBlanks rest with
    | '.' :: more =>
      let (parts, rest) ← key fuel (skipBlanks more)
      return (part :: parts, rest)
    | rest => return ([part], rest)

/-- The fields of a table inside a document. -/
abbrev Fields := Assoc Text Datum

/-- Change the table at the end of a path, making those on the way that
are missing. In an array the path goes on in the last table, where
arrays may be entered. -/
def inside (enterArrays : Bool) (change : Fields → Option Fields) : List Text → Fields → Option Fields
  | [], fields => change fields
  | k :: path, fields =>
    match Assoc.get? k fields with
    | none => (inside enterArrays change path []).map fun t => Assoc.put k (.table t) fields
    | some (.table inner) =>
      (inside enterArrays change path inner).map fun t => Assoc.put k (.table t) fields
    | some (.list items) =>
      match items.getLast? with
      | some (.table inner) =>
        if enterArrays then
          (inside enterArrays change path inner).map fun t =>
            Assoc.put k (.list (items.dropLast ++ [.table t])) fields
        else none
      | _ => none
    | some _ => none

def addField (k : Text) (v : Datum) (fields : Fields) : Option Fields :=
  if Assoc.has k fields then none else some (Assoc.put k v fields)

/-- Whether a value is a table or an array, to which nothing
can be added later. -/
def isClosed : Datum → Bool
  | .table _ => true
  | .list _ => true
  | _ => false

mutual

def value : Nat → List Char → Except Fault (Datum × List Char)
  | 0, _ => .error .malformed
  | fuel + 1, cs =>
    match cs with
    | '"' :: _ => (need (string cs)).map fun (s, rest) => (.text s, rest)
    | '\'' :: _ => (need (string cs)).map fun (s, rest) => (.text s, rest)
    | '[' :: rest => do
      match ← need (skipGaps (rest.length + 1) rest) with
      | ']' :: rest => return (.list [], rest)
      | rest => items fuel [] rest
    | '{' :: rest =>
      match skipBlanks rest with
      | '}' :: rest => .ok (.table [], rest)
      | rest => fields fuel [] [] rest
    | _ =>
      if "true".toList.isPrefixOf cs then .ok (.bool true, cs.drop 4)
      else if "false".toList.isPrefixOf cs then .ok (.bool false, cs.drop 5)
      else plain cs

def items : Nat → List Datum → List Char → Except Fault (Datum × List Char)
  | 0, _, _ => .error .malformed
  | fuel + 1, done, cs => do
    let (v, rest) ← value fuel cs
    match ← need (skipGaps (rest.length + 1) rest) with
    | ']' :: rest => return (.list (v :: done).reverse, rest)
    | ',' :: rest =>
      match ← need (skipGaps (rest.length + 1) rest) with
      | ']' :: rest => return (.list (v :: done).reverse, rest)
      | rest => items fuel (v :: done) rest
    | _ => .error .malformed

/-- The fields of an inline table after `done`; nothing is added inside the
`closed` ones. -/
def fields : Nat → List (List Text) → Fields → List Char → Except Fault (Datum × List Char)
  | 0, _, _, _ => .error .malformed
  | fuel + 1, closed, done, cs => do
    let (path, rest) ← need (key (cs.length + 1) cs)
    let (v, rest) ← value fuel (skipBlanks (← need (expect '=' rest)))
    if closed.any fun p => p.isPrefixOf path then .error .malformed
    let done ← need (inside false (addField (path.getLast?.getD "") v) path.dropLast done)
    match skipBlanks rest with
    | '}' :: rest => return (.table done, rest)
    | ',' :: rest => fields fuel (if isClosed v then path :: closed else closed) done (skipBlanks rest)
    | _ => .error .malformed

end

end SourceAtlas.Toml
