import SourceAtlas.Syntax.Tree

/-!
The words, marks and literals of a source file, as scans of the characters ahead. Which of them is
looked for depends on the phrase being read, so a word is a keyword only where the grammar asks
for it. The end of a statement may be left unwritten; `endsUnwritten` decides where. A scan whose
steps may take several characters counts its steps along a second list, `steps`: no scan takes
more steps than there are characters ahead, so these serve as the count.
-/
namespace SourceAtlas.Syntax

/-- A place in the source: the characters ahead and how many lie behind. -/
structure Cursor where
  rest : List Char
  offset : Nat

namespace Cursor

def advance (c : Cursor) (n : Nat) : Cursor := ⟨c.rest.drop n, c.offset + n⟩

end Cursor

def isBlank (c : Char) : Bool :=
  let n := c.toNat
  (9 ≤ n && n ≤ 13) || n = 32 || n = 0x85 || n = 0xA0 || n = 0x1680 ||
    (0x2000 ≤ n && n ≤ 0x200B) || n = 0x2028 || n = 0x2029 || n = 0x202F || n = 0x205F ||
    n = 0x2060 || n = 0x3000 || n = 0xFEFF

/-- Blank characters when looking for an unwritten end: the
breaking ones only. -/
def isBreakingBlank (c : Char) : Bool :=
  let n := c.toNat
  (9 ≤ n && n ≤ 13) || n = 32 || n = 0x1680 || (0x2000 ≤ n && n ≤ 0x2006) ||
    (0x2008 ≤ n && n ≤ 0x200A) || n = 0x2028 || n = 0x2029 || n = 0x205F || n = 0x3000

/-- Characters with a meaning of their own, which no word contains. -/
def isMark (c : Char) : Bool :=
  ":;`\"'@#.,|^&<=>+-*/\\%?!~()[]\x7b\x7d".toList.contains c

def isDigit (c : Char) : Bool := '0' ≤ c && c ≤ '9'

def isHexDigit (c : Char) : Bool :=
  isDigit c || ('a' ≤ c && c ≤ 'f') || ('A' ≤ c && c ≤ 'F')

def isWordPart (c : Char) : Bool := !(c.toNat < 0x20 || isBlank c || isMark c)

/-- The length of an escape such as `\u0061` inside a word, or zero. -/
def wordEscape (cs : List Char) : Nat :=
  match cs with
  | '\\' :: 'u' :: '{' :: rest =>
    let digits := rest.takeWhile isHexDigit
    if !digits.isEmpty && (rest.drop digits.length).head? = some '}' then digits.length + 4 else 0
  | '\\' :: 'u' :: a :: b :: c :: d :: _ =>
    if isHexDigit a && isHexDigit b && isHexDigit c && isHexDigit d then 6 else 0
  | _ => 0

/-- The length of the longest run of word characters, by steps of a
character or an escape. -/
def wordTail : List Char → List Char → Nat
  | [], _ => 0
  | _ :: steps, cs =>
    match cs with
    | [] => 0
    | c :: rest =>
      if isWordPart c then 1 + wordTail steps rest
      else
        let n := wordEscape cs
        if n = 0 then 0 else n + wordTail steps (cs.drop n)

/-- The length of the word ahead, or zero. A word does not
begin with a digit. -/
def wordLength (cs : List Char) : Nat :=
  match cs with
  | [] => 0
  | c :: _ => if isDigit c then 0 else wordTail cs cs

/-- The length of the comment ahead, or zero. A block that is not closed is
no comment. -/
def blockTail : List Char → Option Nat
  | [] => none
  | '*' :: '/' :: _ => some 2
  | _ :: rest => (blockTail rest).map (· + 1)

def endsLine (c : Char) : Bool := c = '\n' || c = '\r' || c.toNat = 0x2028 || c.toNat = 0x2029

def commentLength (cs : List Char) : Nat :=
  match cs with
  | '/' :: '/' :: rest => 2 + (rest.takeWhile fun c => !endsLine c).length
  | '/' :: '*' :: rest => ((blockTail rest).map (· + 2)).getD 0
  | _ => 0

/-- The comments ahead as trees, and the place after them and the blanks
around them. -/
def extras : List Char → Cursor → List Tree × Cursor
  | [], cur => ([], cur)
  | _ :: steps, cur =>
    let blanks := (cur.rest.takeWhile isBlank).length
    let cur := cur.advance blanks
    let n := commentLength cur.rest
    if n = 0 then ([], cur)
    else
      let next := cur.advance n
      let (more, last) := extras steps next
      (.mk (.phrase .comment) none cur.offset next.offset [] :: more, last)

/-- Skip the blanks and comments ahead. -/
def Cursor.skipExtras (cur : Cursor) : List Tree × Cursor := extras cur.rest cur

/-- The length of digits with single underscores between them. -/
def digitRun (digit : Char → Bool) : List Char → Nat
  | [] => 0
  | [c] => if digit c then 1 else 0
  | c :: '_' :: d :: rest =>
    if digit c then (if digit d then 2 + digitRun digit (d :: rest) else 1) else 0
  | c :: rest => if digit c then 1 + digitRun digit rest else 0

def exponentLength (cs : List Char) : Nat :=
  match cs with
  | e :: rest =>
    if e = 'e' || e = 'E' then
      let sign := match rest with
        | s :: _ => if s = '+' || s = '-' then 1 else 0
        | [] => 0
      let digits := digitRun isDigit (rest.drop sign)
      if digits = 0 then 0 else 1 + sign + digits
    else 0
  | [] => 0

/-- The length of an integer part that may be followed by a
point or an exponent. -/
def integerLength (cs : List Char) : Nat :=
  match cs with
  | '0' :: d :: _ => if isDigit d && d ≠ '0' then digitRun isDigit cs else 1
  | c :: _ => if isDigit c then digitRun isDigit cs else 0
  | [] => 0

/-- The length of a literal with a radix mark, or zero. -/
def radixLength (cs : List Char) : Nat :=
  match cs with
  | '0' :: x :: rest =>
    let digits :=
      if x = 'x' || x = 'X' then digitRun isHexDigit rest
      else if x = 'b' || x = 'B' then digitRun (fun c => c = '0' || c = '1') rest
      else if x = 'o' || x = 'O' then digitRun (fun c => '0' ≤ c && c ≤ '7') rest
      else 0
    if digits = 0 then 0 else digits + 2
  | _ => 0

/-- One more if the integer of this length is marked as unbounded. -/
def withBigMark (cs : List Char) (n : Nat) : Nat :=
  if 0 < n && (cs.drop n).head? = some 'n' then n + 1 else n

/-- The length of the longest number ahead, or zero. -/
def numberLength (cs : List Char) : Nat :=
  let whole := integerLength cs
  let pointed :=
    if 0 < whole && (cs.drop whole).head? = some '.' then
      let fraction := digitRun isDigit (cs.drop (whole + 1))
      whole + 1 + fraction + exponentLength (cs.drop (whole + 1 + fraction))
    else 0
  let leadingPoint := match cs with
    | '.' :: rest =>
      let digits := digitRun isDigit rest
      if digits = 0 then 0 else 1 + digits + exponentLength (rest.drop digits)
    | _ => 0
  let scaled :=
    if 0 < whole && 0 < exponentLength (cs.drop whole) then
      whole + exponentLength (cs.drop whole) else 0
  let plain := withBigMark cs (digitRun isDigit cs)
  let radix := withBigMark cs (radixLength cs)
  [pointed, leadingPoint, scaled, plain, radix].foldl max 0

/-- The length of the escape ahead, its backslash included, or zero
if it is malformed. -/
def escapeLength (cs : List Char) : Nat :=
  match cs with
  | '\\' :: 'x' :: a :: b :: _ => if isHexDigit a && isHexDigit b then 4 else 0
  | '\\' :: 'x' :: _ => 0
  | '\\' :: 'u' :: _ => wordEscape cs
  | '\\' :: c :: rest =>
    let octal (c : Char) : Bool := '0' ≤ c && c ≤ '7'
    if octal c then 1 + ((c :: rest).takeWhile octal).length.min 3
    else if c = '\r' || c = '?' then
      match rest with
      | d :: _ => if d = '\n' || d.toNat = 0x2028 || d.toNat = 0x2029 then 3 else 2
      | [] => 2
    else 2
  | _ => 0

/-- The length of a string after its opening quote `q`, the
closing quote included. -/
def stringTail (q : Char) : List Char → List Char → Option Nat
  | [], _ => none
  | _ :: steps, cs =>
    match cs with
    | [] => none
    | c :: rest =>
      if c = q then some 1
      else if c = '\n' || c = '\r' then none
      else if c = '\\' then
        let n := escapeLength cs
        if n = 0 then none else (stringTail q steps (cs.drop n)).map (· + n)
      else (stringTail q steps rest).map (· + 1)

def stringLength (cs : List Char) : Nat :=
  match cs with
  | q :: rest =>
    if q = '"' || q = '\'' then ((stringTail q rest rest).map (· + 1)).getD 0 else 0
  | [] => 0

/-- The length of plain text in a template, up to an escape, a substitution
or the end. -/
def templateTextLength : List Char → Nat
  | [] => 0
  | '`' :: _ => 0
  | '\\' :: _ => 0
  | '$' :: '{' :: _ => 0
  | _ :: rest => 1 + templateTextLength rest

/-- The length of a regular expression's body, its closing slash included.
`inClass` holds between square brackets. -/
def regexTail : Bool → List Char → Option Nat
  | _, [] => none
  | _, '\n' :: _ => none
  | _, ['\\'] => none
  | inClass, '\\' :: c :: rest => if c = '\n' then none else (regexTail inClass rest).map (· + 2)
  | inClass, c :: rest =>
    if inClass then (regexTail (c ≠ ']') rest).map (· + 1)
    else if c = '/' then some 1
    else (regexTail (c = '[') rest).map (· + 1)

/-- The length of the regular expression ahead with its flags, or zero. -/
def regexLength (cs : List Char) : Nat :=
  match cs with
  | '/' :: c :: rest =>
    if c = '/' || c = '*' then 0
    else
      match regexTail false (c :: rest) with
      | some n =>
        1 + n + (((c :: rest).drop n).takeWhile fun c => 'a' ≤ c && c ≤ 'z').length
      | none => 0
  | _ => 0

/-- Text between markup tags: anything but tags, braces and references.
Blank lines alone are no text. -/
def markupTextLength (cs : List Char) : Nat :=
  let body := cs.takeWhile fun c => !("<>\x7b\x7d&".toList.contains c)
  let (saw, _) := body.foldl (fun (saw, atNewline) c =>
    if c = '\n' then (saw, true)
    else
      let atNewline := atNewline && isBreakingBlank c
      (saw || !atNewline, atNewline)) (false, false)
  if saw then body.length else 0

/-- A character reference such as `&amp;`. -/
def markupReferenceLength (cs : List Char) : Nat :=
  match cs with
  | '&' :: rest =>
    let body := rest.takeWhile fun c => c = '#' || (isWordPart c && c.toNat < 128)
    if !body.isEmpty && (rest.drop body.length).head? = some ';' then body.length + 2 else 0
  | _ => 0

/-- A name in markup may have hyphens after its first part. -/
def markupNameLength (cs : List Char) : Nat :=
  let plain := wordLength cs
  if 0 < plain && (cs.drop plain).head? = some '-' then
    plain + ((cs.drop plain).takeWhile fun c => c = '-' || (isWordPart c && c.toNat < 128)).length
  else plain

/-- A quoted attribute in markup runs to the next quote of its
kind, over line ends. -/
def markupStringLength (cs : List Char) : Nat :=
  match cs with
  | q :: rest =>
    if q = '"' || q = '\'' then
      let body := rest.takeWhile fun c => c ≠ q
      if (rest.drop body.length).isEmpty then 0 else body.length + 2
    else 0
  | [] => 0

/-- The length of a quoted run on one line, for skipping; one if
it does not close. -/
def quotedRun (q : Char) : List Char → Option Nat
  | [] => none
  | '\n' :: _ => none
  | '\\' :: _ :: rest => (quotedRun q rest).map (· + 2)
  | c :: rest => if c = q then some 1 else (quotedRun q rest).map (· + 1)

/-- How many characters a bracketed run takes: `open_` holds the brackets
and templates that are still open, the innermost first. Quoted text,
comments and escapes are stepped over. -/
def bracketTail : List Char → List Char → List Char → Option Nat
  | _, [], _ => some 0
  | [], _ :: _, _ => none
  | _ :: steps, '`' :: open_, cs =>
    match cs with
    | [] => none
    | '`' :: rest => (bracketTail steps open_ rest).map (· + 1)
    | '\\' :: _ :: rest => (bracketTail steps ('`' :: open_) rest).map (· + 2)
    | '$' :: '{' :: rest => (bracketTail steps ('{' :: '`' :: open_) rest).map (· + 2)
    | _ :: rest => (bracketTail steps ('`' :: open_) rest).map (· + 1)
  | _ :: steps, b :: open_, cs =>
    match cs with
    | [] => none
    | c :: rest =>
      let n := commentLength cs
      if 0 < n then (bracketTail steps (b :: open_) (cs.drop n)).map (· + n)
      else if c = '(' || c = '[' || c = '{' || c = '`' then
        (bracketTail steps (c :: b :: open_) rest).map (· + 1)
      else if c = ')' || c = ']' || c = '}' then (bracketTail steps open_ rest).map (· + 1)
      else if c = '"' || c = '\'' then
        let n := 1 + ((quotedRun c rest).getD 0)
        (bracketTail steps (b :: open_) (cs.drop n)).map (· + n)
      else if c = '\\' then (bracketTail steps (b :: open_) (rest.drop 1)).map (· + 2)
      else (bracketTail steps (b :: open_) rest).map (· + 1)

/-- The length of the bracketed run ahead, or zero. -/
def bracketLength (cs : List Char) : Nat :=
  match cs with
  | c :: rest =>
    if c = '(' || c = '[' || c = '{' then
      ((bracketTail rest [c] rest).map (· + 1)).getD 0
    else 0
  | [] => 0

/-- The question mark of a conditional: not part of `??` or `?.`, and not
the mark of something optional, which is followed by a colon, a comma or a
closing parenthesis. -/
def isConditionalMark (cs : List Char) : Bool :=
  match cs with
  | '?' :: '?' :: _ => false
  | '?' :: '.' :: c :: _ => isDigit c
  | '?' :: rest =>
    match (rest.dropWhile isBreakingBlank).head? with
    | some c => !(c = ':' || c = ')' || c = ',' || c = '.')
    | none => true
  | _ => false

inductive Lexeme where
  /-- A word of the language. -/
  | word (text : String)
  /-- A mark, refused when one of the given marks follows at once. -/
  | mark (text : String) (notBefore : List String)
  /-- Any word but the given ones. -/
  | name (kind : Kind) (except : List String)
  | privateName
  | number
  | string
  | regex
  | templateText
  | templateEscape
  | conditionalMark
  /-- A run from an opening bracket to the one that closes it. -/
  | bracketed
  | hashBang
  | markupText
  | markupReference
  | markupName
  | markupString
  deriving Repr

namespace Lexeme

def label : Lexeme → Label
  | word text => .token text
  | mark text _ => .token text
  | name kind _ => .phrase kind
  | privateName => .phrase .privateIdentifier
  | number => .phrase .number
  | string => .phrase .string
  | regex => .phrase .regex
  | templateText => .phrase .templateText
  | templateEscape => .phrase .templateEscape
  | conditionalMark => .token "?"
  | bracketed => .token "bracketed"
  | hashBang => .phrase .hashBang
  | markupText => .phrase .markupText
  | markupReference => .phrase .markupReference
  | markupName => .phrase .identifier
  | markupString => .phrase .string

/-- The length of the lexeme at the start of the characters, or zero if it
is not there. -/
def length : Lexeme → List Char → Nat
  | word text, cs =>
    let n := wordLength cs
    if 0 < n && cs.take n = text.toList then n else 0
  | mark text notBefore, cs =>
    let t := text.toList
    if t.isPrefixOf cs && !(notBefore.any fun m => m.toList.isPrefixOf (cs.drop t.length)) then
      t.length
    else 0
  | name _ except, cs =>
    let n := wordLength cs
    if 0 < n && !(except.contains (String.ofList (cs.take n))) then n else 0
  | privateName, cs =>
    match cs with
    | '#' :: rest => let n := wordLength rest; if n = 0 then 0 else n + 1
    | _ => 0
  | number, cs => numberLength cs
  | string, cs => stringLength cs
  | regex, cs => regexLength cs
  | templateText, cs => templateTextLength cs
  | templateEscape, cs => escapeLength cs
  | conditionalMark, cs => if isConditionalMark cs then 1 else 0
  | bracketed, cs => bracketLength cs
  | hashBang, cs =>
    match cs with
    | '#' :: '!' :: _ => (cs.takeWhile fun c => c ≠ '\n').length
    | _ => 0
  | markupText, cs => markupTextLength cs
  | markupReference, cs => markupReferenceLength cs
  | markupName, cs => markupNameLength cs
  | markupString, cs => markupStringLength cs

end Lexeme

/-- Skip blanks and comments when looking past a line end. A slash that
begins no comment gives `none`. -/
def pastBlanks : List Char → List Char → Option (List Char)
  | [], cs => some cs
  | _ :: steps, cs =>
    match cs.dropWhile isBreakingBlank with
    | '/' :: '/' :: rest => pastBlanks steps (rest.dropWhile fun c =>
        !(c = '\n' || c.toNat = 0x2028 || c.toNat = 0x2029))
    | '/' :: '*' :: rest =>
      match blockTail rest with
      | some n => pastBlanks steps (rest.drop n)
      | none => some []
    | '/' :: _ => none
    | cs => some cs

/-- Letters, for the words `in` and `instanceof` at the start of a line. -/
def isLetter (c : Char) : Bool := c.isAlpha || 0x80 ≤ c.toNat

/-- Whether a line that begins like this cannot continue the statement
before it. Operators continue it; so do `in` and `instanceof`. -/
def startsAfresh (afterExpression signature : Bool) (cs : List Char) : Bool :=
  match cs with
  | [] => true
  | c :: rest =>
    if "`,.;*%><=?^|&/:".toList.contains c then false
    else if c = '{' then !signature
    else if c = '(' || c = '[' then !afterExpression
    else if c = '+' then rest.head? = some '+'
    else if c = '-' then rest.head? = some '-'
    else if c = '!' then rest.head? ≠ some '='
    else if c = 'i' then
      match rest with
      | 'n' :: rest =>
        if !(rest.head?.any isLetter) then false
        else if "stanceof".toList.isPrefixOf rest then (rest.drop 8).head?.any isLetter
        else true
      | _ => true
    else true

/-- Whether a statement may end here without a semicolon: at the end of the
source, before a closing brace, or at a line end after which a new statement
begins. `afterExpression` holds when an operator could follow, `signature`
when a function body could. -/
def endsUnwritten (afterExpression signature : Bool) : List Char → Bool
  | [] => true
  | c :: rest =>
    if c = '}' then
      if (rest.dropWhile isBreakingBlank).head? = some ':' then afterExpression else true
    else if !isBreakingBlank c then false
    else if c = '\n' then
      match pastBlanks rest rest with
      | none => false
      | some cs => startsAfresh afterExpression signature cs
    else endsUnwritten afterExpression signature rest

end SourceAtlas.Syntax
