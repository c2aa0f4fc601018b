import SourceAtlas.Text.Basic
import SourceAtlas.Text.Printable

/-!
Quoted text in messages: the text between two quotes, with escapes for the quote, the backslash
and every sign that does not stand for itself.
-/
namespace SourceAtlas.Text.Quoted

/-- `count` lower case hexadecimal digits of `n`. -/
def hex (count n : Nat) : List Char :=
  (List.range count).reverse.map fun i => Nat.digitChar (n / Nat.pow 16 i % 16)

/-- The written form of one character between quotes `q`. -/
def encodeChar (q c : Char) : List Char :=
  if c = q || c = '\\' then ['\\', c]
  else if c = '\n' then ['\\', 'n']
  else if c = '\r' then ['\\', 'r']
  else if c = '\t' then ['\\', 't']
  else if isPrintable c then [c]
  else if c.toNat < 0x100 then '\\' :: 'x' :: hex 2 c.toNat
  else if c.toNat < 0x10000 then '\\' :: 'u' :: hex 4 c.toNat
  else '\\' :: 'U' :: hex 8 c.toNat

/-- The written form of a byte that is no character: its code point. -/
def encodeByte (b : Fin 128) : List Char := '\\' :: 'u' :: hex 4 (Sign.byte b).point

/-- The written form of one sign between quotes. -/
def encodeSign (q : Char) : Sign → List Char
  | .char c => encodeChar q c
  | .byte b => encodeByte b

/-- Single quotes, unless the text has a single quote and no double quote. -/
def quoteFor (signs : List Sign) : Char :=
  if signs.contains '\'' && !signs.contains '"' then '"' else '\''

def encode (s : Text) : String :=
  let q := quoteFor s.toList
  String.ofList (q :: s.toList.flatMap (encodeSign q) ++ [q])

/-- The text without quotes, for a reader of messages: only bytes have
another form. -/
def shown (s : Text) : String :=
  String.ofList (s.toList.flatMap fun
    | .char c => [c]
    | .byte b => encodeByte b)

end SourceAtlas.Text.Quoted
