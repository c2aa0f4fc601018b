/-!
White space of the Unicode standard, and trimming by it.
-/
namespace SourceAtlas.Text

/-- The characters with the property White_Space. -/
def isWhite (c : Char) : Bool :=
  let n := c.toNat
  (9 ≤ n && n ≤ 13) || n = 0x20 || n = 0x85 || n = 0xA0 || n = 0x1680 ||
    (0x2000 ≤ n && n ≤ 0x200A) || n = 0x2028 || n = 0x2029 || n = 0x202F || n = 0x205F ||
    n = 0x3000

/-- The white space of text handling: that of the standard and the four
separators of information in ASCII. -/
def isSpace (c : Char) : Bool := isWhite c || (0x1C ≤ c.toNat && c.toNat ≤ 0x1F)

variable {α : Type}

/-- Drop the members that satisfy `p` at the end. -/
def trimRight (p : α → Bool) (xs : List α) : List α := (xs.reverse.dropWhile p).reverse

/-- Drop the members that satisfy `p` at both ends. -/
def trim (p : α → Bool) (xs : List α) : List α := trimRight p (xs.dropWhile p)

end SourceAtlas.Text
