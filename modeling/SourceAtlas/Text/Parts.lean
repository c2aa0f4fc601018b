import SourceAtlas.Text.Basic

/-!
Texts inside texts.
-/
namespace SourceAtlas.Text

def startsWith (start text : Text) : Bool := start.toList.isPrefixOf text.toList

def endsWith (tail text : Text) : Bool := tail.toList.isSuffixOf text.toList

/-- Whether a list stands somewhere in another. -/
def occursIn (part : List Sign) : List Sign → Bool
  | [] => part.isEmpty
  | c :: rest => part.isPrefixOf (c :: rest) || occursIn part rest

/-- Whether a text stands somewhere in another. -/
def contains (part text : Text) : Bool := occursIn part.toList text.toList

/-- A text with every occurrence of a character replaced. -/
def replaceChar (c : Sign) (by_ : Text) (text : Text) : Text :=
  Text.ofList (text.toList.flatMap fun x => if x = c then by_.toList else [x])

/-- A count with its noun, in the plural unless it is one. -/
def counted (count : Text) (noun : Text) : Text :=
  if count = "1" then count ++ " " ++ noun else count ++ " " ++ noun ++ "s"

end SourceAtlas.Text
