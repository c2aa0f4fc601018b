/-!
Texts. File names are bytes, and some are no characters: the system may hand over a name that is not
UTF-8. A text keeps such bytes between its characters, so that the name is found again; a text that
has none is a string.
-/
namespace SourceAtlas

/-- One place of a text: a character, or a byte that belongs to none. The
bytes below 128 are characters of their own, so it is one of the other 128,
counted from the first of them. -/
inductive Sign where
  | char (c : Char)
  | byte (b : Fin 128)
  deriving DecidableEq, Repr

namespace Sign

instance : Coe Char Sign := ⟨.char⟩

/-- The code point of a sign. Bytes have points between those of characters. -/
def point : Sign → Nat
  | .char c => c.toNat
  | .byte b => 0xDC80 + b

def char? : Sign → Option Char
  | .char c => some c
  | .byte _ => none

def isChar (s : Sign) : Bool := s.char?.isSome

/-- A sign in lower case; only letters of ASCII change. -/
def lower : Sign → Sign
  | .char c => .char c.toLower
  | .byte b => .byte b

end Sign

/-- A text, by its signs. -/
structure Text where ofList ::
  toList : List Sign
  deriving DecidableEq, Repr

namespace Text

def ofChars (cs : List Char) : Text := ⟨cs.map .char⟩

def ofString (s : String) : Text := ofChars s.toList

instance : Coe String Text := ⟨ofString⟩

instance : Append Text := ⟨fun a b => ⟨a.toList ++ b.toList⟩⟩

/-- The characters of a text, if it has no other signs. -/
def chars? (t : Text) : Option (List Char) := t.toList.mapM Sign.char?

def string? (t : Text) : Option String := t.chars?.map String.ofList

/-- Whether a text is made of characters only. -/
def isString (t : Text) : Bool := t.toList.all Sign.isChar

/-- The parts with `sep` between each two of them. -/
def intercalate (sep : Text) (parts : List Text) : Text :=
  ⟨sep.toList.intercalate (parts.map toList)⟩

def length (t : Text) : Nat := t.toList.length

/-- The code points of a text, by which texts are ordered. -/
def points (t : Text) : List Nat := t.toList.map Sign.point

instance : LT Text := ⟨fun a b => a.points < b.points⟩

instance (a b : Text) : Decidable (a < b) := inferInstanceAs (Decidable (a.points < b.points))

@[simp]
theorem ofList_toList (t : Text) : ofList t.toList = t := rfl

@[simp]
theorem toList_ofList (signs : List Sign) : (ofList signs).toList = signs := rfl

@[simp]
theorem toList_ofChars (cs : List Char) : (ofChars cs).toList = cs.map .char := rfl

@[simp]
theorem toList_append (a b : Text) : (a ++ b).toList = a.toList ++ b.toList := rfl

@[simp]
theorem toList_inj {a b : Text} : a.toList = b.toList ↔ a = b :=
  ⟨fun h => by cases a; cases b; exact congrArg _ h, congrArg _⟩

end Text

end SourceAtlas
