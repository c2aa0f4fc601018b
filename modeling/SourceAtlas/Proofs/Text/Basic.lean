import Mathlib.Data.List.Lex
import Mathlib.Tactic
import SourceAtlas.Text.Basic

/-!
Texts as lists of signs: what joining keeps, how texts are ordered, and which of them are strings.
-/
namespace SourceAtlas

/-- Signs are told apart by their code points, since no character
has that of a byte. -/
theorem Sign.point_injective : Function.Injective Sign.point := by
  have hApart (c : Char) (b : Fin 128) : (Sign.char c).point ≠ (Sign.byte b).point := by
    intro hPoint
    have hValid : c.val.toNat < 55296 ∨ 57343 < c.val.toNat ∧ c.val.toNat < 1114112 := c.valid
    simp only [point, Char.toNat] at hPoint
    omega
  rintro (a | a) (b | b) hPoint
  · exact congrArg _ (Char.toNat_inj.mp hPoint)
  · exact absurd hPoint (hApart a b)
  · exact absurd hPoint.symm (hApart b a)
  · exact congrArg _ (Fin.ext (by simpa [point] using hPoint))

namespace Text

@[simp]
theorem toList_ofString (s : String) : (ofString s).toList = s.toList.map .char := rfl

/-- Texts with a separator between them are their signs with those of the
separator between. -/
@[simp]
theorem toList_intercalate (sep : Text) (parts : List Text) :
    (intercalate sep parts).toList = sep.toList.intercalate (parts.map toList) := rfl

@[simp]
theorem toList_empty : ("" : Text).toList = [] := rfl

theorem toList_eq_nil_iff {t : Text} : t.toList = [] ↔ t = "" := by
  rw [← toList_empty, toList_inj]

@[simp]
theorem empty_append (t : Text) : ("" : Text) ++ t = t := rfl

@[simp]
theorem append_empty (t : Text) : t ++ "" = t := by
  rw [← toList_inj, toList_append, toList_empty, List.append_nil]

@[simp]
theorem intercalate_nil (sep : Text) : sep.intercalate [] = "" := rfl

/-- A text is told by its code points. -/
theorem points_injective : Function.Injective points := fun _ _ hPoints =>
  toList_inj.mp (List.map_injective_iff.mpr Sign.point_injective hPoints)

instance : LinearOrder Text := LinearOrder.lift' points points_injective

/-- A text has characters exactly if it is written with them. -/
theorem chars?_eq_some_iff {t : Text} {cs : List Char} : t.chars? = some cs ↔ t = ofChars cs := by
  have hSigns (signs : List Sign) (cs : List Char) :
      signs.mapM Sign.char? = some cs ↔ signs = cs.map .char := by
    induction signs generalizing cs with
    | nil => cases cs <;> simp
    | cons s signs ih =>
        cases s with
        | byte b => cases cs <;> simp [Sign.char?]
        | char c =>
            rw [List.mapM_cons, Sign.char?, Option.pure_def, Option.bind_eq_bind, Option.bind_some]
            cases hRest : signs.mapM Sign.char? with
            | none => cases cs <;> simp [← ih, hRest]
            | some found => cases cs <;> simp [← ih, hRest]
  rw [chars?, hSigns, ← toList_inj, toList_ofChars]

/-- The string of a text is the one that it is written with. -/
theorem string?_eq_some_iff {t : Text} {s : String} : t.string? = some s ↔ t = ofString s := by
  simp only [string?, Option.map_eq_some_iff, chars?_eq_some_iff]
  constructor
  · rintro ⟨cs, rfl, rfl⟩
    simp [ofString]
  · rintro rfl
    exact ⟨s.toList, rfl, String.ofList_toList⟩

/-- A text made of a string is the string again. -/
@[simp]
theorem string?_ofString (s : String) : (ofString s).string? = some s := string?_eq_some_iff.mpr rfl

/-- Different strings are different texts. -/
theorem ofString_injective : Function.Injective ofString := fun a b hText =>
  Option.some.inj (by rw [← string?_ofString a, hText, string?_ofString])

@[simp]
theorem ofString_inj {a b : String} : ofString a = ofString b ↔ a = b := ofString_injective.eq_iff

/-- A text of characters is the text of a string. -/
theorem isString_iff {t : Text} : t.isString = true ↔ ∃ s, t = ofString s := by
  have hSigns (signs : List Sign) : signs.all Sign.isChar = true ↔ ∃ cs : List Char, signs = cs.map .char := by
    induction signs with
    | nil => simp
    | cons s signs ih =>
        rw [List.all_cons, Bool.and_eq_true, ih]
        constructor
        · rintro ⟨hSign, cs, rfl⟩
          cases s with
          | byte b => cases hSign
          | char c => exact ⟨c :: cs, rfl⟩
        · rintro ⟨_ | ⟨c, cs⟩, hSigns⟩
          · cases hSigns
          · obtain ⟨rfl, rfl⟩ := List.cons.inj hSigns
            exact ⟨rfl, cs, rfl⟩
  rw [isString, hSigns]
  constructor
  · rintro ⟨cs, hSigns⟩
    exact ⟨String.ofList cs, toList_inj.mp (by simp [hSigns])⟩
  · rintro ⟨s, rfl⟩
    exact ⟨s.toList, rfl⟩

@[simp]
theorem isString_ofString (s : String) : (ofString s).isString = true := isString_iff.mpr ⟨s, rfl⟩

/-- A text put together from two is a string exactly if both are: no two
signs make one character. -/
@[simp]
theorem isString_append (a b : Text) : (a ++ b).isString = (a.isString && b.isString) :=
  List.all_append

/-- A text made of characters is a string. -/
@[simp]
theorem isString_ofChars (cs : List Char) : (ofChars cs).isString = true := by
  simp [isString, Sign.isChar, Sign.char?]

/-- Signs of a string make a string. -/
theorem isString_of_subset {signs : List Sign} {t : Text} (hString : t.isString = true)
    (hSubset : signs ⊆ t.toList) : (ofList signs).isString = true := by
  rw [isString, List.all_eq_true] at hString ⊢
  exact fun s hs => hString s (hSubset hs)

/-- Parts that are joined make a string exactly if each of them is one. -/
theorem isString_intercalate {sep : Text} (hSep : sep.isString = true) (parts : List Text) :
    (sep.intercalate parts).isString = parts.all isString := by
  rw [isString] at hSep ⊢
  rw [toList_intercalate]
  induction parts with
  | nil => rfl
  | cons t parts ih =>
      cases parts with
      | nil => simp [isString]
      | cons next parts =>
          rw [List.map_cons, List.map_cons, List.intercalate_cons_cons, ← List.map_cons, List.all_append,
            List.all_append, hSep, Bool.and_true, ih, ← isString, List.all_cons (a := t)]

/-- A text that is no string has none. -/
theorem string?_eq_none_iff {t : Text} : t.string? = none ↔ t.isString = false := by
  rw [← Bool.not_eq_true, isString_iff, Option.eq_none_iff_forall_ne_some]
  simp only [ne_eq, string?_eq_some_iff, not_exists]

end Text

end SourceAtlas
