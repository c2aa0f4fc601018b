import SourceAtlas.Number.Double

/-!
Decimal text of doubles. `shortest` finds the fewest digits that read back as the same double;
a `Style` says how digits and exponent are laid out.
-/
namespace SourceAtlas.Number

/-- The most digits of a decimal integer that are read. -/
def mostDigits : Nat := 4300

/-- The value `digits * 10 ^ exponent`. -/
structure Decimal where
  digits : Nat
  exponent : Int
  deriving DecidableEq, Repr

namespace Decimal

/-- Compare `a * 10 ^ x * 2 ^ y` with `b`, all exactly: the left
side as a quotient. -/
def scaled (a : Nat) (ten two : Int) : Nat × Nat :=
  let num :=
    a * (if 0 ≤ ten then Nat.pow 10 ten.toNat else 1) * (if 0 ≤ two then Nat.pow 2 two.toNat else 1)
  let den :=
    (if 0 ≤ ten then 1 else Nat.pow 10 (-ten).toNat) *
      (if 0 ≤ two then 1 else Nat.pow 2 (-two).toNat)
  (num, den)

def ratioLe (p q : Nat × Nat) : Bool := p.1 * q.2 ≤ q.1 * p.2

def ratioLt (p q : Nat × Nat) : Bool := p.1 * q.2 < q.1 * p.2

/-- The exponent of the leading decimal digit of the positive quotient. -/
def leadingExponent (v : Nat × Nat) : Int :=
  let guess : Int :=
    ((Nat.toDigits 10 v.1).length : Int) - ((Nat.toDigits 10 v.2).length : Int)
  if ratioLe (scaled 1 guess 0) v then guess else guess - 1

/-- The reals that round to `mantissa * 2 ^ exponent`, by their two ends. -/
def roundingEnds (mantissa : Nat) (exponent : Int) : (Nat × Nat) × (Nat × Nat) :=
  let low :=
    if mantissa = Nat.pow 2 52 && Double.leastExponent < exponent then
      scaled (4 * mantissa - 1) 0 (exponent - 2)
    else scaled (2 * mantissa - 1) 0 (exponent - 1)
  (low, scaled (2 * mantissa + 1) 0 (exponent - 1))

/-- The neighbour of `v` on the grid of `count` significant digits that
rounds to the same double, the nearer one if both do. -/
def onGrid (v : Nat × Nat) (ends : (Nat × Nat) × (Nat × Nat)) (closed : Bool) (lead : Int)
    (count : Nat) : Option Decimal :=
  let unit : Int := lead - (count : Int) + 1
  let inside (d : Nat) : Bool :=
    let p := scaled d unit 0
    if closed then ratioLe ends.1 p && ratioLe p ends.2 else ratioLt ends.1 p && ratioLt p ends.2
  let step := scaled 1 unit 0
  let below := v.1 * step.2 / (v.2 * step.1)
  let nearest := roundDiv (v.1 * step.2) (v.2 * step.1)
  if inside nearest then some ⟨nearest, unit⟩
  else if inside below then some ⟨below, unit⟩
  else if inside (below + 1) then some ⟨below + 1, unit⟩
  else none

/-- Drop trailing zeros, at most `fuel` of them. -/
def trim : Nat → Decimal → Decimal
  | 0, d => d
  | fuel + 1, d =>
    if d.digits ≠ 0 && d.digits % 10 = 0 then trim fuel ⟨d.digits / 10, d.exponent + 1⟩ else d

/-- The fewest digits that read back as `mantissa * 2 ^ exponent`. Seventeen
always suffice. -/
def shortest (mantissa : Nat) (exponent : Int) : Decimal :=
  if mantissa = 0 then ⟨0, 0⟩
  else
    let v := Double.ratio mantissa exponent
    let lead := leadingExponent v
    let ends := roundingEnds mantissa exponent
    let found := (List.range 17).findSome? fun i =>
      onGrid v ends (mantissa % 2 = 0) lead (i + 1)
    trim 20 (found.getD ⟨0, 0⟩)

end Decimal

/-- The layout of a decimal: which leading exponents are written
positionally, how many digits an exponent has at least, and what stands for
values without digits. -/
structure Style where
  leastPositional : Int
  mostPositional : Int
  exponentWidth : Nat
  infinity : String
  notANumber : String

namespace Style

def natText (n : Nat) : String := String.ofList (Nat.toDigits 10 n)

def padLeft (width : Nat) (s : String) : String :=
  String.ofList (List.replicate (width - s.length) '0') ++ s

/-- An exponent with its sign, `+` included. -/
def exponentText (style : Style) (e : Int) : String :=
  (if e < 0 then "e-" else "e+") ++ padLeft style.exponentWidth (natText e.natAbs)

/-- Digits with a point: the integer part has at least one digit and so has
the fraction. -/
def positional (d : Decimal) : String :=
  let digits := Nat.toDigits 10 d.digits
  if 0 ≤ d.exponent then
    String.ofList (digits ++ List.replicate d.exponent.toNat '0') ++ ".0"
  else
    let places := (-d.exponent).toNat
    let digits := List.replicate (places + 1 - digits.length) '0' ++ digits
    String.ofList (digits.take (digits.length - places)) ++ "." ++
      String.ofList (digits.drop (digits.length - places))

/-- The first digit, the others after a point, and the exponent. -/
def scientific (style : Style) (d : Decimal) (lead : Int) : String :=
  match Nat.toDigits 10 d.digits with
  | [] => ""
  | first :: rest =>
    let fraction := if rest.isEmpty then "" else "." ++ String.ofList rest
    String.ofList [first] ++ fraction ++ style.exponentText lead

def text (style : Style) : Double → String
  | .finite negative m e =>
    let d := Decimal.shortest m e
    let lead : Int := ((Nat.toDigits 10 d.digits).length : Int) + d.exponent - 1
    let body :=
      if d.digits = 0 then "0.0"
      else if style.leastPositional ≤ lead && lead ≤ style.mostPositional then positional d
      else style.scientific d lead
    if negative then "-" ++ body else body
  | .infinite negative => if negative then "-" ++ style.infinity else style.infinity
  | .notANumber => style.notANumber

/-- Numbers in messages: positional from `1e-4` up to `1e16`, two digits in
an exponent. -/
def message : Style := ⟨-4, 15, 2, "inf", "nan"⟩

/-- Numbers in documents: positional from `1e-5` up to `1e16`, no padding of
an exponent. -/
def document : Style := ⟨-5, 15, 1, "null", "null"⟩

end Style

/-- A double with so many decimal places, a half of the exact value to the
even neighbour. -/
def Double.fixed (places : Nat) : Double → String
  | .finite negative m e =>
    let (num, den) := Double.ratio m e
    let n := roundDiv (num * Nat.pow 10 places) den
    (if negative then "-" else "") ++ Style.natText (n / Nat.pow 10 places) ++ "." ++
      Style.padLeft places (Style.natText (n % Nat.pow 10 places))
  | .infinite negative => if negative then "-inf" else "inf"
  | .notANumber => "nan"

def Double.twoPlaces (x : Double) : String := x.fixed 2

end SourceAtlas.Number
