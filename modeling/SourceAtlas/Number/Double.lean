/-!
Binary floating point numbers as exact values. A finite double is a signed dyadic rational
`± mantissa * 2 ^ exponent`; everything here is integer arithmetic, so that rounding is a
definition one can reason about and not an opaque machine operation.
-/
namespace SourceAtlas.Number

/-- A quotient rounded to the nearest integer, a half to the even neighbour.
A zero denominator gives zero. -/
def roundDiv (num den : Nat) : Nat :=
  let q := num / den
  let r := num % den
  if den < 2 * r then q + 1
  else if 2 * r < den then q
  else if den = 0 then 0
  else if q % 2 = 1 then q + 1 else q

/-- A number with at most 53 binary digits of precision. -/
inductive Double where
  /-- The value `± mantissa * 2 ^ exponent`. The mantissa is below `2 ^ 53` and, unless the
  exponent is `-1074`, at least `2 ^ 52`. -/
  | finite (negative : Bool) (mantissa : Nat) (exponent : Int)
  | infinite (negative : Bool)
  | notANumber
  deriving DecidableEq, Repr

namespace Double

def leastExponent : Int := -1074

def greatestExponent : Int := 971

def zero (negative : Bool) : Double := .finite negative 0 leastExponent

/-- `num / den` in units of `2 ^ e`, rounded half to even. -/
def inUnits (num den : Nat) (e : Int) : Nat :=
  if 0 ≤ e then roundDiv num (den * Nat.pow 2 e.toNat)
  else roundDiv (num * Nat.pow 2 (-e).toNat) den

/-- The exponent whose unit leaves 53 binary digits of `num / den` in front
of the point. -/
def unitExponent (num den : Nat) : Int :=
  let guess : Int := (num.log2 : Int) - (den.log2 : Int) - 52
  -- `2 ^ (guess + 52)` is at most twice `num / den` and more than half of it.
  let tooLarge : Bool :=
    if 0 ≤ guess + 52 then num < den * Nat.pow 2 (guess + 52).toNat
    else num * Nat.pow 2 (-(guess + 52)).toNat < den
  if tooLarge then guess - 1 else guess

/-- The double nearest to `± num / den`, a half to the even mantissa. -/
def ofRatio (negative : Bool) (num den : Nat) : Double :=
  if num = 0 || den = 0 then zero negative
  else
    let e := max (unitExponent num den) leastExponent
    let m := inUnits num den e
    let (m, e) := if m = Nat.pow 2 53 then (Nat.pow 2 52, e + 1) else (m, e)
    if greatestExponent < e then .infinite negative else .finite negative m e

def ofInt (n : Int) : Double := ofRatio (n < 0) n.natAbs 1

/-- The magnitude of a finite double as a quotient. -/
def ratio (mantissa : Nat) (exponent : Int) : Nat × Nat :=
  if 0 ≤ exponent then (mantissa * Nat.pow 2 exponent.toNat, 1)
  else (mantissa, Nat.pow 2 (-exponent).toNat)

/-- The double nearest to `± digits * 10 ^ exponent`. Exponents far outside
the range of doubles are decided without computing the power. -/
def ofDecimal (negative : Bool) (digits : Nat) (exponent : Int) : Double :=
  if digits = 0 then zero negative
  else
    let width : Int := (Nat.toDigits 10 digits).length
    if 310 < width + exponent then .infinite negative
    else if width + exponent < -330 then zero negative
    else if 0 ≤ exponent then ofRatio negative (digits * Nat.pow 10 exponent.toNat) 1
    else ofRatio negative digits (Nat.pow 10 (-exponent).toNat)

/-- Round to two decimal places, a half of the exact value to
the even neighbour. -/
def roundHundredths : Double → Double
  | .finite negative m e =>
    let (num, den) := ratio m e
    ofRatio negative (roundDiv (num * 100) den) 100
  | other => other

/-- `total / count` as a double, rounded to two places; zero when there is
nothing to divide. A quotient out of range is infinite; the totals of an
analysis are never so large. -/
def average (total : Int) (count : Nat) : Double :=
  if count = 0 then zero false
  else (ofRatio (total < 0) total.natAbs count).roundHundredths

def isIntegral : Double → Bool
  | .finite _ m e => let (num, den) := ratio m e; num % den = 0
  | _ => false

/-- The integer value of an integral double, rounded toward zero otherwise. -/
def toInt : Double → Int
  | .finite negative m e =>
    let (num, den) := ratio m e
    let n : Int := (num / den : Nat)
    if negative then -n else n
  | _ => 0

end Double

end SourceAtlas.Number
