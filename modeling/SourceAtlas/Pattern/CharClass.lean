import SourceAtlas.Text.Basic

/-!
Sets of signs given by ranges, as patterns write them between brackets.
-/
namespace SourceAtlas.Pattern

/-- The signs in some of the ranges, or all others. A range from
high to low is empty. -/
structure CharClass where
  negated : Bool
  ranges : List (Sign × Sign)
  deriving DecidableEq, Repr

namespace CharClass

def has (k : CharClass) (s : Sign) : Bool :=
  (k.ranges.any fun r => r.1.point ≤ s.point && s.point ≤ r.2.point) != k.negated

/-- The signs between an opening bracket and the one that closes it, and
what follows. An exclamation mark and then a closing bracket may come first
and close nothing. -/
def body? (cs : List Sign) : Option (List Sign × List Sign) :=
  let (mark, rest) := match cs with
    | .char '!' :: rest => ([Sign.char '!'], rest)
    | _ => ([], cs)
  let (first, rest) := match rest with
    | .char ']' :: rest => ([Sign.char ']'], rest)
    | _ => ([], rest)
  match rest.dropWhile (· ≠ Sign.char ']') with
  | _ :: after => some (mark ++ first ++ rest.takeWhile (· ≠ Sign.char ']'), after)
  | [] => none

end CharClass

end SourceAtlas.Pattern
