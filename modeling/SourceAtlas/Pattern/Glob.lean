import SourceAtlas.Pattern.CharClass

/-!
Glob patterns over whole texts: a star stands for any text, slashes included, a question mark for
any one sign, brackets for a set of signs. Nothing is escaped.
-/
namespace SourceAtlas.Pattern.Glob

inductive Token where
  | star
  | any
  | sign (s : Sign)
  | set (k : CharClass)
  deriving DecidableEq, Repr

/-- Cut the body of a set at the hyphens that make ranges. A hyphen makes
one only after `skip` further signs; `current` holds the piece being read,
in reverse. -/
def pieces (current : List Sign) : Nat → List Sign → List (List Sign)
  | _, [] => [current.reverse]
  | skip, c :: rest =>
    match skip with
    | 0 => if c = '-' then current.reverse :: pieces [] 2 rest else pieces (c :: current) 0 rest
    | skip + 1 => pieces (c :: current) skip rest

/-- A hyphen at the very end is a sign like any other. -/
def closeLast : List (List Sign) → List (List Sign)
  | [] => []
  | [p, []] => [p ++ [.char '-']]
  | p :: rest => p :: closeLast rest

/-- Ranges that go from high to low are dropped with both their ends, from
the last on. -/
def dropReversed : List (List Sign) → List (List Sign)
  | [] => []
  | p :: rest =>
    match dropReversed rest with
    | [] => [p]
    | q :: more =>
      match p.getLast?, q.head? with
      | some low, some high =>
        if high.point < low.point then (p.dropLast ++ q.tail) :: more else p :: q :: more
      | _, _ => p :: q :: more

/-- The ranges of a piece and of those after it, between
which hyphens stood. -/
def rangesFrom (p : List Sign) : List (List Sign) → List (Sign × Sign)
  | [] => p.map fun c => (c, c)
  | q :: rest =>
    let joined := match p.getLast?, q.head? with
      | some low, some high => [(low, high)]
      | _, _ => []
    p.dropLast.map (fun c => (c, c)) ++ joined ++ rangesFrom q.tail rest

/-- The ranges of pieces between which hyphens stood. -/
def rangesOf : List (List Sign) → List (Sign × Sign)
  | [] => []
  | p :: rest => rangesFrom p rest

/-- The set that the body of a pair of brackets denotes. -/
def setOf (body : List Sign) : CharClass :=
  let (negated, plain) := match body with
    | .char '!' :: rest => (true, rest)
    | _ => (false, body)
  ⟨negated, rangesOf (dropReversed (closeLast (pieces [] 1 plain)))⟩

/-- The tokens of a pattern. Every step takes a sign, so its length is
enough fuel. -/
def tokens : Nat → List Sign → List Token
  | 0, _ => []
  | _, [] => []
  | fuel + 1, c :: rest =>
    if c = '*' then .star :: tokens fuel rest
    else if c = '?' then .any :: tokens fuel rest
    else if c = '[' then
      match CharClass.body? rest with
      | some (body, after) => .set (setOf body) :: tokens fuel after
      | none => .sign '[' :: tokens fuel rest
    else .sign c :: tokens fuel rest

/-- Whether a test holds of the text after some number of its signs. -/
def afterAny (test : List Sign → Bool) : List Sign → Bool
  | [] => test []
  | c :: rest => test (c :: rest) || afterAny test rest

/-- Whether the first sign satisfies a test and the rest another. -/
def first (here : Sign → Bool) (test : List Sign → Bool) : List Sign → Bool
  | [] => false
  | c :: rest => here c && test rest

def fits : List Token → List Sign → Bool
  | [] => List.isEmpty
  | .star :: ts => afterAny (fits ts)
  | .any :: ts => first (fun _ => true) (fits ts)
  | .sign x :: ts => first (· = x) (fits ts)
  | .set k :: ts => first k.has (fits ts)

def matches_ (pattern text : Text) : Bool :=
  let cs := pattern.toList
  fits (tokens cs.length cs) text.toList

end SourceAtlas.Pattern.Glob
