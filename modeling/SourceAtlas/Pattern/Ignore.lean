import SourceAtlas.Pattern.CharClass
import SourceAtlas.Text.Blank

/-!
Rules of ignore files. A rule is asked about files only, by their path from the directory of the
ignore file; the last rule that fits decides.
-/
namespace SourceAtlas.Pattern.Ignore

inductive Token where
  /-- Any text without a slash. -/
  | run
  /-- Any text on one line. -/
  | deepRun
  /-- Nothing, or any text on one line that ends with a slash. -/
  | deepDirectories
  /-- Any sign but a slash. -/
  | any
  | sign (s : Sign)
  | set (k : CharClass)
  /-- A set that cannot be read. -/
  | broken
  deriving DecidableEq, Repr

/-- One line of an ignore file. -/
structure Rule where
  negated : Bool
  /-- The rule is for directories and what lies in them. -/
  directoryOnly : Bool
  /-- The rule starts at the directory of the ignore file. -/
  anchored : Bool
  tokens : List Token
  deriving DecidableEq, Repr

/-- A rule of which nothing is left before its meaning is known. -/
structure Emptied where
  deriving DecidableEq, Repr

/-- Stars after a character that is no slash count as one. Every step takes
a character. -/
def joinStarsAfter : Nat → List Sign → List Sign
  | 0, cs => cs
  | _, [] => []
  | fuel + 1, c :: rest =>
    let stars := rest.takeWhile (· = .char '*')
    if c ≠ '/' && 2 ≤ stars.length then c :: .char '*' :: joinStarsAfter fuel (rest.drop stars.length)
    else c :: joinStarsAfter fuel rest

/-- Stars before a character that is no slash count as one. The last of
three or more stars is such a character itself. -/
def joinStarsBefore : Nat → List Sign → List Sign
  | 0, cs => cs
  | _, [] => []
  | fuel + 1, c :: rest =>
    let stars := (c :: rest).takeWhile (· = .char '*')
    let after := (c :: rest).drop stars.length
    if stars.length < 2 then c :: joinStarsBefore fuel rest
    else
      match after with
      | x :: more =>
        if x ≠ '/' then '*' :: x :: joinStarsBefore fuel more
        else if 3 ≤ stars.length then '*' :: '*' :: joinStarsBefore fuel after
        else c :: joinStarsBefore fuel rest
      | [] => if 3 ≤ stars.length then [.char '*', .char '*'] else c :: joinStarsBefore fuel rest

/-- Look at the blanks at the end from index `i` down, as far as the third
character. A blank is dropped, unless one after it was kept; one after a
backslash stays and loses the backslash. -/
def dropBlanksFrom : Nat → Bool → List Sign → List Sign
  | i + 2, dropping, cs =>
    if cs[i + 2]? ≠ some (.char ' ') then cs
    else if cs[i + 1]? = some (.char '\\') then
      dropBlanksFrom i false (cs.take (i + 1) ++ cs.drop (i + 2))
    else dropBlanksFrom (i + 1) dropping (if dropping then cs.take (i + 2) else cs)
  | _, _, cs => cs

/-- Drop the blanks at the end that no backslash protects. -/
def dropTrailingBlanks (cs : List Sign) : List Sign := dropBlanksFrom (cs.length - 1) true cs

/-- The ranges of a set, or nothing if one goes from high to low. A hyphen
between two characters makes a range. -/
def ranges? : List Sign → Option (List (Sign × Sign))
  | a :: .char '-' :: b :: rest =>
    if b.point < a.point then none else (ranges? rest).map ((a, b) :: ·)
  | c :: rest => (ranges? rest).map ((c, c) :: ·)
  | [] => some []

/-- The set that the body of a pair of brackets denotes. Slashes in it count
for nothing. -/
def setOf (body : List Sign) : Except Emptied Token :=
  match body.filter (· ≠ .char '/') with
  | [] => .error ⟨⟩
  | .char '!' :: rest =>
    match ranges? rest with
    | some [] => .ok .broken
    | some ranges => .ok (.set ⟨true, ranges⟩)
    | none => .ok .broken
  | plain =>
    match ranges? plain with
    | some ranges => .ok (.set ⟨false, ranges⟩)
    | none => .ok .broken

/-- The tokens of a pattern. Every step takes a character, so its length is
enough fuel. -/
def tokens : Nat → List Sign → Except Emptied (List Token)
  | 0, _ => .ok []
  | _, [] => .ok []
  | fuel + 1, .char '*' :: .char '*' :: .char '/' :: rest => return .deepDirectories :: (← tokens fuel rest)
  | fuel + 1, .char '*' :: .char '*' :: rest => return .deepRun :: (← tokens fuel rest)
  | fuel + 1, .char '*' :: rest => return .run :: (← tokens fuel rest)
  | fuel + 1, .char '?' :: rest => return .any :: (← tokens fuel rest)
  | fuel + 1, .char '[' :: rest =>
    match CharClass.body? rest with
    | some (body, after) => return (← setOf body) :: (← tokens fuel after)
    | none => return .sign '[' :: (← tokens fuel rest)
  | fuel + 1, c :: rest => return .sign c :: (← tokens fuel rest)

/-- White space at the ends of lines. -/
def isSpace (s : Sign) : Bool := s.char?.any Text.isSpace

def firstSign : List Sign → Except Emptied Sign
  | c :: _ => .ok c
  | [] => .error ⟨⟩

/-- Drop one leading slash from a text that must not be empty. -/
def dropSlash (cs : List Sign) : Except Emptied (List Sign) :=
  match cs with
  | [] => .error ⟨⟩
  | .char '/' :: rest => .ok rest
  | _ => .ok cs

/-- The rule of a pattern, which is not blank and no comment. -/
def ruleOf (negated : Bool) (pattern : List Sign) : Except Emptied (Option Rule) := do
  let cs := joinStarsAfter pattern.length pattern
  let cs := joinStarsBefore cs.length cs
  if Text.trimRight isSpace cs = [.char '/'] then return none
  let _ ← firstSign cs
  let directoryOnly := cs.getLast? = some (.char '/')
  let anchored := cs.dropLast.contains (.char '/')
  let cs ← dropSlash cs
  let _ ← firstSign cs
  let deep := [.char '*', .char '*'].isPrefixOf cs
  let cs := if deep then cs.drop 2 else cs
  let cs ← dropSlash cs
  let _ ← firstSign cs
  let cs := if cs.getLast? = some (.char '/') then cs.dropLast else cs
  let _ ← firstSign cs
  let cs ← match cs with
    | [.char '\\'] => .error ⟨⟩
    | .char '\\' :: .char '#' :: rest => .ok (.char '#' :: rest)
    | .char '\\' :: .char '!' :: rest => .ok (.char '!' :: rest)
    | _ => .ok cs
  let cs := dropTrailingBlanks cs
  return some ⟨negated, directoryOnly, anchored && !deep, ← tokens cs.length cs⟩

def ruleOfLine (line : List Sign) : Except Emptied (Option Rule) :=
  match line with
  | [] => .ok none
  | .char '#' :: _ => .ok none
  | .char '!' :: rest => if line.all isSpace then .ok none else ruleOf true rest
  | _ => if line.all isSpace then .ok none else ruleOf false line

/-- The lines of a text; a line ends with a line feed, a
carriage return, or both. -/
def linesFrom (current : List Sign) : List Sign → List (List Sign)
  | [] => if current.isEmpty then [] else [current.reverse]
  | .char '\r' :: .char '\n' :: rest => current.reverse :: linesFrom [] rest
  | .char '\n' :: rest => current.reverse :: linesFrom [] rest
  | .char '\r' :: rest => current.reverse :: linesFrom [] rest
  | c :: rest => linesFrom (c :: current) rest

def parse (cs : List Char) : Except Emptied (List Rule) :=
  return (← (linesFrom [] (cs.map .char)).mapM ruleOfLine).filterMap id

/-- Whether a test holds of the text after some number of allowed
characters. -/
def afterRun (allowed : Sign → Bool) (test : List Sign → Bool) : List Sign → Bool
  | [] => test []
  | c :: rest => test (c :: rest) || (allowed c && afterRun allowed test rest)

/-- Whether a test holds of the text after some slash before
the end of the line. -/
def afterSlash (test : List Sign → Bool) : List Sign → Bool
  | [] => false
  | c :: rest => (c = '/' && test rest) || (c ≠ '\n' && afterSlash test rest)

/-- Whether the first character satisfies a test and the rest another. -/
def first (here : Sign → Bool) (test : List Sign → Bool) : List Sign → Bool
  | [] => false
  | c :: rest => here c && test rest

/-- Whether tokens fit a beginning of a text such that `done`
holds of what follows. -/
def fits (done : List Sign → Bool) : List Token → List Sign → Bool
  | [] => done
  | .run :: ts => afterRun (· ≠ .char '/') (fits done ts)
  | .deepRun :: ts => afterRun (· ≠ .char '\n') (fits done ts)
  | .deepDirectories :: ts => fun cs => afterSlash (fits done ts) cs || fits done ts cs
  | .any :: ts => first (· ≠ .char '/') (fits done ts)
  | .sign x :: ts => first (· = x) (fits done ts)
  | .set k :: ts => first k.has (fits done ts)
  | .broken :: _ => fun _ => false

/-- The end of a path; a final line break may follow it. -/
def isEnd (cs : List Sign) : Bool := cs.isEmpty || cs = [.char '\n']

/-- What may follow the part of a path that a rule fits. -/
def Rule.mayEnd (r : Rule) (cs : List Sign) : Bool :=
  if r.directoryOnly then
    if r.negated then
      match cs with
      | .char '/' :: rest => isEnd rest
      | _ => false
    else isEnd cs || cs.head? = some (.char '/')
  else isEnd cs

/-- Whether a test holds of the whole text or of what follows
one of its slashes. -/
def atStarts (test : List Sign → Bool) (cs : List Sign) : Bool :=
  test cs || go cs
where
  go : List Sign → Bool
    | [] => false
    | c :: rest => (c = '/' && test rest) || go rest

def Rule.isBroken (r : Rule) : Bool := r.tokens.contains .broken

def Rule.fitsPath (r : Rule) (path : List Sign) : Bool :=
  let test := fits r.mayEnd r.tokens
  if r.anchored then test path else atStarts test path

/-- A set that cannot be read stops the question at its rule. -/
structure Broken where
  deriving DecidableEq, Repr

def firstFit (path : List Sign) : List Rule → Except Broken (Option Rule)
  | [] => .ok none
  | r :: rest =>
    if r.isBroken then .error ⟨⟩
    else if r.fitsPath path then .ok (some r)
    else firstFit path rest

/-- Whether the rules of a file ignore a path: the last rule
that fits decides. -/
def ignores (rules : List Rule) (path : Text) : Except Broken Bool := do
  let cs := path.toList
  if rules.any Rule.negated then
    match ← firstFit cs rules.reverse with
    | some r => return !r.negated
    | none => return false
  else return (← firstFit cs rules).isSome

end SourceAtlas.Pattern.Ignore
