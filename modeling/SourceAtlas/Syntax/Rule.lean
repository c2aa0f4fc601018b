import SourceAtlas.Syntax.Lexeme

/-!
Grammars as values, and the one reader that interprets them. A rule says what stands in the
source; choices are ordered and the first that fits is taken. The reader is total: it has fuel for
every step a source of this length can need. It knows nothing of the language, so what holds of its
trees holds for every grammar.
-/
namespace SourceAtlas.Syntax

/-- A rule over the phrase names `N`. -/
inductive Rule (N : Type) where
  /-- Nothing, always there. -/
  | done
  /-- A lexeme after blanks and comments. -/
  | token (l : Lexeme)
  /-- A lexeme at once, without blanks in front of it. -/
  | here (l : Lexeme)
  /-- The end of a statement that is left unwritten. -/
  | unwritten (afterExpression signature : Bool)
  /-- The end of the source. -/
  | finish
  /-- The rule of a phrase. -/
  | call (n : N)
  | seq (a b : Rule N)
  /-- The first rule, or else the second. -/
  | alt (a b : Rule N)
  /-- As often as the rule fits and takes something. -/
  | many (a : Rule N)
  /-- A phrase of a kind around what the rule reads. -/
  | node (k : Kind) (a : Rule N)
  /-- What the rule reads, in a part of the phrase above. -/
  | field (f : Field) (a : Rule N)
  /-- Look whether the rule would fit, and take nothing. -/
  | ahead (a : Rule N)
  /-- Look that the rule would not fit, and take nothing. -/
  | unless (a : Rule N)
  /-- The second rule where the first would fit, and else the third. -/
  | choose (guard yes no : Rule N)
  /-- Read a phrase, then wrap it as long as the second rule goes on from it. -/
  | grow (seed suffix : Rule N)
  /-- In the second rule of `grow`: go on from a phrase of one of these kinds (of any kind if there
  are none), and wrap it together with what is read. -/
  | wrap (after : List Kind) (k : Kind) (left : Option Field) (a : Rule N)
  /-- A phrase at whose start faults inside it are reported. -/
  | item (a : Rule N)
  deriving Repr

namespace Rule

variable {N : Type}

/-- One rule after another. -/
def seqs : List (Rule N) → Rule N
  | [] => .done
  | [r] => r
  | r :: rs => .seq r (seqs rs)

/-- The first rule that fits. -/
def alts : List (Rule N) → Rule N
  | [] => .unless .done
  | [r] => r
  | r :: rs => .alt r (alts rs)

def opt (r : Rule N) : Rule N := .alt r .done

def word (text : String) : Rule N := .token (.word text)

def words (texts : List String) : Rule N := alts (texts.map word)

def mark (text : String) : Rule N := .token (.mark text [])

/-- A mark that is no start of one of the longer marks. -/
def markNot (text : String) (notBefore : List String) : Rule N := .token (.mark text notBefore)

/-- Items with commas between them, at least one. -/
def commaSep (r : Rule N) : Rule N := .seq r (.many (.seq (mark ",") r))

/-- Items between brackets with commas between them; a comma
may follow the last. -/
def listed (opening : String) (r : Rule N) (closing : String) : Rule N :=
  seqs [mark opening, opt (.seq (commaSep r) (opt (mark ","))), mark closing]

/-- Items between brackets where any item may be left out. -/
def holed (opening : String) (r : Rule N) (closing : String) : Rule N :=
  seqs [mark opening, opt r, .many (.seq (mark ",") (opt r)), mark closing]

end Rule

/-- How far reading came before it was refused, and where the item that it
was reading began. -/
structure Stuck where
  offset : Nat
  origin : Nat
  deriving DecidableEq, Repr

/-- The further of two; at one place, the one in the later item. -/
def Stuck.further (a b : Stuck) : Stuck :=
  if a.offset < b.offset then b
  else if b.offset < a.offset then a
  else if a.origin < b.origin then b else a

/-- What a rule read, if it fits, with the trees in source order and the
place after them. -/
structure Outcome where
  result : Option (List Tree × Cursor)
  stuck : Stuck

/-- What the reader knows around a rule: the phrase to go on from, and the
start of the item. -/
structure Around where
  left : Option Tree
  origin : Nat

namespace Outcome

def accept (trees : List Tree) (cur : Cursor) : Outcome := ⟨some (trees, cur), ⟨0, 0⟩⟩

def refuse (around : Around) (offset : Nat) : Outcome := ⟨none, ⟨offset, around.origin⟩⟩

/-- Keep what was learnt from an attempt that was given up. -/
def since (o : Outcome) (s : Stuck) : Outcome := { o with stuck := s.further o.stuck }

/-- Change the trees of a success. -/
def mapTrees (f : List Tree → List Tree) (o : Outcome) : Outcome :=
  { o with result := o.result.map fun (ts, cur) => (f ts, cur) }

end Outcome

/-- Read a lexeme at a place, with the comments that stand before it. -/
def readLexeme (around : Around) (l : Lexeme) (before : List Tree) (cur : Cursor) : Outcome :=
  let n := l.length cur.rest
  if n = 0 then .refuse around cur.offset
  else
    let next := cur.advance n
    .accept (before ++ [.mk l.label none cur.offset next.offset []]) next

/-- Read an unwritten end: where none is possible at once, it may follow a
comment. The first list counts the steps. -/
def readUnwritten (around : Around) (afterExpression signature : Bool) :
    List Char → List Tree → Cursor → Outcome
  | [], before, cur =>
    if endsUnwritten afterExpression signature cur.rest then .accept before cur
    else .refuse around cur.offset
  | _ :: steps, before, cur =>
    if endsUnwritten afterExpression signature cur.rest then .accept before cur
    else
      let cur := cur.advance (cur.rest.takeWhile isBlank).length
      let n := commentLength cur.rest
      if n = 0 then .refuse around cur.offset
      else
        let next := cur.advance n
        readUnwritten around afterExpression signature steps
          (before ++ [.mk (.phrase .comment) none cur.offset next.offset []]) next

mutual

def Rule.run {N : Type} (g : N → Rule N) : Nat → Around → Rule N → Cursor → Outcome
  | 0, around, _, cur => .refuse around cur.offset
  | fuel + 1, around, rule, cur =>
    match rule with
    | .done => .accept [] cur
    | .token l =>
      let (comments, cur) := cur.skipExtras
      readLexeme around l comments cur
    | .here l => readLexeme around l [] cur
    | .unwritten afterExpression signature =>
      readUnwritten around afterExpression signature cur.rest [] cur
    | .finish =>
      let (comments, cur) := cur.skipExtras
      if cur.rest.isEmpty then .accept comments cur else .refuse around cur.offset
    | .call n => Rule.run g fuel around (g n) cur
    | .seq a b =>
      match Rule.run g fuel around a cur with
      | ⟨some (before, cur), stuck⟩ =>
        ((Rule.run g fuel around b cur).mapTrees (before ++ ·)).since stuck
      | refused => refused
    | .alt a b =>
      match Rule.run g fuel around a cur with
      | ⟨none, stuck⟩ => (Rule.run g fuel around b cur).since stuck
      | accepted => accepted
    | .many a => Rule.runMany g fuel around a [] ⟨0, 0⟩ cur
    | .node k a =>
      (Rule.run g fuel { around with left := none } a cur).mapTrees (Tree.enclose k cur.offset)
    | .field f a => (Rule.run g fuel { around with left := none } a cur).mapTrees (Tree.assign f)
    | .ahead a =>
      match (Rule.run g fuel around a cur).result with
      | some _ => .accept [] cur
      | none => .refuse around cur.offset
    | .unless a =>
      match (Rule.run g fuel around a cur).result with
      | some _ => .refuse around cur.offset
      | none => .accept [] cur
    | .choose guard yes no =>
      match (Rule.run g fuel around guard cur).result with
      | some _ => Rule.run g fuel around yes cur
      | none => Rule.run g fuel around no cur
    | .grow seed suffix =>
      match Rule.run g fuel { around with left := none } seed cur with
      | ⟨some (trees, cur), stuck⟩ =>
        match trees.getLast? with
        | some last => Rule.runGrow g fuel around suffix trees.dropLast last stuck cur
        | none => ⟨some (trees, cur), stuck⟩
      | refused => refused
    | .wrap after k left a =>
      match around.left with
      | none => .refuse around cur.offset
      | some phrase =>
        if after.isEmpty || phrase.isOneOf after then
          let phrase := match left with
            | some f => phrase.withField f
            | none => phrase
          (Rule.run g fuel { around with left := none } a cur).mapTrees fun ts =>
            Tree.enclose k phrase.start (phrase :: ts)
        else .refuse around cur.offset
    | .item a =>
      let (_, first) := cur.skipExtras
      Rule.run g fuel { around with origin := first.offset } a cur

/-- Read by a rule as often as it fits and takes something. -/
def Rule.runMany {N : Type} (g : N → Rule N) :
    Nat → Around → Rule N → List (List Tree) → Stuck → Cursor → Outcome
  | 0, _, _, found, stuck, cur => ⟨some (found.reverse.flatten, cur), stuck⟩
  | fuel + 1, around, a, found, stuck, cur =>
    match Rule.run g fuel around a cur with
    | ⟨some (trees, next), more⟩ =>
      if next.offset = cur.offset then ⟨some (found.reverse.flatten, cur), stuck.further more⟩
      else Rule.runMany g fuel around a (trees :: found) (stuck.further more) next
    | ⟨none, more⟩ => ⟨some (found.reverse.flatten, cur), stuck.further more⟩

/-- Wrap a phrase as long as the rule goes on from it. -/
def Rule.runGrow {N : Type} (g : N → Rule N) :
    Nat → Around → Rule N → List Tree → Tree → Stuck → Cursor → Outcome
  | 0, _, _, before, last, stuck, cur => ⟨some (before ++ [last], cur), stuck⟩
  | fuel + 1, around, suffix, before, last, stuck, cur =>
    match Rule.run g fuel { around with left := some last } suffix cur with
    | ⟨some (trees, next), more⟩ =>
      match trees.getLast? with
      | some wrapped => Rule.runGrow g fuel around suffix before wrapped (stuck.further more) next
      | none => ⟨some (before ++ [last], cur), stuck.further more⟩
    | ⟨none, more⟩ => ⟨some (before ++ [last], cur), stuck.further more⟩

end

/-- Fuel for reading a source of this many characters: no grammar here takes
as many steps inside one another at one character. -/
def readingFuel (length : Nat) : Nat := 2000 * (length + 2)

/-- Read the whole source by a rule: its trees, or where
reading was refused. -/
def Rule.read {N : Type} (g : N → Rule N) (r : Rule N) (cs : List Char) : Except Stuck (List Tree) :=
  let o := r.run g (readingFuel cs.length) ⟨none, 0⟩ ⟨cs, 0⟩
  match o.result with
  | some (trees, _) => .ok trees
  | none => .error o.stuck

end SourceAtlas.Syntax
