import SourceAtlas.Text.Parts

/-!
Arguments of a command: options by their names, by a beginning of a long name, with a value after
an equals sign or in the next argument, and at most one plain argument.
-/
namespace SourceAtlas.CommandLine

open Text

inductive Stop where
  | usage
  /-- Help is asked for. -/
  | help
  deriving DecidableEq, Repr

/-- An option under all its names. -/
structure Opt where
  key : Text
  names : List Text
  takesValue : Bool := false
  /-- The values allowed; any if there are none. -/
  choices : List Text := []
  deriving DecidableEq, Repr

def helpOption : Opt := { key := "help", names := ["-h", "--help"] }

/-- A text in the same argument as an option: behind an equals sign, or
joined to a name of one letter. -/
structure Attached where
  text : Text
  joined : Bool
  deriving DecidableEq, Repr

inductive Argument where
  | plain (text : Text)
  /-- Two dashes: what follows is plain. -/
  | dashes
  /-- An option, with the text attached to it if there is one. -/
  | option (o : Opt) (attached : Option Attached)
  | unknown
  deriving DecidableEq, Repr

def named (opts : List Opt) : List (Text × Opt) :=
  opts.flatMap fun o => o.names.map fun n => (n, o)

/-- A text before and after its first equals sign. -/
def splitEquals (text : Text) : Text × Option Text :=
  let cs := text.toList
  match cs.dropWhile (· ≠ .char '=') with
  | _ :: value => (Text.ofList (cs.takeWhile (· ≠ .char '=')), some (Text.ofList value))
  | [] => (text, none)

/-- A minus and digits, with a point or not. -/
def isNegativeNumber (text : Text) : Bool :=
  match text.chars? with
  | some ('-' :: rest) =>
    let whole := rest.takeWhile Char.isDigit
    match rest.dropWhile Char.isDigit with
    | [] => !whole.isEmpty
    | '.' :: fraction => !fraction.isEmpty && fraction.all Char.isDigit
    | _ => false
  | _ => false

/-- The options that an argument may be short for. -/
def abbreviated (opts : List Opt) (text : Text) : List Argument :=
  if startsWith "--" text then
    let (start, value) := splitEquals text
    ((named opts).filter fun p => startsWith start p.1).map fun p =>
      .option p.2 (value.map fun v => ⟨v, false⟩)
  else
    let short := Text.ofList (text.toList.take 2)
    let tail := Text.ofList (text.toList.drop 2)
    (named opts).filterMap fun p =>
      if p.1 = short then some (.option p.2 (some ⟨tail, true⟩))
      else if startsWith text p.1 then some (.option p.2 none)
      else none

/-- What one argument is. -/
def classify (opts : List Opt) (text : Text) : Except Stop Argument :=
  if !startsWith "-" text then .ok (.plain text)
  else
    match (named opts).find? fun p => p.1 = text with
    | some (_, o) => .ok (.option o none)
    | none =>
      if text = "-" then .ok (.plain text)
      else
        let (start, value) := splitEquals text
        match value, (named opts).find? fun p => p.1 = start with
        | some v, some (_, o) => .ok (.option o (some ⟨v, false⟩))
        | _, _ =>
          match abbreviated opts text with
          | [a] => .ok a
          | _ :: _ :: _ => .error .usage
          | [] =>
            if isNegativeNumber text || text.toList.contains ' ' then .ok (.plain text)
            else .ok .unknown

/-- What each argument is. After two dashes all are plain. -/
def classifyAll (opts : List Opt) : List Text → Except Stop (List Argument)
  | [] => .ok []
  | text :: rest =>
    if text = "--" then .ok (.dashes :: rest.map .plain)
    else return (← classify opts text) :: (← classifyAll opts rest)

/-- Options without a value whose letters follow one another after one dash:
those after the first, and whether a letter is left that is none. -/
def letters (opts : List Opt) : List Sign → Except Stop (List (Opt × Text) × Bool)
  | [] => .ok ([], false)
  | c :: rest =>
    if c = '-' || c = '=' then .error .usage
    else
      match (named opts).find? fun n => n.1 = "-" ++ Text.ofList [c] with
      | none => .ok ([], true)
      | some (_, o) =>
        if o.takesValue then
          if rest.isEmpty then .error .usage else .ok ([(o, Text.ofList rest)], false)
        else do
          let (more, surplus) ← letters opts rest
          return ((o, "") :: more, surplus)

structure Parsed where
  /-- Options in the order in which they were given, with their values. -/
  settings : List (Text × Text) := []
  plain : Option Text := none
  /-- Something was given that has no place. -/
  surplus : Bool := false
  deriving DecidableEq, Repr

namespace Parsed

/-- Take an option with its value into account. -/
def set (p : Parsed) (o : Opt) (value : Text) : Except Stop Parsed :=
  if o.key = "help" then .error .help
  else if o.takesValue && !o.choices.isEmpty && !o.choices.contains value then .error .usage
  else .ok { p with settings := p.settings ++ [(o.key, value)] }

def value? (p : Parsed) (key : Text) : Option Text :=
  (p.settings.reverse.find? fun s => s.1 = key).map Prod.snd

def count (p : Parsed) (key : Text) : Nat := (p.settings.filter fun s => s.1 = key).length

def has (p : Parsed) (key : Text) : Bool := 0 < p.count key

/-- Take an option with the text attached to it into account. -/
def setAttached (opts : List Opt) (p : Parsed) (o : Opt) (a : Attached) : Except Stop Parsed := do
  if o.takesValue then p.set o a.text
  else if a.joined then
    let (found, surplus) ← letters opts a.text.toList
    let p ← ((o, ("" : Text)) :: found).foldlM (fun p f => p.set f.1 f.2) p
    return { p with surplus := p.surplus || surplus }
  else .error .usage

end Parsed

def isOption : Argument → Bool
  | .option _ _ => true
  | .unknown => true
  | _ => false

/-- The plain arguments after the last option. Only one has a place, with
two dashes beside it. -/
def finish (p : Parsed) (rest : List Argument) : Parsed :=
  match p.plain, rest with
  | some _, _ => { p with surplus := p.surplus || !rest.isEmpty }
  | none, .dashes :: .plain a :: more => { p with plain := some a, surplus := p.surplus || !more.isEmpty }
  | none, .plain a :: .dashes :: more => { p with plain := some a, surplus := p.surplus || !more.isEmpty }
  | none, .plain a :: more => { p with plain := some a, surplus := p.surplus || !more.isEmpty }
  | none, _ => p

def read (opts : List Opt) (p : Parsed) : List Argument → Except Stop Parsed
  | [] => .ok p
  | .unknown :: rest => read opts { p with surplus := true } rest
  | .option o (some attached) :: rest =>
    match p.setAttached opts o attached with
    | .error e => .error e
    | .ok p => read opts p rest
  | .option o none :: rest =>
    if o.takesValue then
      match rest with
      | .plain value :: rest =>
        match p.set o value with
        | .error e => .error e
        | .ok p => read opts p rest
      | _ => .error .usage
    else
      match p.set o "" with
      | .error e => .error e
      | .ok p => read opts p rest
  | a :: rest =>
    if rest.any isOption then
      match a, p.plain with
      | .plain text, none => read opts { p with plain := some text } rest
      | _, _ => read opts { p with surplus := true } rest
    else .ok (finish p (a :: rest))

/-- Read arguments by the options of a command. -/
def parse (opts : List Opt) (args : List Text) : Except Stop Parsed := do
  read opts {} (← classifyAll opts args)

end SourceAtlas.CommandLine
