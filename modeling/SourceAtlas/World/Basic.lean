import SourceAtlas.Disk.Canonical
import SourceAtlas.Failure
import SourceAtlas.Number.Decimal

/-!
What an action works on besides its arguments: the disk with its locks, the clock, and what was
printed so far. An action may stop with a failure; what it did to the world before stays done.
-/
namespace SourceAtlas

open Number

/-- The weight of a log line. -/
inductive Level where
  | debug | info | warning
  deriving DecidableEq, Repr

def Level.word : Level → String
  | .debug => "DEBUG"
  | .info => "INFO"
  | .warning => "WARNING"

/-- The part of the program that logs. -/
inductive Channel where
  | scanning | extraction | caching | cycles | analysis
  deriving DecidableEq, Repr

def Channel.word : Channel → String
  | .scanning => "ngmap.scan.files"
  | .extraction => "ngmap.parse.treesitter_source"
  | .caching => "ngmap.cache.store"
  | .cycles => "ngmap.graph.cycles"
  | .analysis => "ngmap.analysis.orchestrator"

/-- Something said beside the result: a log line, or text as it is. -/
inductive Remark where
  | log (level : Level) (channel : Channel) (message : Text)
  | plain (text : Text)
  deriving DecidableEq, Repr

/-- A clock that moves on by a fixed step at each reading. Times are in
microseconds since the start of 1970. -/
structure Watch where
  micros : Nat
  step : Nat
  deriving DecidableEq, Repr

namespace Watch

/-- Year, month and date of a day counted from the start of 1970. Years
begin in March here, so that the leap day is the last of its year. -/
def civil (days : Nat) : Nat × Nat × Nat :=
  let z := days + 719468
  let era := z / 146097
  let day := z % 146097
  let year := (day - day / 1460 + day / 36524 - day / 146096) / 365
  let ofYear := day - (365 * year + year / 4 - year / 100)
  let shifted := (5 * ofYear + 2) / 153
  let date := ofYear - (153 * shifted + 2) / 5 + 1
  let month := if shifted < 10 then shifted + 3 else shifted - 9
  (year + era * 400 + (if month ≤ 2 then 1 else 0), month, date)

def padded (width n : Nat) : String := Style.padLeft width (Style.natText n)

/-- A time as text, in UTC. A fraction of a second is written
only if there is one. -/
def text (micros : Nat) : String :=
  let seconds := micros / 1000000
  let (year, month, date) := civil (seconds / 86400)
  let second := seconds % 86400
  let fraction := if micros % 1000000 = 0 then "" else "." ++ padded 6 (micros % 1000000)
  padded 4 year ++ "-" ++ padded 2 month ++ "-" ++ padded 2 date ++ "T" ++
    padded 2 (second / 3600) ++ ":" ++ padded 2 (second / 60 % 60) ++ ":" ++ padded 2 (second % 60) ++
    fraction ++ "+00:00"

end Watch

/-- Where the program runs: the path of the working directory, and the homes
of users by their names. The user who runs the program has the empty name. -/
structure Standpoint extends Path where
  homes : Assoc Text Text := []
  deriving DecidableEq, Repr

namespace Standpoint

instance : Coe Standpoint Path := ⟨toPath⟩

/-- The path that a home is, whatever slashes it ends with. -/
def homePath (home : Text) : Path :=
  let bare := (home.toList.reverse.dropWhile (· = .char '/')).reverse
  Path.parse (if bare.isEmpty then "/" else .ofList bare)

/-- A path with a home in place of a first name that begins with a tilde:
that of the user whose name follows. A path from the root has no such name. -/
def expand (here : Standpoint) (p : Path) : Except Failure Path :=
  match p.anchor, p.parts with
  | .none, ⟨.char '~' :: user⟩ :: rest =>
    if user.contains (Char.ofNat 0) then .error .nulInPath
    else
      match here.homes.get? (.ofList user) with
      | none => .error .homeless
      | some home =>
        if home.toList.head? = some (.char '~') then .error .homeless
        else .ok ((homePath home).join ⟨.none, rest⟩)
  | _, _ => .ok p

/-- The canonical form of a path, with a home put in and from the root. -/
def resolve (here : Standpoint) (d : Disk) (p : Path) : Except Failure Path := do
  let p ← here.expand p
  match d.canonical (here.join p) with
  | .ok path => .ok path
  | .error .circle => .error .linkCircle
  | .error .nul => .error .nulInPath

end Standpoint

/-- The state of everything outside the program. -/
structure World where
  disk : Disk
  here : Standpoint
  /-- Paths that cannot be read: for so many attempts, or for ever if the number is negative. -/
  locks : List (Text × Int) := []
  watch : Watch
  printed : List String := []
  remarks : List Remark := []
  deriving Repr

/-- Work on a world that gives a result or stops. -/
abbrev Action := ExceptT Failure (StateM World)

namespace Action

/-- Go on from a refusal of the system, with the refusal as the result.
Other failures pass. -/
def attempt {α : Type} (a : Action α) : Action (Except SystemError α) := do
  try
    let v ← a
    return .ok v
  catch
    | .system e => return .error e
    | other => throw other

def log (level : Level) (channel : Channel) (message : Text) : Action Unit :=
  modify fun w => { w with remarks := w.remarks ++ [.log level channel message] }

def remark (text : Text) : Action Unit :=
  modify fun w => { w with remarks := w.remarks ++ [.plain text] }

/-- Write to the channel of results, which takes characters only. -/
def print (text : Text) : Action Unit :=
  match text.string? with
  | some s => modify fun w => { w with printed := w.printed ++ [s] }
  | none => throw .unencodable

def now : Action Text := do
  let w ← get
  let micros := w.watch.micros + w.watch.step
  set { w with watch := { w.watch with micros := micros } }
  return Watch.text micros

end Action

end SourceAtlas
