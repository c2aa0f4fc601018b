import SourceAtlas.Graph.Basic

/-!
Cycles of the dependency graph and how grave they are.
-/
namespace SourceAtlas

open Schema

inductive Severity where
  | error | warning
  deriving DecidableEq, Repr

namespace Severity

def all : List Severity := [error, warning]

def word : Severity → Text
  | error => "error"
  | warning => "warning"

end Severity

/-- The sort of a cycle, by the gravest role among its members. -/
inductive CycleKind where
  | module | service | component | general
  deriving DecidableEq, Repr

namespace CycleKind

def all : List CycleKind := [module, service, component, general]

def word : CycleKind → Text
  | module => "module"
  | service => "service"
  | component => "component"
  | general => "general"

/-- The kind of a cycle whose members have these roles. -/
def ofRoles (roles : List Role) : CycleKind :=
  if .module ∈ roles then .module
  else if .service ∈ roles then .service
  else if .component ∈ roles then .component
  else .general

/-- Cycles through modules or services are errors, all others warnings. -/
def severity : CycleKind → Severity
  | module => .error
  | service => .error
  | component => .warning
  | general => .warning

end CycleKind

/-- Files that all reach each other by imports. -/
structure Cycle where
  members : List Text
  severity : Severity
  kind : CycleKind
  deriving DecidableEq, Repr

namespace Cycle

def toDatum (c : Cycle) : Datum := .table [
  ("members", .list (c.members.map .text)),
  ("severity", .text c.severity.word),
  ("type", .text c.kind.word)]

def read : Reader Cycle := Reader.shape fun fs =>
  Cycle.mk <$> required "members" (Reader.list Reader.text) fs
    <*> required "severity" (Reader.member Severity.all Severity.word) fs
    <*> required "type" (Reader.member CycleKind.all CycleKind.word) fs

/-- The cycle of these members, or the first that has no role. -/
def ofMembers (roles : Assoc Text Role) (members : List Text) : Except Text Cycle := do
  let found ← members.mapM fun m =>
    match Assoc.get? m roles with
    | some r => .ok r
    | none => .error m
  let kind := CycleKind.ofRoles found
  return ⟨members, kind.severity, kind⟩

/-- All cycles of a graph, or a name that should be a node and is none. -/
def detect (g : DependencyGraph) : Except Text (List Cycle) := do
  let adjacency ← g.adjacency
  (Graph.cyclic adjacency).mapM (ofMembers g.roles)

end Cycle

end SourceAtlas
