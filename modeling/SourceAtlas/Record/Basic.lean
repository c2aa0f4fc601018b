import SourceAtlas.Text.Basic

/-!
What is known about one source file: its imports, exports, classes and functions, and the role it
plays in the project.
-/
namespace SourceAtlas

inductive ImportKind where
  /-- To a file that exists. -/
  | inside
  /-- To a package: nothing on disk is looked up. -/
  | external
  /-- To a relative path at which there is no file. -/
  | unresolved
  deriving DecidableEq, Repr

namespace ImportKind

def all : List ImportKind := [inside, external, unresolved]

def word : ImportKind → Text
  | inside => "local"
  | external => "external"
  | unresolved => "unresolved"

end ImportKind

inductive ImportForm where
  | named | default | namespaced | sideEffect
  deriving DecidableEq, Repr

namespace ImportForm

def all : List ImportForm := [named, default, namespaced, sideEffect]

def word : ImportForm → Text
  | named => "named"
  | default => "default"
  | namespaced => "namespace"
  | sideEffect => "side-effect"

end ImportForm

inductive ImportGroup where
  | framework | thirdParty | relative
  deriving DecidableEq, Repr

namespace ImportGroup

def all : List ImportGroup := [framework, thirdParty, relative]

def word : ImportGroup → Text
  | framework => "angular"
  | thirdParty => "third-party"
  | relative => "relative"

end ImportGroup

inductive ExportKind where
  | classType | function | variable | interface | type | enum | namespaced | default | binding
  | reexport
  deriving DecidableEq, Repr

namespace ExportKind

def all : List ExportKind :=
  [.classType, .function, .variable, .interface, .type, .enum, .namespaced, .default, .binding,
    .reexport]

def word : ExportKind → Text
  | .classType => "class"
  | .function => "function"
  | .variable => "variable"
  | .interface => "interface"
  | .type => "type"
  | .enum => "enum"
  | .namespaced => "namespace"
  | .default => "default"
  | .binding => "binding"
  | .reexport => "reexport"

end ExportKind

inductive FunctionKind where
  | function | method | constructor | getter | setter | arrow
  deriving DecidableEq, Repr

namespace FunctionKind

def all : List FunctionKind := [.function, .method, .constructor, .getter, .setter, .arrow]

def word : FunctionKind → Text
  | .function => "function"
  | .method => "method"
  | .constructor => "constructor"
  | .getter => "getter"
  | .setter => "setter"
  | .arrow => "arrow"

end FunctionKind

/-- The part a file plays in an application. -/
inductive Role where
  | module | component | service | pipe | directive | guard | interceptor | resolver | model
  | utility | unknown
  deriving DecidableEq, Repr

namespace Role

def all : List Role :=
  [.module, .component, .service, .pipe, .directive, .guard, .interceptor, .resolver, .model,
    .utility, .unknown]

def word : Role → Text
  | .module => "module"
  | .component => "component"
  | .service => "service"
  | .pipe => "pipe"
  | .directive => "directive"
  | .guard => "guard"
  | .interceptor => "interceptor"
  | .resolver => "resolver"
  | .model => "model"
  | .utility => "utility"
  | .unknown => "unknown"

end Role

inductive Confidence where
  | high | medium | low
  deriving DecidableEq, Repr

namespace Confidence

def all : List Confidence := [high, medium, low]

def word : Confidence → Text
  | high => "high"
  | medium => "medium"
  | low => "low"

end Confidence

/-- An import statement and the file it leads to. -/
structure Import where
  source : Text
  resolved : Option Text := none
  kind : ImportKind
  form : ImportForm := .sideEffect
  names : List Text := []
  line : Int := 0
  group : ImportGroup := .thirdParty
  deriving DecidableEq, Repr

structure Export where
  name : Text
  kind : ExportKind
  deriving DecidableEq, Repr

/-- What the object argument of a role decorator says. -/
structure Decoration where
  decorator : Text
  selector : Option Text := none
  templateUrl : Option Text := none
  styleUrls : List Text := []
  standalone : Option Bool := none
  providedIn : Option Text := none
  pipeName : Option Text := none
  imports : List Text := []
  exports : List Text := []
  declarations : List Text := []
  providers : List Text := []
  deriving DecidableEq, Repr

structure ClassInfo where
  name : Text
  implements : List Text := []
  extends? : Option Text := none
  decorators : List Text := []
  decoration : Option Decoration := none
  line : Int := 0
  deriving DecidableEq, Repr

/-- A function, a method, or a function bound to a variable. -/
structure FunctionInfo where
  name : Text
  kind : FunctionKind
  parameters : Int := 0
  isAsync : Bool := false
  line : Int := 0
  deriving DecidableEq, Repr

/-- All that is known about one file. -/
structure Record where
  path : Text
  relativePath : Text
  lineCount : Int := 0
  annotations : List Text := []
  imports : List Import := []
  exports : List Export := []
  classes : List ClassInfo := []
  functions : List FunctionInfo := []
  role : Role := .unknown
  roleLabel : Text := "Unknown"
  confidence : Confidence := .low
  /-- Why nothing was extracted, if nothing was. -/
  failure : Option Text := none
  deriving DecidableEq, Repr

def baseName (path : Text) : Text :=
  Text.ofList (path.toList.reverse.takeWhile (· ≠ .char '/')).reverse

end SourceAtlas
