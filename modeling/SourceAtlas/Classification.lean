import SourceAtlas.Record.Basic
import SourceAtlas.Text.Parts

/-!
The role of a file. Decorators decide before conventions of file names, and these before the mere
presence of exports.
-/
namespace SourceAtlas

/-- A role with how sure it is and how it is shown. -/
structure Decision where
  role : Role
  confidence : Confidence
  label : Text
  deriving DecidableEq, Repr

namespace Classification

open Text

/-- Roles of files that declare something injectable, by a part
of the file name. -/
def injectableRules : List (Text × Decision) :=
  [(".service.", ⟨.service, .high, "Angular Service"⟩),
    (".guard.", ⟨.guard, .high, "Angular Guard"⟩),
    (".interceptor.", ⟨.interceptor, .high, "HTTP Interceptor"⟩),
    (".resolver.", ⟨.resolver, .high, "Route Resolver"⟩)]

/-- Roles of files without a role decorator, by a part of the file name. -/
def nameRules : List (Text × Decision) :=
  [(".model.", ⟨.model, .medium, "Model/Interface"⟩),
    (".interface.", ⟨.model, .medium, "Model/Interface"⟩)]

/-- The decision of the first rule whose part stands in the name. -/
def byName (rules : List (Text × Decision)) (name : Text) : Option Decision :=
  (rules.find? fun r => contains r.1 name).map Prod.snd

def injectable (name : Text) : Decision :=
  (byName injectableRules name).getD ⟨.service, .medium, "Injectable Service"⟩

/-- Role decorators in order of precedence, each with what it decides for a
file of this name. -/
def decoratorRules (name : Text) : List (Text × Decision) :=
  [("Component", ⟨.component, .high, "Angular Component"⟩),
    ("Injectable", injectable name),
    ("NgModule", ⟨.module, .high, "Angular Module"⟩),
    ("Pipe", ⟨.pipe, .high, "Angular Pipe"⟩),
    ("Directive", ⟨.directive, .high, "Angular Directive"⟩)]

/-- A name in lower case. The parts that rules look for are plain ASCII, and
no letter outside ASCII has just one of their letters as its lower case. -/
def lowered (name : Text) : Text := Text.ofList (name.toList.map Sign.lower)

/-- The role of a file with these annotations, this name and these exports. -/
def decide (annotations : List Text) (fileName : Text) (exports : List Export) : Decision :=
  let name := lowered fileName
  let byDecorator := (decoratorRules name).find? fun r => annotations.contains r.1
  match byDecorator with
  | some r => r.2
  | none =>
    match byName nameRules name with
    | some d => d
    | none =>
      if exports.isEmpty then ⟨.unknown, .low, "Unknown"⟩ else ⟨.utility, .low, "Utility/Helper"⟩

/-- The record with its role filled in. -/
def classify (r : Record) : Record :=
  let d := decide r.annotations (baseName r.relativePath) r.exports
  { r with role := d.role, confidence := d.confidence, roleLabel := d.label }

end Classification

end SourceAtlas
