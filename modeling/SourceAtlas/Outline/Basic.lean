import SourceAtlas.Outline.Finding

/-!
The outline of a file: all findings of its syntax tree in source order. The tree is walked with a
list of trees still to be looked at; looking at one gives its findings and the trees inside it that
are looked at next.
-/
namespace SourceAtlas

open Syntax

/-- A tree to be looked at, and whether it stands directly in
the body of a class. -/
structure Site where
  tree : Tree
  inClassBody : Bool

namespace Outline

/-- Parts of a phrase, to be looked at one after another. -/
def sites (parts : List (Option Tree)) : List Site :=
  parts.filterMap fun p => p.map fun t => ⟨t, false⟩

/-- The parameters and the body of a function. -/
def signatureSites (t : Tree) : List Site := sites [t.part? .parameters, t.part? .body]

/-- The annotation a decorator gives, if it has a name. -/
def decoratorFinding (src : Source) (t : Tree) : List Finding :=
  ((decoratorName? src t).map Finding.decorated).toList

def decoratorsOf (t : Tree) : List Tree := t.children.filter (·.isKind .decorator)

def lookImport (src : Source) (t : Tree) : List Finding × List Site :=
  match importSource? t with
  | none => ([], [])
  | some source =>
    let (form, names) := importBindings src t
    ([.importing ⟨unquoted (src.text source), form, names, lineOf src t⟩], [])

/-- The class a tree declares, with the decorators written outside of
it. Only a class with a name is listed; its decorators are
annotations in any case. -/
def lookClass (src : Source) (outer : List Tree) (t : Tree) : List Finding × List Site :=
  let decorators := outer ++ decoratorsOf t
  let names := decorators.filterMap (decoratorName? src)
  let decoration := decorators.findSome? fun d => do
    let name ← decoratorName? src d
    if roleDecorators.contains name then some (decorationOf src d name) else none
  let listed := match t.part? .name with
    | none => []
    | some name =>
      let (implements, extends?) := heritage src t
      [Finding.ofClass ⟨src.text name, implements, extends?, names, decoration, lineOf src t⟩]
  (names.map .decorated ++ listed, sites [t.part? .body])

/-- The names of an export without a declaration or a value. -/
def clauseExports (src : Source) (t : Tree) : List Export :=
  let hasSource := (t.part? .source).isSome
  match t.child? .exportClause with
  | some clause =>
    let kind := if hasSource then ExportKind.reexport else ExportKind.binding
    (clause.named.filter (·.isKind .exportSpecifier)).map fun s =>
      ⟨unquoted (bindingText src s), kind⟩
  | none =>
    if hasSource then
      let name := ((t.child? .namespaceExport).bind (·.named.getLast?)).map src.text
      [⟨name.getD "*", .reexport⟩]
    else []

def lookExport (src : Source) (t : Tree) : List Finding × List Site :=
  let decorators := decoratorsOf t
  let annotations := decorators.flatMap (decoratorFinding src)
  match t.part? .declaration with
  | some declaration =>
    let exports := (declaredExports src declaration).map Finding.exporting
    if declaration.isOneOf [.classDeclaration, .abstractClassDeclaration, .classExpression] then
      let (found, next) := lookClass src decorators declaration
      (exports ++ found, next)
    else (exports ++ annotations, sites [some declaration])
  | none =>
    match t.part? .value with
    | some value => (annotations ++ [.exporting ⟨"default", .default⟩], sites [some value])
    | none => (annotations ++ (clauseExports src t).map .exporting, [])

/-- A function listed under a name, and what is looked at inside it. -/
def listFunction (src : Source) (name : Text) (kind : FunctionKind) (at_ function : Tree) :
    List Finding × List Site :=
  ([.ofFunction ⟨name, kind, parameterCount function, function.hasToken "async", lineOf src at_⟩],
    signatureSites function)

def lookFunction (src : Source) (t : Tree) : List Finding × List Site :=
  match t.part? .name with
  | some name => listFunction src (src.text name) .function t t
  | none => ([], signatureSites t)

def methodKind (name : Text) (t : Tree) : FunctionKind :=
  if name = "constructor" then .constructor
  else if t.hasToken "get" then .getter
  else if t.hasToken "set" then .setter
  else .method

/-- Only members of classes are listed; methods of object literals are
properties. -/
def lookMethod (src : Source) (inClassBody : Bool) (t : Tree) : List Finding × List Site :=
  if inClassBody then
    let name := ((t.part? .name).map src.text).getD ""
    let name : Text := if name = "" then "unknown" else name
    listFunction src name (methodKind name t) t t
  else ([], signatureSites t)

/-- A variable that is directly a function is listed as that function. -/
def lookVariable (src : Source) (t : Tree) : List Finding × List Site :=
  match t.part? .value with
  | none => ([], [])
  | some value =>
    match t.part? .name with
    | some name =>
      if name.isKind .identifier && value.isKind .arrowFunction then
        listFunction src (src.text name) .arrow t value
      else if name.isKind .identifier && value.isKind .functionExpression then
        listFunction src (src.text name) .function t value
      else ([], sites [some value])
    | none => ([], sites [some value])

/-- The findings of one tree itself, and the trees inside it to
be looked at next. -/
def look (src : Source) (s : Site) : List Finding × List Site :=
  let t := s.tree
  match t.label with
  | .phrase .importStatement => lookImport src t
  | .phrase .exportStatement => lookExport src t
  | .phrase .classDeclaration => lookClass src [] t
  | .phrase .abstractClassDeclaration => lookClass src [] t
  | .phrase .classExpression => lookClass src [] t
  | .phrase .functionDeclaration => lookFunction src t
  | .phrase .generatorFunctionDeclaration => lookFunction src t
  | .phrase .methodDefinition => lookMethod src s.inClassBody t
  | .phrase .variableDeclarator => lookVariable src t
  | .phrase .decorator => (decoratorFinding src t, [])
  | _ => ([], t.children.map fun c => ⟨c, t.isKind .classBody⟩)

/-- The findings of the trees on a list, each before what follows it. Every
step takes one tree off the list and puts only proper parts of it back, so
the number of trees is enough fuel. -/
def walk (src : Source) : Nat → List Site → List Finding
  | 0, _ => []
  | _, [] => []
  | fuel + 1, s :: rest =>
    let (found, next) := look src s
    found ++ walk src fuel (next ++ rest)

end Outline

/-- What a file holds, by sort. -/
structure Outline where
  annotations : List Text
  imports : List ImportSite
  exports : List Export
  classes : List ClassInfo
  functions : List FunctionInfo
  deriving DecidableEq, Repr

namespace Outline

/-- The members of a list without repetition, each at its first place. -/
def distinct : List Text → List Text
  | [] => []
  | s :: rest => s :: (distinct rest).filter (· ≠ s)

/-- Findings by sort. Annotations are listed once each. -/
def ofFindings (fs : List Finding) : Outline where
  annotations := distinct (fs.filterMap fun
    | .decorated name => some name
    | _ => none)
  imports := fs.filterMap fun
    | .importing site => some site
    | _ => none
  exports := fs.filterMap fun
    | .exporting e => some e
    | _ => none
  classes := fs.filterMap fun
    | .ofClass c => some c
    | _ => none
  functions := fs.filterMap fun
    | .ofFunction f => some f
    | _ => none

def ofTree (src : Source) (t : Tree) : Outline := ofFindings (walk src t.size [⟨t, false⟩])

end Outline

end SourceAtlas
