import SourceAtlas.Record.Basic
import SourceAtlas.Syntax.Tree

/-!
What single phrases of a syntax tree say: the name of a decorator, the bindings of an import, the
names an export declares, the members of a class heading.
-/
namespace SourceAtlas

open Syntax

/-- An import statement as it is written, before anything is looked up. -/
structure ImportSite where
  source : Text
  form : ImportForm
  names : List Text
  line : Nat
  deriving DecidableEq, Repr

/-- One thing found in a file. -/
inductive Finding where
  | decorated (name : Text)
  | importing (site : ImportSite)
  | exporting (e : Export)
  | ofClass (c : ClassInfo)
  | ofFunction (f : FunctionInfo)
  deriving DecidableEq, Repr

namespace Outline

/-- The line on which a tree begins. -/
def lineOf (src : Source) (t : Tree) : Nat := src.line t.start

/-- The text between the quotes of a literal; other text as it is. -/
def unquoted (text : Text) : Text :=
  match text.toList with
  | q :: c :: rest =>
    let body := c :: rest
    if (q = '\'' || q = '"' || q = '`') && body.getLast? = some q then Text.ofList body.dropLast
    else text
  | _ => text

/-- The expression of a decorator: its first phrase that is no comment. -/
def decoratorExpression? (t : Tree) : Option Tree := t.named.find? fun c => !c.isComment

/-- The part of a decorator that names it: a plain name, or the one that a
call is of. -/
def decoratorNaming? (t : Tree) : Option Tree := do
  let e ← decoratorExpression? t
  if e.isKind .identifier then some e
  else if e.isKind .callExpression then (e.part? .function).filter (·.isKind .identifier)
  else none

/-- The name of a decorator. An empty one is none. -/
def decoratorName? (src : Source) (t : Tree) : Option Text :=
  ((decoratorNaming? t).map src.text).filter (· ≠ "")

/-- The name an element of a metadata list refers to. -/
def referenceName? (src : Source) (t : Tree) : Option Text :=
  if t.isOneOf [.identifier, .memberExpression] then some (src.text t)
  else if t.isKind .string then some (unquoted (src.text t))
  else if t.isKind .callExpression then (t.part? .function).map src.text
  else none

/-- The names in a metadata list, or the one name that stands
in place of a list. -/
def referenceNames (src : Source) (t : Tree) : List Text :=
  let elements := if t.isKind .array then t.named else [t]
  (elements.filterMap (referenceName? src)).filter (· ≠ "")

/-- Decorators whose object argument is read. -/
def roleDecorators : List Text := ["Component", "Directive", "Injectable", "NgModule", "Pipe"]

/-- Take one property of the object argument into account. Lists of one key
written twice are joined; of other values the last one counts. -/
def readProperty (src : Source) (d : Decoration) (pair : Tree) : Decoration :=
  match pair.part? .key, pair.part? .value with
  | some keyTree, some value =>
    let key := if keyTree.isKind .string then unquoted (src.text keyTree) else src.text keyTree
    let texts := referenceNames src value
    let text? := if value.isKind .string then some (unquoted (src.text value)) else none
    if key = "selector" then { d with selector := text? <|> d.selector }
    else if key = "templateUrl" then { d with templateUrl := text? <|> d.templateUrl }
    else if key = "styleUrls" || key = "styleUrl" then
      { d with styleUrls := d.styleUrls ++ texts }
    else if key = "standalone" then
      if value.isKind .trueLiteral then { d with standalone := some true }
      else if value.isKind .falseLiteral then { d with standalone := some false }
      else d
    else if key = "providedIn" then { d with providedIn := text? <|> d.providedIn }
    else if key = "imports" then { d with imports := d.imports ++ texts }
    else if key = "exports" then { d with exports := d.exports ++ texts }
    else if key = "declarations" then { d with declarations := d.declarations ++ texts }
    else if key = "providers" then { d with providers := d.providers ++ texts }
    else if key = "name" && d.decorator = "Pipe" then { d with pipeName := text? <|> d.pipeName }
    else d
  | _, _ => d

/-- What the first argument of a role decorator says, if it is an object. -/
def decorationOf (src : Source) (t : Tree) (name : Text) : Decoration :=
  let argument := do
    let e ← decoratorExpression? t
    if e.isKind .callExpression then
      let arguments ← e.part? .arguments
      arguments.named.head?
    else none
  match argument with
  | some object =>
    if object.isKind .object then
      (object.named.filter (·.isKind .pair)).foldl (readProperty src) ⟨name, none, none, [], none,
        none, none, [], [], [], []⟩
    else ⟨name, none, none, [], none, none, none, [], [], [], []⟩
  | none => ⟨name, none, none, [], none, none, none, [], [], [], []⟩

/-- The name by which a specifier is known afterwards: its alias,
or else its name. -/
def bindingText (src : Source) (t : Tree) : Text :=
  ((t.part? .alias <|> t.part? .name).map src.text).getD ""

def clauseBindings (src : Source) (t : Tree) : Option (ImportForm × List Text) :=
  if t.isKind .identifier then some (.default, [src.text t])
  else if t.isKind .namespaceImport then
    some (.namespaced, ["* as " ++ ((t.child? .identifier).map src.text).getD ""])
  else if t.isKind .namedImports then
    some (.named, (t.named.filter (·.isKind .importSpecifier)).map (bindingText src))
  else none

/-- The form of an import and the names it binds. Where forms are mixed, the
last one counts. -/
def importBindings (src : Source) (t : Tree) : ImportForm × List Text :=
  match t.child? .importClause with
  | some clause =>
    let parts := clause.named.filterMap (clauseBindings src)
    ((parts.getLast?.map Prod.fst).getD .sideEffect, parts.flatMap Prod.snd)
  | none =>
    match t.child? .importRequireClause with
    | some clause => (.default, ((clause.child? .identifier).map src.text).toList)
    | none => (.sideEffect, [])

def importSource? (t : Tree) : Option Tree :=
  t.part? .source <|>
    match t.child? .importRequireClause with
    | some clause => clause.part? .source <|> clause.child? .string
    | none => t.child? .string

/-- What a declaration of a kind exports under its name. -/
def exportKind? (t : Tree) : Option ExportKind :=
  if t.isOneOf [.classDeclaration, .abstractClassDeclaration] then some .classType
  else if t.isOneOf [.functionDeclaration, .generatorFunctionDeclaration, .functionSignature] then
    some .function
  else if t.isKind .interfaceDeclaration then some .interface
  else if t.isKind .typeAlias then some .type
  else if t.isKind .enumDeclaration then some .enum
  else if t.isOneOf [.internalModule, .module] then some .namespaced
  else none

/-- The names a declaration of variables binds directly. -/
def variableExports (src : Source) (t : Tree) : List Export :=
  (t.named.filter (·.isKind .variableDeclarator)).filterMap fun d => do
    let name ← d.part? .name
    if name.isKind .identifier then some ⟨src.text name, .variable⟩ else none

mutual

/-- The names a declaration exports. Of an ambient declaration its first
phrase counts. -/
def declaredExports (src : Source) : Tree → List Export
  | .mk label field start stop children =>
    let t := Tree.mk label field start stop children
    if t.isKind .ambientDeclaration then firstExports src children
    else if t.isOneOf [.lexicalDeclaration, .variableDeclaration] then variableExports src t
    else
      match exportKind? t, t.part? .name with
      | some kind, some name => [⟨src.text name, kind⟩]
      | _, _ => []

/-- The names the first phrase of a forest exports. -/
def firstExports (src : Source) : List Tree → List Export
  | [] => []
  | t :: rest => if t.isNamed then declaredExports src t else firstExports src rest

end

/-- The interfaces a class implements, generic ones by their name alone. -/
def implementedNames (src : Source) (clause : Tree) : List Text :=
  clause.named.map fun t =>
    if t.isKind .genericType then src.text ((t.part? .name).getD t) else src.text t

/-- What a class implements and what it extends. -/
def heritage (src : Source) (t : Tree) : List Text × Option Text :=
  match t.child? .classHeritage with
  | none => ([], none)
  | some h =>
    let implements := (h.named.filter (·.isKind .implementsClause)).flatMap (implementedNames src)
    let bases := (h.named.filter (·.isKind .extendsClause)).filterMap (·.part? .value)
    (implements, bases.getLast?.map src.text)

def parameterCount (t : Tree) : Nat :=
  match t.part? .parameters with
  | some list => (list.named.filter (·.isOneOf [.requiredParameter, .optionalParameter])).length
  | none => if (t.part? .parameter).isSome then 1 else 0

end Outline

end SourceAtlas
