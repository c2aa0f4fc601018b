import SourceAtlas.Text.Basic

/-!
Syntax trees of source files. A tree is a label, the span of source text it covers, the part it
plays in the tree above it, and its children in source order. Comments are children like any
others: one that stands between two parts of a phrase belongs to that phrase.
-/
namespace SourceAtlas.Syntax

inductive Kind where
  | program | comment | hashBang
  -- names and literals
  | identifier | typeIdentifier | propertyIdentifier | privateIdentifier | shorthandProperty
  | statementLabel | nestedIdentifier | nestedTypeIdentifier
  | string | template | templateText | templateEscape | templateSubstitution
  | number | regex | trueLiteral | falseLiteral | nullLiteral | undefinedLiteral
  | thisWord | superWord | importWord | metaProperty
  -- expressions
  | parenthesized | object | array | pair | spread | computedName | functionExpression
  | generatorFunction | arrowFunction | classExpression | callExpression | newExpression
  | memberExpression | subscriptExpression | nonNullExpression | instantiation | awaitExpression
  | yieldExpression | unaryExpression | updateExpression | binaryExpression | ternaryExpression
  | assignment | augmentedAssignment | asExpression | satisfiesExpression | typeAssertion
  | sequence | arguments
  -- patterns and parameters
  | objectPattern | arrayPattern | pairPattern | restPattern | assignmentPattern
  | objectAssignmentPattern | formalParameters | requiredParameter | optionalParameter
  | accessibility
  -- statements
  | block | expressionStatement | lexicalDeclaration | variableDeclaration | variableDeclarator
  | ifStatement | elseClause | forStatement | forInStatement | whileStatement | doStatement
  | switchStatement | switchBody | switchCase | switchDefault | tryStatement | catchClause
  | finallyClause | withStatement | labeledStatement | breakStatement | continueStatement
  | debuggerStatement | returnStatement | throwStatement | emptyStatement
  -- declarations
  | functionDeclaration | generatorFunctionDeclaration | functionSignature | classDeclaration
  | abstractClassDeclaration | classBody | classHeritage | extendsClause | implementsClause
  | staticBlock | fieldDefinition | methodDefinition | methodSignature | abstractMethodSignature
  | indexSignature | decorator | interfaceDeclaration | interfaceBody | extendsTypeClause
  | typeAlias | enumDeclaration | enumBody | enumAssignment | module | internalModule
  | ambientDeclaration
  -- imports and exports
  | importStatement | importClause | importRequireClause | namespaceImport | namedImports
  | importSpecifier | importAttribute | importAlias | exportStatement | exportClause
  | exportSpecifier | namespaceExport
  -- types
  | typeAscription | typeArguments | typeParameters | typeParameter | constraint | defaultType
  | genericType | predefinedType | literalType | thisType | unionType | intersectionType
  | arrayType | lookupType | tupleType | optionalType | restType | objectType | functionType
  | constructorType | conditionalType | inferType | readonlyType | keyofType | typeQuery
  | templateType | parenthesizedType | existentialType | maybeType | typePredicate | asserts
  | propertySignature | callSignature | constructSignature | mappedClause
  -- markup
  | markupElement | markupSelfClosing | markupOpening | markupClosing | markupText
  | markupExpression | markupAttribute | markupReference
  deriving DecidableEq, Repr

/-- What a tree is: a bare token of the language, or a phrase of some kind. -/
inductive Label where
  | token (text : String)
  | phrase (kind : Kind)
  deriving DecidableEq, Repr

/-- The part a tree plays in the phrase above it. -/
inductive Field where
  | name | alias | source | declaration | value | function | arguments | key | body
  | parameters | parameter | object | property | index | left | right | operator | argument
  | condition | consequence | alternative | typeOf | typeArguments | typeParameters | returnType
  | label | pattern | initializer | increment
  deriving DecidableEq, Repr

/-- A labelled tree over the source text from `start` up to `stop`. -/
inductive Tree where
  | mk (label : Label) (field : Option Field) (start stop : Nat) (children : List Tree)
  deriving Repr

namespace Tree

def label : Tree → Label
  | mk l _ _ _ _ => l

def field : Tree → Option Field
  | mk _ f _ _ _ => f

def start : Tree → Nat
  | mk _ _ s _ _ => s

def stop : Tree → Nat
  | mk _ _ _ s _ => s

def children : Tree → List Tree
  | mk _ _ _ _ cs => cs

/-- The same tree in another part. -/
def withField (f : Field) : Tree → Tree
  | mk l _ s e cs => mk l (some f) s e cs

def isKind (k : Kind) (t : Tree) : Bool := t.label == .phrase k

def isOneOf (ks : List Kind) (t : Tree) : Bool := ks.any fun k => t.isKind k

def isToken (text : String) (t : Tree) : Bool := t.label == .token text

/-- Phrases are named; bare tokens are not. -/
def isNamed (t : Tree) : Bool :=
  match t.label with
  | .phrase _ => true
  | .token _ => false

def isComment (t : Tree) : Bool := t.isKind .comment

def part? (f : Field) (t : Tree) : Option Tree := t.children.find? fun c => c.field == some f

def child? (k : Kind) (t : Tree) : Option Tree := t.children.find? fun c => c.isKind k

/-- The children that are phrases, comments among them. -/
def named (t : Tree) : List Tree := t.children.filter isNamed

/-- Whether one of the children is the bare token `text`. -/
def hasToken (text : String) (t : Tree) : Bool := t.children.any fun c => c.isToken text

mutual

/-- How many trees there are in the tree, itself included. -/
def size : Tree → Nat
  | mk _ _ _ _ cs => 1 + sizeAll cs

def sizeAll : List Tree → Nat
  | [] => 0
  | t :: ts => size t + sizeAll ts

end

/-- A phrase around a forest. Comments in front of its first part stay
outside, so that a phrase begins at its first part; a phrase without parts
stands at `here`. -/
def enclose (k : Kind) (here : Nat) (forest : List Tree) : List Tree :=
  let outside := forest.takeWhile isComment
  let inside := forest.dropWhile isComment
  let start := (inside.head?.map Tree.start).getD here
  let stop := (inside.getLast?.map Tree.stop).getD here
  outside ++ [mk (.phrase k) none start stop inside]

/-- Give every part of a forest that is no comment the part `f`. -/
def assign (f : Field) (forest : List Tree) : List Tree :=
  forest.map fun t => if t.isComment then t else t.withField f

end Tree

/-- A source text by its characters, with access by position. -/
structure Source where
  chars : Array Char

namespace Source

def ofList (cs : List Char) : Source := ⟨cs.toArray⟩

def slice (src : Source) (start stop : Nat) : List Char := (src.chars.extract start stop).toList

def text (src : Source) (t : Tree) : Text := .ofChars (src.slice t.start t.stop)

/-- The line of a position, counted from one by line feeds only. -/
def line (src : Source) (offset : Nat) : Nat := (src.slice 0 offset).count '\n' + 1

end Source

end SourceAtlas.Syntax
