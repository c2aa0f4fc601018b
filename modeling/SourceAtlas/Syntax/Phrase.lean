import SourceAtlas.Syntax.Rule

/-!
The phrases of a TypeScript source, and how they depend on what stands around them.
-/
namespace SourceAtlas.Syntax

/-- Which language a file is written in: with casts in angle brackets, or
with markup. -/
inductive Dialect where
  | plain
  | markup
  deriving DecidableEq, Repr

/-- What an expression may run into. -/
structure Setting where
  /-- The statement around it may end, unwritten, right after it. -/
  open_ : Bool
  /-- A parenthesis may begin a function with a result type. In the middle of a conditional the
  colon may belong to the conditional instead. -/
  typedArrow : Bool
  /-- It stands after `extends`, where type arguments at its end are not its own. -/
  heritage : Bool
  deriving DecidableEq, Repr

namespace Setting

/-- An expression between brackets. -/
def enclosed : Setting := ⟨false, true, false⟩

def trailing : Setting := ⟨true, true, false⟩

def base : Setting := ⟨false, true, true⟩

end Setting

/-- What a type may run into: nothing, or the unwritten end of a statement,
after which an operator could follow or not. -/
abbrev Tail := Option Bool

inductive Phrase where
  | program | statement | block | declaration
  | expressions (s : Setting) | expression (s : Setting) | operand (s : Setting)
  | primary (s : Setting) | postfixed (s : Setting) | arrow (s : Setting)
  | constructed (s : Setting)
  | parenthesized | object | array | template | arguments | function | classExpression
  | propertyName | method (inClass : Bool)
  | binding | target | objectPattern | arrayPattern | parameters | parameter
  | callSignature (tail : Tail) | arrowSignature
  | decorator | classBody | heritage
  | type (tail : Tail) | typeOperand (tail : Tail) | typeQuery (tail : Tail) | objectType
  | typeArguments | typeParameters | typeAscription (tail : Tail) | resultType (tail : Tail)
  | exportStatement | importStatement | classDeclaration | functionDeclaration
  | markupElement
  deriving DecidableEq, Repr

/-- Rules of this grammar. -/
abbrev Grammar := Rule Phrase

open Rule

/-- Words that begin an expression and are names nowhere in one. -/
def expressionWords : List String :=
  ["function", "class", "this", "super", "null", "true", "false", "undefined", "typeof", "void",
    "delete", "await", "yield", "import", "new"]

/-- Words that begin a statement and no expression statement. -/
def statementWords : List String :=
  ["if", "switch", "for", "while", "do", "try", "with", "break", "continue", "debugger", "return",
    "throw", "var", "const", "enum", "interface", "abstract"]

def anyName : Grammar := .token (.name .identifier [])

def plainName : Grammar := .token (.name .identifier expressionWords)

/-- Words with a meaning of their own at the start of a type. -/
def typeWords : List String :=
  ["typeof", "keyof", "infer", "unique", "readonly", "new", "abstract", "void", "null", "true",
    "false", "undefined", "this", "any", "number", "boolean", "string", "symbol", "unknown",
    "never", "object", "import"]

def typeName : Grammar := .token (.name .typeIdentifier [])

def typeReference : Grammar := .token (.name .typeIdentifier typeWords)

def propertyWord : Grammar := .token (.name .propertyIdentifier [])

def stringLiteral : Grammar := .token .string

/-- The end of a statement, written or not. -/
def semicolon (afterExpression : Bool) : Grammar :=
  .alt (.unwritten afterExpression false) (mark ";")

/-- Refuse where the statement ends unwritten, if it may. -/
def goesOn (may : Bool) (afterExpression : Bool) : Grammar :=
  if may then .unless (.unwritten afterExpression false) else .done

/-- Refuse where the statement ends unwritten after a type, if it may. -/
def typeGoesOn : Tail → Grammar
  | none => .done
  | some afterExpression => .unless (.unwritten afterExpression false)

/-- An equals sign that is no part of a longer mark. -/
def equals : Grammar := markNot "=" ["=", ">"]

def initializer (s : Setting) : Grammar := .seq equals (.field .value (.call (.expression s)))

end SourceAtlas.Syntax
