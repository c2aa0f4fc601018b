import SourceAtlas.Syntax.Expressions

/-!
Rules of classes, functions, imports, exports and the other declarations.
-/
namespace SourceAtlas.Syntax.Declarations

open Rule Expressions

/-- Words that follow the name of a class and are no names there. -/
def heritageWords : List String := ["extends", "implements"]

def className : Grammar := .field .name (.token (.name .typeIdentifier heritageWords))

/-- A decorator names a function, or calls one, or has either between
parentheses. -/
def decoratorRule : Grammar :=
  let chain := Rule.grow anyName (.wrap [] .memberExpression (some .object)
    (.seq (mark ".") (.field .property propertyWord)))
  let named := Rule.alt
    (.node .callExpression (seqs [.field .function chain,
      opt (.field .typeArguments (.call .typeArguments)), .field .arguments (.call .arguments)]))
    chain
  .node .decorator (.seq (mark "@")
    (.alt (.node .parenthesized (seqs [mark "(", named, mark ")"])) named))

def heritageRule : Grammar :=
  let base := Rule.seq (.field .value (expr .base))
    (opt (.field .typeArguments (.call .typeArguments)))
  let extended := Rule.node .extendsClause (.seq (word "extends") (commaSep base))
  let implemented :=
    Rule.node .implementsClause (.seq (word "implements") (commaSep (.call (.type none))))
  .node .classHeritage (.alt (.seq extended (opt implemented)) implemented)

def classTail : Grammar :=
  seqs [opt (.field .typeParameters (.call .typeParameters)), opt (.call .heritage),
    .field .body (.call .classBody)]

def classExpressionRule : Grammar :=
  .node .classExpression (seqs [.many (.call .decorator), word "class", opt className, classTail])

def classDeclarationRule : Grammar :=
  .alt
    (.node .classDeclaration
      (seqs [.many (.call .decorator), word "class", className, classTail]))
    (.node .abstractClassDeclaration
      (seqs [.many (.call .decorator), word "abstract", word "class", className, classTail]))

/-- A word before the name of a member. It is the name itself where no other
name follows it, or where the member may end after it unwritten. -/
def memberWord (inClass : Bool) (text : String) : Grammar :=
  seqs [word text, goesOn inClass false,
    .ahead (alts [anyName, .token .string, .token .number, mark "[", .token .privateName,
      mark "*"])]

/-- Words that begin a member of a class and are never its name there. -/
def memberMarks : Grammar := words ["abstract", "accessor"]

def methodHead (inClass : Bool) : Grammar :=
  let w := memberWord inClass
  let named := if inClass then .unless (.alt memberMarks (.seq (w "readonly") (word "abstract")))
    else Rule.done
  seqs [opt (Types.accessibilityRule w), named, opt (w "static"), opt (w "override"),
    opt (w "readonly"),
    opt (w "async"), opt (alts [w "get", w "set", mark "*"]),
    .field .name (.call .propertyName), opt (mark "?")]

def methodRule (inClass : Bool) : Grammar :=
  .node .methodDefinition (seqs [methodHead inClass, .call (.callSignature none),
    .field .body (.call .block)])

def methodSignature : Grammar :=
  .node .methodSignature (.seq (methodHead true) (.call (.callSignature (some false))))

def abstractMethodSignature : Grammar :=
  let w := memberWord true
  .node .abstractMethodSignature (seqs [opt (Types.accessibilityRule w), word "abstract",
    opt (w "override"), opt (alts [w "get", w "set", mark "*"]),
    .field .name (.call .propertyName), opt (mark "?"), .call (.callSignature (some false))])

/-- The words before a field, its name and its type. -/
def fieldHead : Grammar :=
  let w := memberWord true
  let access := Types.accessibilityRule w
  seqs [.many (.call .decorator),
    opt (.alt (.seq (w "declare") (opt access)) (.seq access (opt (w "declare")))),
    alts [seqs [w "static", opt (w "override"), opt (w "readonly")],
      .seq (w "override") (opt (w "readonly")),
      .seq (word "abstract") (opt (w "readonly")),
      .seq (w "readonly") (.alt (word "abstract") (.unless (word "abstract"))),
      word "accessor", .unless memberMarks],
    .field .name (.call .propertyName), opt (.alt (mark "?") (markNot "!" ["="])),
    opt (.field .typeOf (.call (.typeAscription (some false))))]

def memberEnd (afterExpression signature : Bool) : Grammar :=
  alts [.unwritten afterExpression signature, mark ";", mark ","]

def classMember : Grammar :=
  alts [
    mark ";",
    .node .staticBlock (.seq (word "static") (.field .body (.call .block))),
    seqs [.many (.call .decorator), .call (.method true), opt (semicolon false)],
    .seq abstractMethodSignature (memberEnd false true),
    .seq (Types.indexSignature (some false)) (memberEnd false false),
    .seq methodSignature (memberEnd false true),
    .seq (.node .fieldDefinition (.seq fieldHead (initializer .trailing))) (memberEnd true false),
    .seq (.node .fieldDefinition fieldHead) (memberEnd false false)]

def classBodyRule : Grammar :=
  .node .classBody (seqs [mark "\x7b", .many (.item classMember), mark "\x7d"])

/-- A function with a body, or only its signature. -/
def functionDeclarationRule : Grammar :=
  let head := Rule.seq (opt (.seq (word "async") (goesOn true true))) (word "function")
  let tail := seqs [.field .name anyName, .call (.callSignature none), .field .body (.call .block)]
  alts [
    .node .generatorFunctionDeclaration (seqs [head, mark "*", tail]),
    .node .functionDeclaration (.seq head tail),
    .node .functionSignature (seqs [head, .field .name anyName,
      .call (.callSignature (some false)), .alt (.unwritten false true) (mark ";")])]

def fromClause : Grammar := .seq (word "from") (.field .source stringLiteral)

/-- A name by which a module knows a binding: a word or a string. -/
def moduleName : Grammar := .alt anyName stringLiteral

/-- A word that marks a binding as a type only. It is a name itself where
the binding ends after it, or is renamed. -/
def typeMark : Grammar :=
  .seq (words ["type", "typeof"])
    (.ahead (.alt (.token (.name .identifier ["as"])) stringLiteral))

def importSpecifier : Grammar :=
  .node .importSpecifier (seqs [opt typeMark,
    .alt (seqs [.field .name moduleName, word "as", .field .alias anyName]) (.field .name anyName)])

def namespaceImport : Grammar := .node .namespaceImport (seqs [mark "*", word "as", anyName])

def namedImports : Grammar := .node .namedImports (Rule.listed "\x7b" importSpecifier "\x7d")

def importClause : Grammar :=
  let bundle := Rule.alt namespaceImport namedImports
  .node .importClause (.alt bundle (.seq anyName (opt (.seq (mark ",") bundle))))

def requireClause : Grammar :=
  .node .importRequireClause (seqs [anyName, equals, word "require", mark "(",
    .field .source stringLiteral, mark ")"])

def importStatementRule : Grammar :=
  .node .importStatement (seqs [word "import",
    opt (.seq (words ["type", "typeof"]) (.ahead (alts [
      .token (.name .identifier ["from"]), mark "\x7b", mark "*"]))),
    alts [.seq importClause fromClause, requireClause, .field .source stringLiteral],
    opt (.node .importAttribute (.seq (words ["with", "assert"]) (.call .object))),
    semicolon false])

/-- A name of a module, with the modules around it. -/
def nestedName : Grammar :=
  .grow anyName (.wrap [] .nestedIdentifier (some .object)
    (.seq (mark ".") (.field .property propertyWord)))

def importAlias : Grammar :=
  .node .importAlias (seqs [word "import", anyName, equals, nestedName, semicolon false])

def exportSpecifier : Grammar :=
  .node .exportSpecifier (seqs [opt typeMark, .field .name moduleName,
    opt (.seq (word "as") (.field .alias moduleName))])

def exportClause : Grammar := .node .exportClause (Rule.listed "\x7b" exportSpecifier "\x7d")

/-- An export, with the decorators written before it. -/
def exportStatementRule : Grammar :=
  let declared := Rule.field Field.declaration (.call .declaration)
  .node .exportStatement (.alt
    (seqs [word "export", goesOn true false, alts [
      seqs [mark "*", fromClause, semicolon false],
      seqs [.node .namespaceExport (seqs [mark "*", word "as", moduleName]), fromClause,
        semicolon false],
      seqs [exportClause, opt fromClause, semicolon false],
      seqs [word "type", exportClause, opt fromClause, semicolon false],
      seqs [equals, expr .trailing, semicolon true],
      seqs [word "as", word "namespace", anyName, semicolon false],
      seqs [word "default", .alt declared
        (.seq (.field .value (expr .trailing)) (semicolon true))],
      declared]])
    (seqs [.call .decorator, .many (.call .decorator), word "export",
      .alt (.seq (word "default") (.alt declared
        (.seq (.field .value (expr .trailing)) (semicolon true)))) declared]))

def variableDeclarator : Grammar :=
  .node .variableDeclarator (.alt
    (seqs [.field .name anyName, mark "!",
      .field .typeOf (.call (.typeAscription (some false)))])
    (seqs [.field .name (.call .binding), opt (.field .typeOf (.call (.typeAscription (some false)))),
      opt (initializer .trailing)]))

def declarators : Grammar := .seq (commaSep variableDeclarator) (semicolon true)

/-- A declaration by `const` or `let`. Outside the head of a loop `let` may
also be a name, and end its statement. -/
def lexicalDeclaration (inHead : Bool) : Grammar :=
  .node .lexicalDeclaration (.seq (.alt (word "const")
    (seqs [word "let", goesOn (!inHead) true,
      .ahead (alts [anyName, mark "\x7b", mark "["])])) declarators)

def variableDeclaration : Grammar := .node .variableDeclaration (.seq (word "var") declarators)

def interfaceDeclaration : Grammar :=
  .node .interfaceDeclaration (seqs [word "interface", .field .name typeName,
    opt (.call .typeParameters),
    opt (.node .extendsTypeClause (.seq (word "extends") (commaSep Types.namedType))),
    .field .body (.node .interfaceBody Types.objectTypeBody)])

def typeAlias : Grammar :=
  .node .typeAlias (seqs [word "type", goesOn true true, .field .name typeName,
    opt (.call .typeParameters), equals, .call (.type (some false)), semicolon false])

def enumDeclaration : Grammar :=
  let entry := Rule.alt
    (.node .enumAssignment (.seq (.field .name (.call .propertyName)) (initializer .enclosed)))
    (.field .name (.call .propertyName))
  .node .enumDeclaration (seqs [opt (word "const"), word "enum", .field .name anyName,
    .field .body (.node .enumBody (Rule.listed "\x7b" entry "\x7d"))])

def moduleTail : Grammar :=
  seqs [.field .name (.alt stringLiteral nestedName),
    opt (.field .body (.call .block))]

def moduleDeclaration : Grammar :=
  .alt (.node .module (seqs [word "module", goesOn true true, moduleTail]))
    (.node .internalModule (seqs [word "namespace", goesOn true true, moduleTail]))

def ambientDeclaration : Grammar :=
  .node .ambientDeclaration (seqs [word "declare", goesOn true true, alts [
    .seq (word "global") (.call .block),
    seqs [word "module", mark ".", propertyWord, mark ":", .call (.type (some false)),
      semicolon false],
    .call .declaration]])

/-- A declaration, chosen by the word it begins with. -/
def declarationRule : Grammar :=
  alts [
    .choose (.ahead (.alt (.seq (.many (.call .decorator)) (.seq (opt (word "abstract"))
        (seqs [word "class", className]))) (.seq (word "abstract") (word "class"))))
      (.call .classDeclaration) (.unless .done),
    .call .functionDeclaration,
    enumDeclaration,
    lexicalDeclaration false,
    variableDeclaration,
    interfaceDeclaration,
    typeAlias,
    moduleDeclaration,
    importAlias,
    ambientDeclaration]

end SourceAtlas.Syntax.Declarations
