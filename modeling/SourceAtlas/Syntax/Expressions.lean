import SourceAtlas.Syntax.Types

/-!
Rules of expressions. Operators are read one after another without grading them: what an operator
takes for its operands changes no name, import or function in the outline.
-/
namespace SourceAtlas.Syntax.Expressions

open Rule

def expr (s : Setting) : Grammar := .call (.expression s)

def inner : Grammar := expr .enclosed

def assignable : List Kind :=
  [.identifier, .undefinedLiteral, .memberExpression, .subscriptExpression, .nonNullExpression,
    .objectPattern, .arrayPattern, .parenthesized]

def changeable : List Kind :=
  [.identifier, .undefinedLiteral, .memberExpression, .subscriptExpression, .nonNullExpression,
    .parenthesized]

/-- Marks of binary operators, each with the marks that would make it
another one. -/
def binaryMarks : List (String × List String) :=
  [("&&", ["="]), ("||", ["="]), ("??", ["="]), (">>>", ["="]), (">>", [">", "="]), ("<<", ["="]),
    ("&", ["&", "="]), ("|", ["|", "="]), ("^", ["="]), ("===", []), ("==", ["="]), ("!==", []),
    ("!=", ["="]), ("<=", []), (">=", []), ("<", ["<", "="]), (">", [">", "="]), ("**", ["="]),
    ("+", ["+", "="]), ("-", ["-", "="]), ("*", ["*", "="]), ("/", ["="]), ("%", ["="])]

def augmentedMarks : List String :=
  ["+=", "-=", "*=", "/=", "%=", "^=", "&=", "|=", ">>=", ">>>=", "<<=", "**=", "&&=", "||=",
    "??="]

/-- What may begin an operand: after type arguments such a start makes them
comparisons. -/
def startsOperand : Grammar :=
  alts [.token (.name .identifier ["in", "instanceof", "as", "satisfies", "extends", "implements",
      "of", "is"]),
    .token .number, .token .string, mark "(", mark "[", mark "\x7b", mark "`", mark "!", mark "~",
    mark "#", mark "<"]

/-- Type arguments that are not the start of a comparison. -/
def closedTypeArguments : Grammar := .seq (.call .typeArguments) (.unless startsOperand)

def sequenceRule (s : Setting) : Grammar :=
  .grow (expr s) (.seq (goesOn s.open_ true) (.wrap [] .sequence none
    (.seq (mark ",") (.seq (expr s) (.many (.seq (mark ",") (expr s)))))))

/-- The colon of a conditional may also be read as the result type
of a function between the marks; that reading is kept only if
another colon follows. -/
def conditionalTail (s : Setting) : Grammar :=
  seqs [.token .conditionalMark,
    .field .consequence (.alt (.seq (expr ⟨false, true, false⟩) (.ahead (mark ":")))
      (expr ⟨false, false, false⟩)),
    mark ":",
    .field .alternative (expr s)]

def binaryTail (s : Setting) (m : String × List String) : Grammar :=
  let read := .wrap [] .binaryExpression (some .left)
    (.seq (markNot m.1 m.2) (.field .right (.call (.operand s))))
  if m.1 = "<" then
    if s.heritage then .seq (.unless (.call .typeArguments)) read else read
  else read

def expressionRule (s : Setting) : Grammar :=
  .grow (.call (.operand s)) (.seq (goesOn s.open_ true) (alts ([
    .wrap [] .ternaryExpression (some .condition) (conditionalTail s),
    .wrap [] .asExpression none (.seq (word "as")
      (.alt (word "const") (.call (.type (if s.open_ then some true else none))))),
    .wrap [] .satisfiesExpression none
      (.seq (word "satisfies") (.call (.type (if s.open_ then some true else none)))),
    .wrap [] .binaryExpression (some .left)
      (.seq (words ["instanceof", "in"]) (.field .right (.call (.operand s))))]
    ++ binaryMarks.map (binaryTail s))))

def unary (s : Setting) (operator : Grammar) : Grammar :=
  .node .unaryExpression (.seq operator (.field .argument (.call (.operand s))))

def operandRule (dialect : Dialect) (s : Setting) : Grammar :=
  let angled := match dialect with
    | .plain => .alt (.call (.arrow s))
        (.node .typeAssertion (.seq (.call .typeArguments) (.call (.operand s))))
    | .markup => .alt (.call (.arrow s)) (.call .markupElement)
  alts [
    .choose (.ahead (mark "<")) angled (.unless .done),
    .choose (.ahead (words ["typeof", "void", "delete", "await", "yield"]))
      (alts [
        unary s (words ["typeof", "void", "delete"]),
        .node .awaitExpression (.seq (word "await") (.call (.operand s))),
        .node .yieldExpression (.seq (word "yield") (.alt (.seq (mark "*") (expr s))
          (opt (.seq (goesOn s.open_ true) (expr s)))))])
      (.unless .done),
    .node .updateExpression (.seq (.alt (mark "++") (mark "--"))
      (.field .argument (.call (.operand s)))),
    unary s (alts [mark "!", mark "~", markNot "-" ["-"], markNot "+" ["+"]]),
    .node .assignment (seqs [word "using", .field .left (.call .target), equals,
      .field .right (expr s)]),
    .call (.postfixed s)]

/-- A chain of members, calls and assignments from its first part. -/
def postfixedRule (s : Setting) : Grammar :=
  let member := Rule.alt (.token .privateName) propertyWord
  .grow (.call (.primary s)) (.seq (goesOn s.open_ true) (alts ([
    .wrap [] .memberExpression (some .object)
      (.seq (markNot "." ["."]) (.field .property member)),
    .wrap [] .callExpression (some .function) (.field .arguments (.call .arguments)),
    .wrap [] .subscriptExpression (some .object)
      (seqs [mark "[", .field .index (.call (.expressions .enclosed)), mark "]"]),
    .wrap [] .memberExpression (some .object)
      (seqs [.unless (.token .conditionalMark), mark "?.", .field .property member]),
    .wrap [] .callExpression (some .function) (seqs [mark "?.",
      opt (.call .typeArguments), .field .arguments (.call .arguments)]),
    .wrap [] .subscriptExpression (some .object)
      (seqs [mark "?.", mark "[", .field .index (.call (.expressions .enclosed)), mark "]"]),
    .wrap [] .callExpression (some .function) (.field .arguments (.call .template)),
    .wrap [] .callExpression (some .function) (seqs [.ahead (mark "<"),
      .field .typeArguments (.call .typeArguments), .field .arguments (.call .arguments)]),
    .wrap [] .nonNullExpression none (markNot "!" ["="]),
    .wrap [] .updateExpression (some .argument) (.alt (mark "++") (mark "--")),
    .wrap assignable .assignment (some .left) (.seq equals (.field .right (expr s))),
    .wrap changeable .augmentedAssignment (some .left)
      (.seq (alts (augmentedMarks.map mark)) (.field .right (expr s)))]
    ++ (if s.heritage then [] else
      [.wrap [] .instantiation none (.field .typeArguments closedTypeArguments)]))))

/-- What is constructed: a chain of members without calls, and its
arguments if any. -/
def constructedRule (s : Setting) : Grammar :=
  .node .newExpression (seqs [word "new",
    .alt (.call (.constructed s))
      (.grow (.call (.primary s)) (.seq (goesOn s.open_ true) (alts [
        .wrap [] .memberExpression (some .object)
          (.seq (.alt (mark ".") (mark "?.")) (.alt (.token .privateName) propertyWord)),
        .wrap [] .subscriptExpression (some .object)
          (seqs [mark "[", .call (.expressions .enclosed), mark "]"]),
        .wrap [] .nonNullExpression none (markNot "!" ["="])]))),
    opt (.seq (goesOn s.open_ true) (.alt
      (seqs [.ahead (mark "<"), .call .typeArguments, opt (.call .arguments)])
      (.call .arguments)))])

def arrowBody (s : Setting) : Grammar :=
  .choose (.ahead (mark "\x7b")) (.field .body (.call .block)) (.field .body (expr s))

/-- Functions written with an arrow. Where a result type could be the colon
of a conditional, none is read. -/
def arrowRule (s : Setting) : Grammar :=
  let single := Rule.seq (.ahead (.seq plainName (mark "=>"))) (.field .parameter plainName)
  let follows := if s.typedArrow then Rule.alt (mark "=>") (mark ":") else mark "=>"
  let signature :=
    if s.typedArrow then Rule.call (Phrase.callSignature none) else .call .arrowSignature
  let listed :=
    Rule.seq (.ahead (.alt (mark "<") (.seq (.token .bracketed) follows))) signature
  let head := Rule.alt single listed
  .node .arrowFunction (.alt
    (seqs [word "async", goesOn s.open_ true, head, mark "=>", arrowBody s])
    (seqs [head, mark "=>", arrowBody s]))

def arrowSignatureRule : Grammar :=
  seqs [opt (.field .typeParameters (.call .typeParameters)), .field .parameters (.call .parameters)]

def functionRule : Grammar :=
  let tail := seqs [opt (.field .name anyName),
    .call (.callSignature none), .field .body (.call .block)]
  .alt
    (.node .generatorFunction (seqs [opt (word "async"), word "function", mark "*", tail]))
    (.node .functionExpression (seqs [opt (word "async"), word "function", tail]))

def parenthesizedRule : Grammar :=
  .node .parenthesized (seqs [mark "(", .call (.expressions .enclosed),
    opt (.call (.typeAscription none)), mark ")"])

def spread : Grammar := .node .spread (.seq (mark "...") inner)

def argumentsRule : Grammar := .node .arguments (Rule.holed "(" (.alt spread inner) ")")

def arrayRule : Grammar := .node .array (Rule.holed "[" (.alt spread inner) "]")

def objectRule : Grammar :=
  .node .object (Rule.holed "\x7b" (alts [
    spread,
    .node .pair (seqs [.field .key (.call .propertyName), mark ":", .field .value inner]),
    .call (.method false),
    .token (.name .shorthandProperty [])]) "\x7d")

def propertyNameRule : Grammar :=
  alts [propertyWord, .token .privateName, .token .string, .token .number,
    .node .computedName (seqs [mark "[", inner, mark "]"])]

/-- A template: text, escapes and substitutions up to the closing backquote. -/
def templateRule : Grammar :=
  .node .template (seqs [mark "`",
    .many (alts [.here .templateText, .here .templateEscape,
      .node .templateSubstitution (seqs [.here (.mark "$\x7b" []),
        .call (.expressions .enclosed), mark "\x7d"])]),
    .here (.mark "`" [])])

/-- A bracketed run that is assigned to, or looped over, is a pattern. -/
def beforeEquals : Grammar := .ahead (.seq (.token .bracketed) equals)

def primaryRule (s : Setting) : Grammar :=
  alts [
    .choose (.ahead (mark "(")) (.alt (.call (.arrow s)) (.call .parenthesized)) (.unless .done),
    .choose (.ahead (mark "\x7b"))
      (.alt (.seq beforeEquals (.call .objectPattern)) (.call .object)) (.unless .done),
    .choose (.ahead (mark "["))
      (.alt (.seq beforeEquals (.call .arrayPattern)) (.call .array)) (.unless .done),
    .token .string,
    .call .template,
    .token .number,
    .token .regex,
    .choose (.ahead (words ["function"])) (.call .function) (.unless .done),
    .choose (.ahead (.alt (word "class") (mark "@"))) (.call .classExpression) (.unless .done),
    .choose (.ahead (.seq (word "async") (.seq (goesOn s.open_ true) (word "function"))))
      (.call .function) (.unless .done),
    .choose (.ahead (word "new"))
      (.alt (.node .metaProperty (seqs [word "new", mark ".", word "target"]))
        (.call (.constructed s)))
      (.unless .done),
    .choose (.ahead (word "import"))
      (.alt (.node .metaProperty (seqs [word "import", mark ".", word "meta"]))
        (.seq (.node .importWord (word "import")) (.ahead (.alt (mark "(") (mark ".")))))
      (.unless .done),
    .node .thisWord (word "this"),
    .node .superWord (word "super"),
    .node .nullLiteral (word "null"),
    .node .trueLiteral (word "true"),
    .node .falseLiteral (word "false"),
    .call (.arrow s),
    .node .undefinedLiteral (word "undefined"),
    plainName,
    .seq (.token .privateName) (.ahead (word "in"))]

/-- A place that patterns may assign to: a name, or a member of something. -/
def targetRule : Grammar :=
  .alt
    (.seq (.ahead (.alt (mark "\x7b") (mark "["))) (.alt (.call .objectPattern) (.call .arrayPattern)))
    (.grow (alts [.node .undefinedLiteral (word "undefined"), .node .thisWord (word "this"),
        plainName])
      (alts [
        .wrap [] .memberExpression (some .object)
          (.seq (markNot "." ["."]) (.field .property (.alt (.token .privateName) propertyWord))),
        .wrap [] .subscriptExpression (some .object)
          (seqs [mark "[", .call (.expressions .enclosed), mark "]"]),
        .wrap [] .callExpression (some .function) (.seq (.call .arguments)
          (.ahead (alts [mark ".", mark "[", mark "(", markNot "!" ["="]]))),
        .wrap [] .nonNullExpression none (markNot "!" ["="])]))

def restPattern : Grammar := .node .restPattern (.seq (mark "...") (.call .target))

/-- A pattern, with the value it takes when there is none. -/
def defaulted : Grammar :=
  .alt (.node .assignmentPattern (seqs [.field .left (.call .target), equals,
      .field .right inner]))
    (.call .target)

def objectPatternRule : Grammar :=
  let short := Rule.token (.name .shorthandProperty [])
  .node .objectPattern (Rule.holed "\x7b" (alts [
    restPattern,
    .node .pairPattern (seqs [.field .key (.call .propertyName), mark ":", .field .value defaulted]),
    .node .objectAssignmentPattern (seqs [.field .left short, equals, .field .right inner]),
    short]) "\x7d")

def arrayPatternRule : Grammar :=
  .node .arrayPattern (Rule.holed "[" (.alt restPattern defaulted) "]")

def bindingRule : Grammar := alts [.call .objectPattern, .call .arrayPattern, anyName]

/-- Words before a parameter; each is one only before
another name or pattern. -/
def parameterWord (text : String) : Grammar :=
  .seq (word text) (.ahead (alts [anyName, mark "\x7b", mark "[", mark "..."]))

def parameterRule : Grammar :=
  let head := seqs [.many (.call .decorator), opt (Types.accessibilityRule parameterWord),
    opt (parameterWord "override"), opt (parameterWord "readonly"),
    .field .pattern (alts [.seq (.node .thisWord (word "this")) (.unless (mark ".")), restPattern,
      .seq (.ahead (.alt (mark "\x7b") (mark "["))) (.call .target),
      .grow (.alt (.node .undefinedLiteral (word "undefined")) plainName) (alts [
        .wrap [] .memberExpression (some .object)
          (.seq (markNot "." ["."]) (.alt (.token .privateName) propertyWord)),
        .wrap [] .subscriptExpression (some .object)
          (seqs [mark "[", .call (.expressions .enclosed), mark "]"])])])]
  let tail := seqs [opt (.field .typeOf (.call (.typeAscription none))),
    opt (initializer .enclosed)]
  .alt (.node .optionalParameter (seqs [head, mark "?", tail]))
    (.node .requiredParameter (.seq head tail))

def parametersRule : Grammar := .node .formalParameters (Rule.listed "(" (.call .parameter) ")")

end SourceAtlas.Syntax.Expressions
