import SourceAtlas.Syntax.Phrase

/-!
Rules of types: annotations, signatures and the type expressions inside them.
-/
namespace SourceAtlas.Syntax.Types

open Rule

def typeArgumentsRule : Grammar :=
  .node .typeArguments (seqs [mark "<", commaSep (.call (.type none)), opt (mark ","), mark ">"])

def typeParametersRule : Grammar :=
  .node .typeParameters (seqs [mark "<",
    commaSep (.node .typeParameter (seqs [
      opt (.seq (word "const") (.ahead anyName)),
      .field .name typeName,
      opt (.node .constraint (.seq (.alt (word "extends") (mark ":")) (.call (.type none)))),
      opt (.node .defaultType (.seq equals (.call (.type none))))])),
    opt (mark ","), mark ">"])

/-- The name, or `this`, whose type a result narrows. -/
def predicateSubject : Grammar := .alt (.node .thisWord (word "this")) anyName

def predicate (tail : Tail) : Grammar :=
  .node .typePredicate (seqs [predicateSubject, word "is", .call (.type tail)])

def assertion (tail : Tail) : Grammar :=
  .node .asserts (.seq (word "asserts") (.alt (predicate tail) predicateSubject))

def typeAscriptionRule (tail : Tail) : Grammar :=
  .node .typeAscription (.seq (mark ":") (.call (.type tail)))

/-- What a function gives: a type, a narrowing or an assertion. -/
def result (tail : Tail) : Grammar :=
  alts [assertion tail,
    .seq (.unless (word "asserts")) (.alt (predicate tail) (.call (.type tail)))]

def resultTypeRule (tail : Tail) : Grammar :=
  .node .typeAscription (.seq (mark ":") (result tail))

def callSignatureRule (tail : Tail) : Grammar :=
  seqs [opt (.field .typeParameters (.call .typeParameters)),
    .field .parameters (.call .parameters),
    opt (.field .returnType (.call (.resultType tail)))]

def functionTail (tail : Tail) : Grammar :=
  seqs [opt (.call .typeParameters), .field .parameters (.call .parameters), mark "=>", result tail]

def beforeArrow : Grammar := .ahead (seqs [.token .bracketed, mark "=>"])

def tupleMember : Grammar :=
  let typed := Rule.call (Phrase.type none)
  alts [
    .node .requiredParameter (seqs [.field .name anyName, .call (.typeAscription none)]),
    .node .optionalParameter
      (seqs [.field .name anyName, mark "?", .call (.typeAscription none)]),
    .node .requiredParameter
      (seqs [.node .restPattern (.seq (mark "...") anyName), .call (.typeAscription none)]),
    .node .restType (.seq (mark "...") typed),
    .grow typed (.wrap [] .optionalType none (mark "?"))]

/-- Words before the name of a member of an object type; each is one only
before another name. -/
def memberWord (text : String) : Grammar :=
  .seq (word text) (.ahead (alts [anyName, .token .string, .token .number, mark "[",
    .token .privateName]))

def accessibilityRule (w : String → Grammar) : Grammar :=
  .node .accessibility (alts [w "public", w "private", w "protected"])

/-- A name under which a type is looked up in brackets: `[key: string]` or
`[K in T]`. -/
def indexSignature (tail : Tail) : Grammar :=
  .node .indexSignature (seqs [
    opt (seqs [opt (.alt (mark "-") (mark "+")), word "readonly", .ahead (mark "[")]),
    mark "[",
    .alt
      (.node .mappedClause (seqs [.field .name typeName, word "in", .call (.type none),
        opt (.seq (word "as") (.call (.type none)))]))
      (seqs [.field .name anyName, mark ":", .call (.type none)]),
    mark "]",
    .node .typeAscription (.seq (alts [mark "-?:", mark "+?:", mark "?:", mark ":"])
      (.call (.type tail)))])

def memberRule : Grammar :=
  let tail : Tail := some false
  let access := .seq (.unless (word "abstract")) (opt (accessibilityRule memberWord))
  alts [
    indexSignature tail,
    .node .constructSignature (seqs [opt (word "abstract"), word "new",
      opt (.call .typeParameters), .call .parameters, opt (.call (.typeAscription tail))]),
    .node .callSignature (.seq (.ahead (.alt (mark "(") (mark "<"))) (.call (.callSignature tail))),
    .node .methodSignature (seqs [access, opt (memberWord "static"), opt (memberWord "override"),
      opt (memberWord "readonly"), opt (memberWord "async"),
      opt (alts [memberWord "get", memberWord "set", mark "*"]),
      .field .name (.call .propertyName), opt (mark "?"), .call (.callSignature tail)]),
    .node .propertySignature (seqs [access, opt (memberWord "static"), opt (memberWord "override"),
      opt (memberWord "readonly"), .field .name (.call .propertyName), opt (mark "?"),
      opt (.call (.typeAscription tail))]),
    .call .exportStatement]

def closing : Grammar := .alt (mark "\x7d") (mark "|\x7d")

def memberEnd : Grammar :=
  alts [mark ",", .unwritten false false, mark ";", .ahead closing]

/-- Members between braces, which may have bars beside them. One separator
may stand before the first member. -/
def objectTypeBody : Grammar :=
  let member := Rule.seq (.item memberRule) memberEnd
  seqs [.alt (mark "\x7b|") (mark "\x7b"),
    opt (seqs [opt (.alt (mark ",") (mark ";")), member, .many member]), closing]

/-- What `typeof` may name: a value and members of it. -/
def typeQueryRule (tail : Tail) : Grammar :=
  .node .typeQuery (.seq (word "typeof")
    (.grow
      (alts [
        .node .callExpression
          (.seq (.node .importWord (word "import")) (.call .arguments)),
        .node .thisWord (word "this"), anyName])
      (.seq (typeGoesOn tail) (alts [
        .wrap [] .memberExpression (some .object) (.seq (.alt (mark ".") (mark "?."))
          (.alt (.token .privateName) propertyWord)),
        .wrap [] .subscriptExpression (some .object) (seqs [mark "[",
          alts [.token .number, .token .string, .call (.type none)], mark "]"]),
        .wrap [] .instantiation none (.call .typeArguments),
        .wrap [] .callExpression (some .function) (.call .arguments)]))))

/-- The names of types, with their modules and arguments. -/
def namedType : Grammar :=
  .grow typeReference (alts [
    .wrap [.typeIdentifier, .nestedTypeIdentifier] .nestedTypeIdentifier none
      (.seq (mark ".") (.field .name typeName)),
    .wrap [.typeIdentifier, .nestedTypeIdentifier] .genericType (some .name)
      (.call .typeArguments)])

def predefinedTypes : List String :=
  ["any", "number", "boolean", "string", "symbol", "void", "unknown", "never", "object"]

/-- A word that stands for a type only if no point or argument follows it. -/
def predefined : Grammar :=
  .seq (.node .predefinedType (words predefinedTypes)) (.unless (mark "."))

def templateTypeRule : Grammar :=
  .node .templateType (seqs [mark "`",
    .many (alts [.here .templateText, .here .templateEscape,
      seqs [.here (.mark "$\x7b" []), .call (.type none), mark "\x7d"]]),
    .here (.mark "`" [])])

def typeOperandRule (tail : Tail) : Grammar :=
  let inner := Rule.call (Phrase.typeOperand tail)
  let suffixed := Rule.call (Phrase.type tail)
  alts [
    .node .keyofType (.seq (word "keyof") inner),
    .node .predefinedType (.seq (word "unique") (word "symbol")),
    .node .readonlyType (seqs [word "readonly", suffixed]),
    .node .inferType (seqs [word "infer", typeName,
      opt (.seq (word "extends") suffixed)]),
    .node .constructorType (seqs [opt (word "abstract"), word "new", functionTail tail]),
    .node .functionType (seqs [.alt beforeArrow (.ahead (mark "<")), functionTail tail]),
    .node .parenthesizedType (seqs [mark "(", .call (.type none), mark ")"]),
    .call (.typeQuery tail),
    .grow (.node .callExpression (.seq (.node .importWord (word "import")) (.call .arguments)))
      (alts [.wrap [] .memberExpression (some .object) (.seq (mark ".") propertyWord),
        .wrap [] .genericType (some .name) (.call .typeArguments)]),
    .call .objectType,
    .node .tupleType (Rule.listed "[" tupleMember "]"),
    templateTypeRule,
    .node .literalType (alts [.token .string, .token .number,
      .seq (.alt (mark "-") (mark "+")) (.token .number),
      words ["true", "false", "null", "undefined"]]),
    .node .existentialType (mark "*"),
    .node .maybeType (.seq (mark "?") inner),
    .seq (.node .thisType (word "this")) (.unless (.alt (mark ".") (word "is"))),
    predefined,
    namedType]

/-- A type: operands joined by `|`, `&` and conditions, and
looked up in brackets. -/
def typeRule (tail : Tail) : Grammar :=
  let operand := Rule.call (Phrase.typeOperand tail)
  let either := markNot "|" ["|"]
  let both := markNot "&" ["&"]
  let led :=
    alts [.node .unionType (.seq either operand), .node .intersectionType (.seq both operand),
      operand]
  .grow led (.seq (typeGoesOn tail) (alts [
    .wrap [] .arrayType none (.seq (mark "[") (mark "]")),
    .wrap [] .lookupType none (seqs [mark "[", .call (.type none), mark "]"]),
    .wrap [] .unionType none (.seq either operand),
    .wrap [] .intersectionType none (.seq both operand),
    .wrap [] .conditionalType (some .left) (seqs [word "extends", .call (.type none),
      .token .conditionalMark, .call (.type none), mark ":", .call (.type tail)])]))

end SourceAtlas.Syntax.Types
