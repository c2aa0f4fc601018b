import SourceAtlas.Syntax.Declarations

/-!
Rules of statements and of the whole source.
-/
namespace SourceAtlas.Syntax.Statements

open Rule Expressions Declarations

def body : Grammar := .field .body (.call .statement)

def blockRule : Grammar :=
  .node .block (seqs [mark "\x7b", .many (.call .statement), mark "\x7d"])

def condition : Grammar := .field .condition (.call .parenthesized)

def ifStatement : Grammar :=
  .node .ifStatement (seqs [word "if", condition, .field .consequence (.call .statement),
    .alt (.field .alternative (.node .elseClause (.seq (word "else") (.call .statement))))
      (.unless (word "else"))])

/-- The head of a loop over the members of something. -/
def forInStatement : Grammar :=
  .node .forInStatement (seqs [word "for", opt (word "await"), mark "(",
    alts [
      seqs [word "var", .field .left (.call .binding), opt (initializer .enclosed)],
      seqs [words ["let", "const"], .field .left (.call .binding)],
      .field .left (.alt (.call .target) (.call .parenthesized))],
    words ["in", "of"], .field .right (.call (.expressions .enclosed)), mark ")", body])

def forStatement : Grammar :=
  let expressions := Rule.call (Phrase.expressions .enclosed)
  let empty := Rule.node .emptyStatement (mark ";")
  .node .forStatement (seqs [word "for", mark "(",
    .field .initializer (alts [lexicalDeclaration true, variableDeclaration, empty,
      .seq expressions (mark ";")]),
    .field .condition (.alt empty (.seq expressions (mark ";"))),
    .field .increment (opt expressions), mark ")", body])

def switchStatement : Grammar :=
  let statements := Rule.many (.seq (.unless (words ["case", "default"])) (.call .statement))
  let case_ := Rule.node .switchCase (seqs [word "case",
    .field .value (.call (.expressions ⟨false, false, false⟩)), mark ":", statements])
  let default_ := Rule.node .switchDefault (seqs [word "default", mark ":", statements])
  .node .switchStatement (seqs [word "switch", condition,
    .field .body (.node .switchBody (seqs [mark "\x7b", .many (.alt case_ default_), mark "\x7d"]))])

def tryStatement : Grammar :=
  let catching := Rule.node .catchClause (seqs [word "catch",
    opt (seqs [mark "(", .field .parameter (.call .binding),
      opt (.call (.typeAscription none)), mark ")"]),
    .field .body (.call .block)])
  let finishing := Rule.node .finallyClause (.seq (word "finally") (.field .body (.call .block)))
  .node .tryStatement (seqs [word "try", .field .body (.call .block), opt catching, opt finishing,
    .unless (words ["catch", "finally"])])

/-- A jump to a label, or to the loop around it. -/
def jump (k : Kind) (text : String) : Grammar :=
  .node k (seqs [word text,
    opt (.seq (goesOn true false) (.field .label (.token (.name .statementLabel [])))),
    semicolon false])

def returnStatement : Grammar :=
  .node .returnStatement (.seq (word "return") (.alt
    (seqs [goesOn true false, .call (.expressions .trailing), semicolon true]) (semicolon false)))

def labeledStatement : Grammar :=
  .node .labeledStatement (seqs [
    .field .label (.token (.name .statementLabel (expressionWords ++ statementWords))), mark ":",
    body])

def expressionStatement : Grammar :=
  .node .expressionStatement (.seq (.call (.expressions .trailing)) (semicolon true))

/-- A statement, chosen by the word or mark it begins with. -/
def statementRule : Grammar :=
  .item (alts [
    .node .emptyStatement (mark ";"),
    .choose (.ahead (mark "\x7b")) (.call .block) (.unless .done),
    .choose (.ahead (words statementWords))
      (alts [ifStatement, forInStatement, forStatement,
        .node .whileStatement (seqs [word "while", condition, body]),
        .node .doStatement (seqs [word "do", body, word "while", condition,
          opt (semicolon false)]),
        switchStatement, tryStatement,
        .node .withStatement (seqs [word "with", .call .parenthesized, body]),
        jump .breakStatement "break", jump .continueStatement "continue",
        .node .debuggerStatement (.seq (word "debugger") (semicolon false)),
        returnStatement,
        .node .throwStatement (seqs [word "throw", .call (.expressions .trailing), semicolon true]),
        .call .declaration])
      (alts [
        .choose (.ahead (.seq (.many (.call .decorator)) (word "export")))
          (.call .exportStatement) (.unless .done),
        .choose (.ahead (word "import"))
          (.alt (.call .importStatement) importAlias) (.unless .done),
        .call .declaration,
        .choose (.ahead (.seq (.token (.name .statementLabel expressionWords)) (mark ":")))
          labeledStatement (.unless .done),
        .seq (.unless (alts [
            seqs [word "export", goesOn true true, .alt (mark "*") (word "as")],
            .seq (word "let") (mark "["),
            seqs [.many (.call .decorator), word "class", className],
            seqs [opt (.seq (word "async") (goesOn true true)), word "function", opt (mark "*"),
              anyName]]))
          expressionStatement])])

def programRule : Grammar :=
  .node .program (seqs [opt (.here .hashBang), .many (.call .statement), .finish])

end SourceAtlas.Syntax.Statements
