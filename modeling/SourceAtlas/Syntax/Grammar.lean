import SourceAtlas.Syntax.Markup
import SourceAtlas.Syntax.Statements

/-!
The grammar as a whole: each phrase with its rule, and the reading of a source text.
-/
namespace SourceAtlas.Syntax

def grammar (dialect : Dialect) : Phrase → Grammar
  | .program => Statements.programRule
  | .statement => Statements.statementRule
  | .block => Statements.blockRule
  | .declaration => Declarations.declarationRule
  | .expressions s => Expressions.sequenceRule s
  | .expression s => Expressions.expressionRule s
  | .operand s => Expressions.operandRule dialect s
  | .primary s => Expressions.primaryRule s
  | .postfixed s => Expressions.postfixedRule s
  | .arrow s => Expressions.arrowRule s
  | .constructed s => Expressions.constructedRule s
  | .parenthesized => Expressions.parenthesizedRule
  | .object => Expressions.objectRule
  | .array => Expressions.arrayRule
  | .template => Expressions.templateRule
  | .arguments => Expressions.argumentsRule
  | .function => Expressions.functionRule
  | .classExpression => Declarations.classExpressionRule
  | .propertyName => Expressions.propertyNameRule
  | .method inClass => Declarations.methodRule inClass
  | .binding => Expressions.bindingRule
  | .target => Expressions.targetRule
  | .objectPattern => Expressions.objectPatternRule
  | .arrayPattern => Expressions.arrayPatternRule
  | .parameters => Expressions.parametersRule
  | .parameter => Expressions.parameterRule
  | .callSignature tail => Types.callSignatureRule tail
  | .arrowSignature => Expressions.arrowSignatureRule
  | .decorator => Declarations.decoratorRule
  | .classBody => Declarations.classBodyRule
  | .heritage => Declarations.heritageRule
  | .type tail => Types.typeRule tail
  | .typeOperand tail => Types.typeOperandRule tail
  | .typeQuery tail => Types.typeQueryRule tail
  | .objectType => .node .objectType Types.objectTypeBody
  | .typeArguments => Types.typeArgumentsRule
  | .typeParameters => Types.typeParametersRule
  | .typeAscription tail => Types.typeAscriptionRule tail
  | .resultType tail => Types.resultTypeRule tail
  | .exportStatement => Declarations.exportStatementRule
  | .importStatement => Declarations.importStatementRule
  | .classDeclaration => Declarations.classDeclarationRule
  | .functionDeclaration => Declarations.functionDeclarationRule
  | .markupElement => Markup.markupElementRule

/-- The syntax tree of a source text, or the line near which it stops being
one. The line is that of the innermost statement or member being read; where
the text ends too early, it is that of the last character that is not blank. -/
def parse (dialect : Dialect) (cs : List Char) : Except Nat Tree :=
  match (Rule.call Phrase.program).read (grammar dialect) cs with
  | .ok trees =>
    match trees.getLast? with
    | some tree => .ok tree
    | none => .ok (.mk (.phrase .program) none 0 0 [])
  | .error stuck =>
    let written := (cs.reverse.dropWhile isBlank).length
    .error ((Source.ofList cs).line (min stuck.origin (written - 1)))

end SourceAtlas.Syntax
