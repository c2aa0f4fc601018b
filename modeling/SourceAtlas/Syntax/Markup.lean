import SourceAtlas.Syntax.Expressions

/-!
Rules of markup inside expressions: elements, attributes, text and braces.
-/
namespace SourceAtlas.Syntax.Markup

open Rule Expressions

def markupName : Grammar :=
  .grow (.token .markupName) (alts [
    .wrap [] .memberExpression (some .object) (.seq (mark ".") (.token .markupName)),
    .wrap [.identifier] .nestedIdentifier none (.seq (mark ":") (.token .markupName))])

/-- An expression in braces; there may be none. -/
def braced : Grammar :=
  .node .markupExpression (seqs [mark "\x7b", opt (.alt spread (.call (.expressions .enclosed))),
    mark "\x7d"])

def markupAttribute : Grammar :=
  .alt braced
    (.node .markupAttribute (seqs [
      .grow (.token .markupName)
        (.wrap [.identifier] .nestedIdentifier none (.seq (mark ":") (.token .markupName))),
      opt (.seq (mark "=") (alts [.token .markupString, braced, .call .markupElement]))]))

/-- What stands between the tags of an element. -/
def child : Grammar :=
  alts [.here .markupText, .token .markupReference, .call .markupElement, braced]

def opening : Grammar :=
  .node .markupOpening (seqs [mark "<",
    opt (seqs [.field .name markupName, opt (.call .typeArguments), .many markupAttribute]), mark ">"])

def closing : Grammar :=
  .node .markupClosing (seqs [mark "<", mark "/", opt (.field .name markupName), mark ">"])

/-- An element: one tag that closes itself, or two tags whose
names need not agree. -/
def markupElementRule : Grammar :=
  .choose
    (.ahead (seqs [mark "<", markupName, opt (.call .typeArguments), .many markupAttribute, mark "/",
      mark ">"]))
    (.node .markupSelfClosing (seqs [mark "<", .field .name markupName,
      opt (.call .typeArguments), .many markupAttribute, mark "/", mark ">"]))
    (.node .markupElement (seqs [opening, .many child, closing]))

end SourceAtlas.Syntax.Markup
