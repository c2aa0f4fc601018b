import SourceAtlas.Proofs.Outline.Traversal
import SourceAtlas.Proofs.Syntax.Comments

/-!
Comments say nothing: an outline stays what it is if comments are put into the tree, as long as they
are well placed. What single phrases say stays the same, then what looking at one tree gives, and
then what the whole traversal does.
-/
namespace SourceAtlas

open Syntax Text

namespace Outline

variable {src src' : Source} {inDecorator : Bool} {above : Label} {t t' : Tree}

/-- The expression of a decorator is still found among its children, since
comments are no named parts of it. -/
theorem decoratorExpression?_commented (hCommented : Commented src src' inDecorator t t') :
    Option.Rel (Matched src src' (inDecorator || t.isKind .decorator) t.label) (decoratorExpression? t)
      (decoratorExpression? t') := by
  have hFound := hCommented.named.find? (p := fun c => !c.isComment)
    (fun c c' hBoth => by rw [Tree.isComment, Tree.isComment, hBoth.commented.isKind])
    fun c hc => by simp [Tree.isComment_of_isRemark hc]
  exact rel_mono hFound fun c c' hBoth => hBoth.1

/-- A decorator keeps its name, which is found below its expression. -/
theorem decoratorName?_commented (hCommented : Commented src src' inDecorator t t') :
    decoratorName? src' t' = decoratorName? src t := by
  have hNaming : (decoratorNaming? t').map src'.text = (decoratorNaming? t).map src.text := by
    obtain ⟨hNone, hNone'⟩ | ⟨e, e', hSome, hSome', hExpression⟩ :=
      rel_outcome (decoratorExpression?_commented hCommented)
    · simp [decoratorNaming?, hNone, hNone']
    · simp only [decoratorNaming?, hSome, hSome', Option.bind_eq_bind, Option.bind_some, hExpression.commented.isKind]
      by_cases hIdentifier : e.isKind .identifier = true
      · simp [hIdentifier, hExpression.text_of_isKind hIdentifier]
      · obtain ⟨hNone, hNone'⟩ | ⟨f, f', hSome, hSome', hFunction, -⟩ :=
          rel_outcome (hExpression.commented.part? .function)
        · simp [hIdentifier, hNone, hNone']
        · simp only [hIdentifier, hSome, hSome', Option.filter_some, hFunction.commented.isKind]
          by_cases hName : f.isKind .identifier = true
          · simp [hName, hFunction.text_of_isKind hName]
          · simp [hName]
  rw [decoratorName?, decoratorName?, hNaming]

/-- A reference in a list keeps its name. -/
theorem referenceName?_matched (matched : Matched src src' true above t t') :
    referenceName? src' t' = referenceName? src t := by
  rw [referenceName?, referenceName?, matched.commented.isOneOf, matched.commented.isKind, matched.commented.isKind]
  by_cases hName : t.isOneOf [.identifier, .memberExpression] = true
  · have hQuoted : quoted true above t = true := by
      simp only [Tree.isOneOf, List.any_cons, List.any_nil, Bool.or_false, Bool.or_eq_true] at hName
      rcases hName with hName | hName <;> simp [quoted, Tree.isOneOf, hName]
    rw [if_pos hName, if_pos hName, matched.text hQuoted]
  rw [if_neg hName, if_neg hName]
  by_cases hString : t.isKind .string = true
  · rw [if_pos hString, if_pos hString, matched.text_of_isKind hString (by decide)]
  rw [if_neg hString, if_neg hString]
  have hFunction : (t'.part? .function).map src'.text = (t.part? .function).map src.text :=
    map_eq_of_rel (matched.commented.part? .function) fun f f' hBoth => hBoth.1.text (by simp [quoted, hBoth.2])
  rw [hFunction]

theorem referenceName?_remark (src : Source) (hRemark : t.isRemark = true) : referenceName? src t = none := by
  simp [referenceName?, Tree.isOneOf, Tree.isKind, (Tree.isRemark_iff.mp hRemark).1]

/-- The references of a property's value are the same list, because comments
in between give none. -/
theorem referenceNames_matched (matched : Matched src src' true above t t') :
    referenceNames src' t' = referenceNames src t := by
  rw [referenceNames, referenceNames, matched.commented.isKind]
  split
  · rw [matched.commented.named.filterMap_eq (fun c c' hBoth => referenceName?_matched hBoth)
      fun c hc => referenceName?_remark src' hc]
  · rw [List.filterMap_cons, List.filterMap_cons, referenceName?_matched matched]
    rfl

/-- A property of the literal says the same about the decorator. -/
theorem readProperty_matched (matched : Matched src src' true above t t') (d : Decoration) :
    readProperty src' d t' = readProperty src d t := by
  obtain ⟨hNone, hNone'⟩ | ⟨k, k', hSome, hSome', hKey, hField⟩ := rel_outcome (matched.commented.part? .key)
  · rw [readProperty, readProperty, hNone, hNone']
  obtain ⟨hNone, hNone'⟩ | ⟨v, v', hValue, hValue', hBoth, -⟩ := rel_outcome (matched.commented.part? .value)
  · rw [readProperty, readProperty, hNone, hNone', hSome, hSome']
  · have hText : (if v.isKind .string then some (unquoted (src'.text v')) else none) =
        if v.isKind .string then some (unquoted (src.text v)) else none := by
      split
      · next hString => rw [hBoth.text_of_isKind hString (by decide)]
      · rfl
    rw [readProperty, readProperty, hSome, hSome', hValue, hValue']
    simp only [hBoth.commented.isKind, hText, referenceNames_matched hBoth, hKey.commented.isKind,
      hKey.text (by simp [quoted, hField])]

def argument? (t : Tree) : Option Tree := do
  let e ← decoratorExpression? t
  if e.isKind .callExpression then
    let arguments ← e.part? .arguments
    arguments.named.head?
  else none

/-- What a decorator says of which only the name is known. -/
def decorationNamed (name : Text) : Decoration :=
  ⟨name, none, none, [], none, none, none, [], [], [], []⟩

/-- What a decorator says is read from its first argument, if
that is an object literal. The statement separates finding the
argument from reading it. -/
theorem decorationOf_eq (src : Source) (t : Tree) (name : Text) : decorationOf src t name =
    match argument? t with
    | some object =>
      if object.isKind .object then
        (object.named.filter (·.isKind .pair)).foldl (readProperty src) (decorationNamed name)
      else decorationNamed name
    | none => decorationNamed name := rfl

/-- The first argument stays the first one. This is where a comment put
before the arguments would do harm, so none may stand there. -/
theorem argument?_commented (hCommented : Commented src src' inDecorator t t')
    (hDecorator : t.isKind .decorator = true) :
    Option.Rel (Commented src src' true) (argument? t) (argument? t') := by
  obtain ⟨hNone, hNone'⟩ | ⟨e, e', hSome, hSome', hExpression⟩ :=
    rel_outcome (decoratorExpression?_commented hCommented)
  · rw [argument?, argument?, hNone, hNone']
    exact .none
  rw [hDecorator, Bool.or_true] at hExpression
  simp only [argument?, hSome, hSome', Option.bind_eq_bind, Option.bind_some, hExpression.commented.isKind]
  split
  · obtain ⟨hNone, hNone'⟩ | ⟨a, a', hSome, hSome', hArguments, hField⟩ :=
      rel_outcome (hExpression.commented.part? .arguments)
    · rw [hNone, hNone']
      exact .none
    · rw [Bool.true_or] at hArguments
      rw [hSome, hSome', Option.bind_some, Option.bind_some]
      have hFirst := hArguments.commented.firstPhrase (by simp [hField])
      exact rel_mono hFirst fun c c' hBoth => hBoth.commented
  · exact .none

/-- A decorator says the same with comments put into it, as long as none
comes before its arguments. -/
theorem decorationOf_commented (hCommented : Commented src src' inDecorator t t')
    (hDecorator : t.isKind .decorator = true) (name : Text) :
    decorationOf src' t' name = decorationOf src t name := by
  rw [decorationOf_eq, decorationOf_eq]
  obtain ⟨hNone, hNone'⟩ | ⟨o, o', hSome, hSome', hObject⟩ := rel_outcome (argument?_commented hCommented hDecorator)
  · rw [hNone, hNone']
  · simp only [hSome, hSome', hObject.isKind]
    split
    · have hPairs := hObject.named.ofKind (k := .pair) (by decide)
      exact foldl_eq_of_forall₂ hPairs (fun c c' hBoth d => readProperty_matched hBoth.1 d) _
    · rfl

/-- Where a comment comes first, nothing that the arguments say is read. -/
theorem decorationOf_comment_first {e a : Tree} (hExpression : decoratorExpression? t = some e)
    (hArguments : e.part? .arguments = some a) (hComment : a.named.head?.any Tree.isComment = true) (name : Text) :
    decorationOf src t name = decorationNamed name := by
  have hArgument : argument? t = if e.isKind .callExpression then a.named.head? else none := by
    simp [argument?, hExpression, hArguments]
  rw [decorationOf_eq, hArgument]
  split
  · next object hFound =>
    split at hFound
    · rw [hFound, Option.any_some] at hComment
      have hLabel : object.label = .phrase .comment := by simpa [Tree.isComment, Tree.isKind] using hComment
      rw [if_neg (by simp [Tree.isKind, hLabel])]
    · cases hFound
  · rfl

/-- The text of a name that is bound is taken from one tree. A declarator is
left out, the text of which may have comments inside. -/
theorem bindingText_commented (hCommented : Commented src src' inDecorator t t')
    (hLabel : t.label ≠ .phrase .variableDeclarator) : bindingText src' t' = bindingText src t := by
  have hText {f : Field} (hQuoted : f ∈ [Field.name, .alias, .source]) :
      Option.Rel (fun c c' => src'.text c' = src.text c) (t.part? f) (t'.part? f) :=
    rel_mono (hCommented.part? f) fun c c' hBoth => hBoth.1.text_of_field hBoth.2 hQuoted hLabel
  have hBound := rel_orElse (hText (f := .alias) (by decide)) (hText (f := .name) (by decide))
  rw [bindingText, bindingText, map_eq_of_rel hBound fun c c' hBoth => hBoth]

/-- A part of an import clause binds the same names. -/
theorem clauseBindings_matched (matched : Matched src src' inDecorator above t t') :
    clauseBindings src' t' = clauseBindings src t := by
  rw [clauseBindings, clauseBindings, matched.commented.isKind, matched.commented.isKind, matched.commented.isKind]
  split
  · next hIdentifier => rw [matched.text_of_isKind hIdentifier (by decide)]
  split
  · have hName : (t'.child? .identifier).map src'.text = (t.child? .identifier).map src.text :=
      map_eq_of_rel (matched.commented.child? (by decide)) fun c c' hBoth => hBoth.1.text_of_isKind hBoth.2 (by decide)
    rw [hName]
  split
  · have hSpecifiers := map_eq_of_forall₂ (matched.commented.named.ofKind (k := .importSpecifier) (by decide))
      fun c c' hBoth => bindingText_commented hBoth.1.commented (by simp [hBoth.2])
    rw [hSpecifiers]
  · rfl

theorem clauseBindings_remark (src : Source) (hRemark : t.isRemark = true) : clauseBindings src t = none := by
  simp [clauseBindings, Tree.isKind, (Tree.isRemark_iff.mp hRemark).1]

/-- An import binds the same names, listed in one order. -/
theorem importBindings_commented (hCommented : Commented src src' inDecorator t t') :
    importBindings src' t' = importBindings src t := by
  obtain ⟨hNone, hNone'⟩ | ⟨c, c', hSome, hSome', hClause, -⟩ :=
    rel_outcome (hCommented.child? (k := .importClause) (by decide))
  · rw [importBindings, importBindings, hNone, hNone']
    obtain ⟨hNone, hNone'⟩ | ⟨c, c', hSome, hSome', hClause, -⟩ :=
      rel_outcome (hCommented.child? (k := .importRequireClause) (by decide))
    · rw [hNone, hNone']
    · rw [hSome, hSome']
      dsimp only
      have hName : (c'.child? .identifier).map src'.text = (c.child? .identifier).map src.text :=
        map_eq_of_rel (hClause.commented.child? (by decide)) fun d d' hBoth =>
          hBoth.1.text_of_isKind hBoth.2 (by decide)
      rw [hName]
  · rw [importBindings, importBindings, hSome, hSome']
    dsimp only
    rw [hClause.commented.named.filterMap_eq (fun d d' hBoth => clauseBindings_matched hBoth)
      fun d hd => clauseBindings_remark src' hd]

/-- The literal that says what is imported is still there,
with the same text. -/
theorem importSource?_commented (hCommented : Commented src src' inDecorator t t')
    (hKind : t.label = .phrase .importStatement) :
    Option.Rel (fun s s' => src'.text s' = src.text s) (importSource? t) (importSource? t') := by
  have hString {d : Bool} {c c' : Tree} (hCommented : Commented src src' d c c') :
      Option.Rel (fun s s' => src'.text s' = src.text s) (c.child? .string) (c'.child? .string) :=
    rel_mono (hCommented.child? (by decide)) fun s s' hBoth => hBoth.1.text_of_isKind hBoth.2 (by decide)
  have hSource {d : Bool} {c c' : Tree} (hCommented : Commented src src' d c c')
      (hLabel : c.label ≠ .phrase .variableDeclarator) :
      Option.Rel (fun s s' => src'.text s' = src.text s) (c.part? .source) (c'.part? .source) :=
    rel_mono (hCommented.part? .source) fun s s' hBoth => hBoth.1.text_of_field hBoth.2 (by decide) hLabel
  refine rel_orElse (hSource hCommented (by simp [hKind])) ?_
  obtain ⟨hNone, hNone'⟩ | ⟨c, c', hSome, hSome', hClause, hRequire⟩ :=
    rel_outcome (hCommented.child? (k := .importRequireClause) (by decide))
  · rw [hNone, hNone']
    exact hString hCommented
  · rw [hSome, hSome']
    have hLabel : c.label = .phrase .importRequireClause := by simpa [Tree.isKind] using hRequire
    exact rel_orElse (hSource hClause.commented (by simp [hLabel])) (hString hClause.commented)

theorem exportKind?_commented (hCommented : Commented src src' inDecorator t t') : exportKind? t' = exportKind? t := by
  simp only [exportKind?, hCommented.isKind, hCommented.isOneOf]

/-- The variables that a declaration exports are found among its
declarators. -/
theorem variableExports_commented (hCommented : Commented src src' inDecorator t t') :
    variableExports src' t' = variableExports src t := by
  have hDeclarators := hCommented.named.ofKind (k := .variableDeclarator) (by decide)
  refine (Interspersed.of_forall₂ hDeclarators).filterMap_eq (fun c c' hBoth => ?_) nofun
  obtain ⟨hNone, hNone'⟩ | ⟨n, n', hSome, hSome', hName, -⟩ := rel_outcome (hBoth.1.commented.part? .name)
  · simp [hNone, hNone']
  · simp only [hSome, hSome', Option.bind_eq_bind, Option.bind_some, hName.commented.isKind]
    split
    · next hIdentifier => rw [hName.text_of_isKind hIdentifier (by decide)]
    · rfl

/-- Exports by the first declaration in a list, which is the first tree of
it with a name in the grammar. -/
theorem firstExports_eq (src : Source) (ts : List Tree) :
    firstExports src ts = ((ts.filter Tree.isNamed).head?.map (declaredExports src)).getD [] := by
  induction ts with
  | nil => rfl
  | cons t ts ih =>
      rw [firstExports, List.filter_cons]
      split
      · rfl
      · exact ih

/-- The names that a declaration exports. Of an ambient declaration its
first phrase counts. -/
theorem declaredExports_eq (src : Source) (t : Tree) : declaredExports src t =
    if t.isKind .ambientDeclaration then (t.named.head?.map (declaredExports src)).getD []
    else if t.isOneOf [.lexicalDeclaration, .variableDeclaration] then variableExports src t
    else
      match exportKind? t, t.part? .name with
      | some kind, some name => [⟨src.text name, kind⟩]
      | _, _ => [] := by
  cases t with
  | mk label field start stop children =>
      rw [declaredExports, firstExports_eq]
      rfl

theorem exportKind?_variable (hLabel : t.label = .phrase .variableDeclarator) : exportKind? t = none := by
  simp [exportKind?, Tree.isOneOf, Tree.isKind, hLabel]

theorem size_named_lt {c : Tree} (hc : c ∈ t.named) : c.size < t.size := by
  have hSize := size_le_of_mem (List.mem_of_mem_filter hc)
  cases t with
  | mk label field start stop children =>
      rw [Tree.size]
      exact Nat.lt_one_add_iff.mpr hSize

/-- A declaration exports the same. The recursion goes through ambient
declarations, so it is on the size of the tree. -/
theorem declaredExports_commented {d : Bool} {u u' : Tree} (hCommented : Commented src src' d u u') :
    declaredExports src' u' = declaredExports src u := by
  rw [declaredExports_eq, declaredExports_eq, hCommented.isKind, hCommented.isOneOf, exportKind?_commented hCommented,
    variableExports_commented hCommented]
  by_cases hAmbient : u.isKind .ambientDeclaration = true
  · rw [if_pos hAmbient, if_pos hAmbient]
    obtain ⟨hNone, hNone'⟩ | ⟨c, c', hSome, hSome', hBoth⟩ := rel_outcome (hCommented.firstPhrase (by simp [hAmbient]))
    · rw [hNone, hNone']
      rfl
    · have hSmaller : c.size < u.size := size_named_lt (List.mem_of_head? hSome)
      rw [hSome, hSome', Option.map_some, Option.map_some, declaredExports_commented hBoth.commented]
  rw [if_neg hAmbient, if_neg hAmbient]
  split
  · rfl
  · cases hKind : exportKind? u with
    | none => rfl
    | some kind =>
        obtain ⟨hNone, hNone'⟩ | ⟨n, n', hSome, hSome', hName, hField⟩ := rel_outcome (hCommented.part? .name)
        · rw [hNone, hNone']
        · have hOther : u.label ≠ .phrase .variableDeclarator := by
            intro hVariable
            rw [exportKind?_variable hVariable] at hKind
            cases hKind
          rw [hSome, hSome']
          dsimp only
          rw [hName.text_of_field hField (by decide) hOther]
termination_by u.size

/-- A class implements the same interfaces. -/
theorem implementedNames_commented (hCommented : Commented src src' inDecorator t t')
    (hKind : t.label = .phrase .implementsClause) : implementedNames src' t' = implementedNames src t := by
  have hTypes := hCommented.types (by simp [Tree.isKind, hKind])
  refine map_eq_of_forall₂ hTypes fun c c' hBoth => ?_
  rw [hKind] at hBoth
  rw [hBoth.commented.isKind]
  split
  · next hGeneric =>
    have hLabel : c.label = .phrase .genericType := by simpa [Tree.isKind] using hGeneric
    obtain ⟨hNone, hNone'⟩ | ⟨n, n', hSome, hSome', hName, hField⟩ := rel_outcome (hBoth.commented.part? .name)
    · rw [hNone, hNone', Option.getD_none, Option.getD_none, hBoth.text (by simp [quoted, hNone])]
    · rw [hSome, hSome', Option.getD_some, Option.getD_some, hName.text_of_field hField (by decide) (by simp [hLabel])]
  · next hOther => rw [hBoth.text (by simp [quoted, hOther])]

/-- What a class extends and implements is the same. -/
theorem heritage_commented (hCommented : Commented src src' inDecorator t t') :
    heritage src' t' = heritage src t := by
  obtain ⟨hNone, hNone'⟩ | ⟨h, h', hSome, hSome', hHeritage, -⟩ :=
    rel_outcome (hCommented.child? (k := .classHeritage) (by decide))
  · rw [heritage, heritage, hNone, hNone']
  rw [heritage, heritage, hSome, hSome']
  dsimp only
  have hClauses := hHeritage.commented.named
  have hImplements : (h'.named.filter (·.isKind .implementsClause)).flatMap (implementedNames src') =
      (h.named.filter (·.isKind .implementsClause)).flatMap (implementedNames src) :=
    (Interspersed.of_forall₂ (hClauses.ofKind (by decide))).flatMap_eq
      (fun c _ c' hBoth => implementedNames_commented hBoth.1.commented hBoth.2) nofun
  have hBases : ((h'.named.filter (·.isKind .extendsClause)).filterMap fun c => (c.part? .value).map src'.text) =
      (h.named.filter (·.isKind .extendsClause)).filterMap fun c => (c.part? .value).map src.text := by
    refine (Interspersed.of_forall₂ (hClauses.ofKind (by decide))).filterMap_eq
      (fun c c' hBoth => ?_) nofun
    exact map_eq_of_rel (hBoth.1.commented.part? .value) fun b b' hBase =>
      hBase.1.text (by simp [quoted, hBoth.2, hBase.2])
  rw [hImplements, ← List.getLast?_map, ← List.getLast?_map, List.map_filterMap, List.map_filterMap, hBases]

/-- A function has as many parameters, since a comment among them
is counted as none. -/
theorem parameterCount_commented (hCommented : Commented src src' inDecorator t t') :
    parameterCount t' = parameterCount t := by
  obtain ⟨hNone, hNone'⟩ | ⟨p, p', hSome, hSome', hParameters, -⟩ := rel_outcome (hCommented.part? .parameters)
  · rw [parameterCount, parameterCount, hNone, hNone']
    obtain ⟨hNone, hNone'⟩ | ⟨p, p', hSome, hSome', -⟩ := rel_outcome (hCommented.part? .parameter)
    · rw [hNone, hNone']
    · rw [hSome, hSome']
      rfl
  · rw [parameterCount, parameterCount, hSome, hSome']
    exact (hParameters.commented.named.ofKinds (by decide)).length_eq.symm

/-- A site, and the same site with comments put into its tree. -/
structure SiteCommented (src src' : Source) (s s' : Site) : Prop where
  tree : Commented src src' false s.tree s'.tree
  inClassBody : s'.inClassBody = s.inClassBody

/-- What is looked at next, and the same with comments put
in, in between too. -/
def SitesCommented (src src' : Source) (next next' : List Site) : Prop :=
  Interspersed (fun s => s.tree.isRemark = true) (SiteCommented src src') next next'

/-- What is found at a tree, and at the same tree with comments put in. -/
structure Alike (src src' : Source) (looked looked' : List Finding × List Site) : Prop where
  findings : looked'.1 = looked.1
  next : SitesCommented src src' looked.2 looked'.2

/-- Parts that correspond are looked at as sites that correspond. -/
theorem sites_commented {parts parts' : List (Option Tree)}
    (hParts : List.Forall₂ (Option.Rel (Commented src src' false)) parts parts') :
    SitesCommented src src' (sites parts) (sites parts') := by
  induction hParts with
  | nil => exact .nil
  | cons hFirst _ ih =>
      cases hFirst with
      | none => exact ih
      | some hBoth => exact .cons ⟨hBoth, rfl⟩ ih

/-- Trees of other kinds than decorators are no decorators. -/
theorem not_decorator {k : Kind} (hLabel : t.label = .phrase k) (hKind : k ≠ .decorator) :
    t.isKind .decorator = false := by
  simpa [Tree.isKind, hLabel] using hKind

section Looking

variable (hCommented : Commented src src' false t t')

include hCommented

/-- A phrase keeps its line. Comments are put in so that none is moved to
another line. -/
theorem lineOf_commented : lineOf src' t' = lineOf src t := hCommented.line

/-- Outside of decorators a part is found by its field,
which no comment has. -/
theorem part?_outside (hOutside : t.isKind .decorator = false) (f : Field) :
    Option.Rel (Commented src src' false) (t.part? f) (t'.part? f) :=
  rel_mono (hCommented.part? f) fun c c' hBoth => by simpa [hOutside] using hBoth.1.commented

/-- The parameters and the body of a function correspond, and nothing else
in it is looked at. -/
theorem signatureSites_commented (hOutside : t.isKind .decorator = false) :
    SitesCommented src src' (signatureSites t) (signatureSites t') :=
  sites_commented (.cons (part?_outside hCommented hOutside _) (.cons (part?_outside hCommented hOutside _) .nil))

theorem name_commented (hLabel : t.label ≠ .phrase .variableDeclarator) :
    Option.Rel (fun n n' => src'.text n' = src.text n) (t.part? .name) (t'.part? .name) :=
  rel_mono (hCommented.part? .name) fun n n' hBoth => hBoth.1.text_of_field hBoth.2 (by decide) hLabel

/-- The decorators of a phrase correspond one by one. -/
theorem decoratorsOf_commented (hOutside : t.isKind .decorator = false) :
    List.Forall₂ (fun d d' => Commented src src' false d d' ∧ d.isKind .decorator = true) (decoratorsOf t)
      (decoratorsOf t') := by
  refine (hCommented.children.ofKind (k := .decorator) (by decide)).imp fun d d' hBoth => ?_
  have hTree := hBoth.1.commented
  rw [hOutside, Bool.or_false] at hTree
  exact ⟨hTree, by simp [Tree.isKind, hBoth.2]⟩

/-- An import statement gives one finding, made of its source, its names and
its line, none of which changes. -/
theorem lookImport_commented (hLabel : t.label = .phrase .importStatement) :
    Alike src src' (lookImport src t) (lookImport src' t') := by
  rw [lookImport, lookImport, importBindings_commented hCommented, lineOf_commented hCommented]
  obtain ⟨hNone, hNone'⟩ | ⟨s, s', hSome, hSome', hText⟩ := rel_outcome (importSource?_commented hCommented hLabel)
  · rw [hNone, hNone']
    exact ⟨rfl, .nil⟩
  · rw [hSome, hSome']
    exact ⟨by simp only [hText], .nil⟩

/-- A class gives the same findings and is gone on with in its body. The
decorators from outside, of an export around it, are given in both forms. -/
theorem lookClass_commented {outer outer' : List Tree} {k : Kind} (hLabel : t.label = .phrase k)
    (hKind : k ∈ classKinds)
    (hOuter : List.Forall₂ (fun d d' => Commented src src' false d d' ∧ d.isKind .decorator = true) outer outer') :
    Alike src src' (lookClass src outer t) (lookClass src' outer' t') := by
  have hOutside := not_decorator hLabel (by rintro rfl; revert hKind; decide)
  have hAll := List.rel_append hOuter (decoratorsOf_commented hCommented hOutside)
  have hMembers := Interspersed.of_forall₂ hAll
  have hNames : (outer' ++ decoratorsOf t').filterMap (decoratorName? src') =
      (outer ++ decoratorsOf t).filterMap (decoratorName? src) :=
    hMembers.filterMap_eq (fun d d' hBoth => decoratorName?_commented hBoth.1) nofun
  have hDecoration : ((outer' ++ decoratorsOf t').findSome? fun d => (decoratorName? src' d).bind fun name =>
        if roleDecorators.contains name then some (decorationOf src' d name) else none) =
      (outer ++ decoratorsOf t).findSome? fun d => (decoratorName? src d).bind fun name =>
        if roleDecorators.contains name then some (decorationOf src d name) else none := by
    rw [← List.head?_filterMap, ← List.head?_filterMap]
    congr 1
    refine hMembers.filterMap_eq (fun d d' hBoth => ?_) nofun
    simp only [decoratorName?_commented hBoth.1, decorationOf_commented hBoth.1 hBoth.2]
  have hName := name_commented hCommented (by rw [hLabel]; rintro ⟨rfl⟩; revert hKind; decide)
  constructor
  · simp only [lookClass, Option.bind_eq_bind, hNames, hDecoration, heritage_commented hCommented,
      lineOf_commented hCommented]
    obtain ⟨hNone, hNone'⟩ | ⟨n, n', hSome, hSome', hText⟩ := rel_outcome hName
    · rw [hNone, hNone']
    · simp only [hSome, hSome', hText]
  · exact sites_commented (.cons (part?_outside hCommented hOutside _) .nil)

theorem clauseExports_commented : clauseExports src' t' = clauseExports src t := by
  have hSource : (t'.part? .source).isSome = (t.part? .source).isSome := by
    obtain ⟨hNone, hNone'⟩ | ⟨s, s', hSome, hSome', -⟩ := rel_outcome (hCommented.part? .source)
    · rw [hNone, hNone']
    · rw [hSome, hSome']
      rfl
  obtain ⟨hNone, hNone'⟩ | ⟨c, c', hSome, hSome', hClause, -⟩ :=
    rel_outcome (hCommented.child? (k := .exportClause) (by decide))
  · have hName : ((t'.child? .namespaceExport).bind (·.named.getLast?)).map src'.text =
        ((t.child? .namespaceExport).bind (·.named.getLast?)).map src.text := by
      obtain ⟨hNone, hNone'⟩ | ⟨n, n', hSome, hSome', hBoth, hKind⟩ :=
        rel_outcome (hCommented.child? (k := .namespaceExport) (by decide))
      · rw [hNone, hNone']
        rfl
      · have hLabel : n.label = .phrase .namespaceExport := by simpa [Tree.isKind] using hKind
        have hLast := hBoth.commented.lastPhrase hKind
        rw [hSome, hSome', Option.bind_some, Option.bind_some]
        exact map_eq_of_rel hLast fun c c' hQuoted => hQuoted.text (by simp [quoted, hLabel])
    simp only [clauseExports, hNone, hNone', hSource, hName]
  · have hSpecifiers (kind : ExportKind) : ((c'.named.filter (·.isKind .exportSpecifier)).map fun s =>
          Export.mk (unquoted (bindingText src' s)) kind) =
        (c.named.filter (·.isKind .exportSpecifier)).map fun s => ⟨unquoted (bindingText src s), kind⟩ :=
      map_eq_of_forall₂ (hClause.commented.named.ofKind (by decide)) fun s s' hBoth => by
        rw [bindingText_commented hBoth.1.commented (by simp [hBoth.2])]
    simp only [clauseExports, hSome, hSome', hSource, hSpecifiers]

/-- An export gives the same whether it declares something or lists names. -/
theorem lookExport_commented (hLabel : t.label = .phrase .exportStatement) :
    Alike src src' (lookExport src t) (lookExport src' t') := by
  have hOutside := not_decorator hLabel (by decide)
  have hDecorators := decoratorsOf_commented hCommented hOutside
  have hAnnotations : (decoratorsOf t').flatMap (decoratorFinding src') =
      (decoratorsOf t).flatMap (decoratorFinding src) :=
    (Interspersed.of_forall₂ hDecorators).flatMap_eq
      (fun d _ d' hBoth => by rw [decoratorFinding, decoratorFinding, decoratorName?_commented hBoth.1]) nofun
  obtain ⟨hNone, hNone'⟩ | ⟨d, d', hSome, hSome', hDeclaration⟩ :=
    rel_outcome (part?_outside hCommented hOutside .declaration)
  · obtain ⟨hValue, hValue'⟩ | ⟨v, v', hValue, hValue', hBoth⟩ :=
      rel_outcome (part?_outside hCommented hOutside .value)
    · rw [lookExport, lookExport, hNone, hNone', hValue, hValue']
      exact ⟨by simp only [hAnnotations, clauseExports_commented hCommented], .nil⟩
    · rw [lookExport, lookExport, hNone, hNone', hValue, hValue']
      exact ⟨by simp only [hAnnotations], sites_commented (.cons (.some hBoth) .nil)⟩
  · have hExports := declaredExports_commented hDeclaration
    have hSame : d'.isOneOf classKinds = d.isOneOf classKinds := hDeclaration.isOneOf _
    cases hClass : d.isOneOf classKinds with
    | true =>
        obtain ⟨k, hk, hKind⟩ := List.any_eq_true.mp hClass
        have hLooked := lookClass_commented hDeclaration (by simpa [Tree.isKind] using hKind) hk hDecorators
        rw [lookExport_class hSome hClass, lookExport_class hSome' (hSame.trans hClass)]
        exact ⟨by rw [hExports, hLooked.findings], hLooked.next⟩
    | false =>
        rw [lookExport_other hSome hClass, lookExport_other hSome' (hSame.trans hClass)]
        exact ⟨by rw [hExports, hAnnotations], sites_commented (.cons (.some hDeclaration) .nil)⟩

/-- A function is listed with its name, its kind, its line and how many
parameters it has. -/
theorem listFunction_commented (hOutside : t.isKind .decorator = false) {u u' : Tree}
    (hLine : lineOf src' u' = lineOf src u) (name : Text) (kind : FunctionKind) :
    Alike src src' (listFunction src name kind u t) (listFunction src' name kind u' t') := by
  rw [listFunction, listFunction, parameterCount_commented hCommented, hCommented.hasToken, hLine]
  exact ⟨rfl, signatureSites_commented hCommented hOutside⟩

/-- A function declaration gives the same. -/
theorem lookFunction_commented {k : Kind} (hLabel : t.label = .phrase k) (hOther : k ≠ .variableDeclarator)
    (hKind : k ≠ .decorator) : Alike src src' (lookFunction src t) (lookFunction src' t') := by
  have hOutside := not_decorator hLabel hKind
  rw [lookFunction, lookFunction]
  obtain ⟨hNone, hNone'⟩ | ⟨n, n', hSome, hSome', hText⟩ :=
    rel_outcome (name_commented hCommented (by simpa [hLabel] using hOther))
  · rw [hNone, hNone']
    exact ⟨rfl, signatureSites_commented hCommented hOutside⟩
  · rw [hSome, hSome']
    dsimp only
    rw [hText]
    exact listFunction_commented hCommented hOutside (lineOf_commented hCommented) _ _

/-- So does a method, whether or not it stands in the body of a class. -/
theorem lookMethod_commented (hLabel : t.label = .phrase .methodDefinition) (inClassBody : Bool) :
    Alike src src' (lookMethod src inClassBody t) (lookMethod src' inClassBody t') := by
  have hOutside := not_decorator hLabel (by decide)
  have hName : (t'.part? .name).map src'.text = (t.part? .name).map src.text :=
    map_eq_of_rel (name_commented hCommented (by simp [hLabel])) fun n n' hBoth => hBoth
  rw [lookMethod, lookMethod]
  cases inClassBody with
  | false => exact ⟨rfl, signatureSites_commented hCommented hOutside⟩
  | true =>
      simp only [hName, methodKind, hCommented.hasToken]
      exact listFunction_commented hCommented hOutside (lineOf_commented hCommented) _ _

/-- So does a declarator, if its value is a function. -/
theorem lookVariable_commented (hLabel : t.label = .phrase .variableDeclarator) :
    Alike src src' (lookVariable src t) (lookVariable src' t') := by
  have hOutside := not_decorator hLabel (by decide)
  have hLine := lineOf_commented hCommented
  rw [lookVariable, lookVariable]
  obtain ⟨hNone, hNone'⟩ | ⟨v, v', hSome, hSome', hValue⟩ :=
    rel_outcome (part?_outside hCommented hOutside .value)
  · rw [hNone, hNone']
    exact ⟨rfl, .nil⟩
  rw [hSome, hSome']
  dsimp only
  have hPassed : SitesCommented src src' (sites [some v]) (sites [some v']) :=
    sites_commented (.cons (.some hValue) .nil)
  obtain ⟨hNone, hNone'⟩ | ⟨n, n', hSome, hSome', hName, -⟩ := rel_outcome (hCommented.part? .name)
  · rw [hNone, hNone']
    exact ⟨rfl, hPassed⟩
  rw [hSome, hSome']
  simp only [hName.commented.isKind, hValue.isKind]
  split
  · next hArrow =>
    obtain ⟨hIdentifier, hKind⟩ := (Bool.and_eq_true _ _).mp hArrow
    rw [hName.text_of_isKind hIdentifier (by decide)]
    exact listFunction_commented hValue (not_decorator (by simpa [Tree.isKind] using hKind) (by decide)) hLine _ _
  split
  · next hFunction =>
    obtain ⟨hIdentifier, hKind⟩ := (Bool.and_eq_true _ _).mp hFunction
    rw [hName.text_of_isKind hIdentifier (by decide)]
    exact listFunction_commented hValue (not_decorator (by simpa [Tree.isKind] using hKind) (by decide)) hLine _ _
  · exact ⟨rfl, hPassed⟩

end Looking

/-- Looking at a tree gives what it gives with comments put in. -/
theorem look_commented {s s' : Site} (hBoth : SiteCommented src src' s s') :
    Alike src src' (look src s) (look src' s') := by
  obtain ⟨t, inClassBody⟩ := s
  obtain ⟨t', inClassBody'⟩ := s'
  obtain ⟨hCommented, hSame⟩ := hBoth
  dsimp only at hCommented hSame
  subst hSame
  rw [look, look]
  dsimp only
  rw [hCommented.label]
  split
  case h_1 hLabel => exact lookImport_commented hCommented hLabel
  case h_2 hLabel => exact lookExport_commented hCommented hLabel
  case h_3 hLabel | h_4 hLabel | h_5 hLabel => exact lookClass_commented hCommented hLabel (by decide) .nil
  case h_6 hLabel | h_7 hLabel => exact lookFunction_commented hCommented hLabel (by decide) (by decide)
  case h_8 hLabel => exact lookMethod_commented hCommented hLabel _
  case h_9 hLabel => exact lookVariable_commented hCommented hLabel
  case h_10 hLabel =>
    rw [decoratorFinding, decoratorFinding, decoratorName?_commented hCommented]
    exact ⟨rfl, .nil⟩
  case h_11 hDecorator =>
    have hOutside : t.isKind .decorator = false := by simpa [Tree.isKind] using hDecorator
    refine ⟨rfl, ?_⟩
    rw [hCommented.isKind]
    refine hCommented.children.map (fun c c' hChild => ⟨?_, rfl⟩) fun c hc => hc
    simpa [hOutside] using hChild.commented

def findings (src : Source) (s : Site) : List Finding := (entered src s).flatMap fun s => (look src s).1

/-- All that is found from a site on: what the tree itself gives, then what
is found from the sites inside, from left to right. -/
theorem findings_eq (src : Source) (s : Site) :
    findings src s = (look src s).1 ++ (look src s).2.flatMap (findings src) := by
  rw [findings, entered_eq, List.flatMap_cons, List.flatMap_assoc]
  rfl

/-- Nothing is found in a comment. -/
theorem findings_remark (src : Source) {s : Site} (hRemark : s.tree.isRemark = true) : findings src s = [] := by
  obtain ⟨hLabel, -, hChildren⟩ := Tree.isRemark_iff.mp hRemark
  have hLook : look src s = ([], []) := by
    rw [look, hLabel, hChildren]
    rfl
  rw [findings_eq, hLook]
  rfl

/-- The traversal finds the same with comments put in, step by step. -/
theorem findings_commented (s : Site) : ∀ s', SiteCommented src src' s s' → findings src' s' = findings src s := by
  induction s using visit_induction src with
  | hStep s ih =>
      intro s' hBoth
      obtain ⟨hFindings, hNext⟩ := look_commented hBoth
      have hInside := hNext.flatMap_eq (fun u hu u' hSame => ih u hu u' hSame) fun u hu => findings_remark src' hu
      rw [findings_eq, findings_eq, hFindings, hInside]

/-- The outline is the same. Findings of trees that correspond are equal, by
induction on how the tree is walked. -/
theorem ofTree_commented (hCommented : Commented src src' false t t') : ofTree src' t' = ofTree src t := by
  rw [ofTree_eq, ofTree_eq]
  exact congrArg ofFindings (findings_commented ⟨t, false⟩ ⟨t', false⟩ ⟨hCommented, rfl⟩)

/-- What comments leave as it is. -/
structure Undisturbed (src src' : Source) (t t' : Tree) : Prop where
  /-- The outline of the tree, -/
  outline : ofTree src' t' = ofTree src t
  /-- and the record of a file with this source, but for the number of its lines. -/
  recorded : ∀ (w : World) (path root : Path) (extensions : List Text) (bytes bytes' : List UInt8)
    (cs cs' : List Char), Utf8.decode (Utf8.dropMark bytes) = .ok cs → src = Source.ofList cs →
      parse (Extraction.dialectOf path) cs = .ok t → Utf8.decode (Utf8.dropMark bytes') = .ok cs' →
        src' = Source.ofList cs' → parse (Extraction.dialectOf path) cs' = .ok t' →
          Extraction.record w path root extensions bytes' = (Extraction.record w path root extensions bytes).map
            fun r => { r with lineCount := cs'.count '\n' + 1 }

/-- The reading of a source that is a tree. -/
theorem read_eq {dialect : Dialect} {bytes : List UInt8} {cs : List Char}
    (hDecode : Utf8.decode (Utf8.dropMark bytes) = .ok cs) (hParse : parse dialect cs = .ok t) :
    Extraction.read dialect bytes = ⟨cs.count '\n' + 1, .ok (ofTree (Source.ofList cs) t)⟩ := by
  rw [Extraction.read, hDecode]
  dsimp only
  rw [hParse]

/-- Comments that are well placed leave an outline, and the record that is
made of it, as they are. -/
theorem comments_ignored (hCommented : Commented src src' false t t') : Undisturbed src src' t t' where
  outline := ofTree_commented hCommented
  recorded w path root extensions bytes bytes' cs cs' hDecode hSource hParse hDecode' hSource' hParse' := by
    have hOutline : ofTree (Source.ofList cs') t' = ofTree (Source.ofList cs) t := by
      rw [← hSource, ← hSource']
      exact ofTree_commented hCommented
    rw [Extraction.record, Extraction.record, read_eq hDecode hParse, read_eq hDecode' hParse', hOutline]
    dsimp only
    split <;> rfl

namespace Sample

/-- A class with a decorator, and the same with comments in between. -/
def plain : List Char := "@Pipe(\x7bname: 'p'\x7d) class C extends B \x7b\x7d".toList

def annotated : List Char :=
  "@/*a*/Pipe(\x7b/*b*/name: /*c*/'p'\x7d/*d*/) class/*e*/ C extends/*f*/ B \x7b/*g*/\x7d".toList

/-- Whether the first source can be read, and the second as the same tree
with comments put in. -/
def annotates (cs cs' : List Char) : Bool :=
  match parse .plain cs, parse .plain cs' with
  | .ok t, .ok t' => commented (Source.ofList cs) (Source.ofList cs') false t t'
  | _, _ => false

/-- If the test passes, both sources have trees, and the second tree is the
first with comments put in. -/
theorem exists_of_annotates {cs cs' : List Char} (hAnnotates : annotates cs cs' = true) :
    ∃ t t', parse .plain cs = .ok t ∧ parse .plain cs' = .ok t' ∧
      Commented (Source.ofList cs) (Source.ofList cs') false t t' := by
  rw [annotates] at hAnnotates
  split at hAnnotates
  · next t t' hParse hParse' => exact ⟨t, t', hParse, hParse', hAnnotates⟩
  · cases hAnnotates

theorem annotated_annotates : annotates plain annotated = true := by decide +kernel

/-- The comments leave the outline as it is. -/
theorem annotated_undisturbed : ∃ t t', parse .plain plain = .ok t ∧ parse .plain annotated = .ok t' ∧
    Commented (Source.ofList plain) (Source.ofList annotated) false t t' ∧
    Undisturbed (Source.ofList plain) (Source.ofList annotated) t t' := by
  obtain ⟨t, t', hParse, hParse', hCommented⟩ := exists_of_annotates annotated_annotates
  exact ⟨t, t', hParse, hParse', hCommented, comments_ignored hCommented⟩

end Sample

end Outline

end SourceAtlas
