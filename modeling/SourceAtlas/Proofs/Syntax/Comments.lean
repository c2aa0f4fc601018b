import Mathlib.Data.List.Forall2
import Mathlib.Data.Option.Basic
import SourceAtlas.Proofs.Assoc
import SourceAtlas.Syntax.Tree

/-!
Syntax trees that differ by comments only. Comments may be put among the children of any phrase, as
long as they do not come where a part of the phrase is found by its place, and as long as the texts
that are quoted from the source stay what they are.
-/
namespace SourceAtlas.Syntax

section Related

variable {α β : Type} {R : α → α → Prop}

/-- Two options that are related are both empty, or their
values are related. -/
theorem rel_outcome {o o' : Option α} (hRelated : Option.Rel R o o') :
    (o = none ∧ o' = none) ∨ ∃ x x', o = some x ∧ o' = some x' ∧ R x x' := by
  cases hRelated with
  | none => exact .inl ⟨rfl, rfl⟩
  | some hBoth => exact .inr ⟨_, _, rfl, rfl, hBoth⟩

theorem rel_mono {S : α → α → Prop} {o o' : Option α} (hRelated : Option.Rel R o o') (hSub : ∀ x x', R x x' → S x x') :
    Option.Rel S o o' := by
  cases hRelated with
  | none => exact .none
  | some hBoth => exact .some (hSub _ _ hBoth)

/-- The first of two alternatives is related to the first of two others. -/
theorem rel_orElse {o o' u u' : Option α} (hFirst : Option.Rel R o o') (hSecond : Option.Rel R u u') :
    Option.Rel R (o <|> u) (o' <|> u') := by
  cases hFirst with
  | none => exact hSecond
  | some hBoth => exact .some hBoth

/-- What is the same for related values is the same for what may be there. -/
theorem map_eq_of_rel {o o' : Option α} {f f' : α → β} (hRelated : Option.Rel R o o')
    (hSame : ∀ x x', R x x' → f' x' = f x) : o'.map f' = o.map f := by
  cases hRelated with
  | none => rfl
  | some hBoth => exact congrArg some (hSame _ _ hBoth)

/-- Folding over lists that correspond gives the same if each step does. -/
theorem foldl_eq_of_forall₂ {xs xs' : List α} {f f' : β → α → β} (hAll : List.Forall₂ R xs xs')
    (hSame : ∀ x x', R x x' → ∀ b, f' b x' = f b x) (b : β) : xs'.foldl f' b = xs.foldl f b := by
  induction hAll generalizing b with
  | nil => rfl
  | cons hFirst _ ih => rw [List.foldl_cons, List.foldl_cons, hSame _ _ hFirst, ih]

end Related

/-- A list, and the same list with extra members in between. The other
members are related. -/
inductive Interspersed {α : Type} (extra : α → Prop) (R : α → α → Prop) : List α → List α → Prop
  | nil : Interspersed extra R [] []
  | cons {x x' : α} {xs xs' : List α} (hFirst : R x x') (hRest : Interspersed extra R xs xs') :
      Interspersed extra R (x :: xs) (x' :: xs')
  | extra {x' : α} {xs xs' : List α} (hExtra : extra x') (hRest : Interspersed extra R xs xs') :
      Interspersed extra R xs (x' :: xs')

namespace Interspersed

variable {α β : Type} {extra : α → Prop} {R S : α → α → Prop} {xs xs' : List α} {p : α → Bool}

/-- Lists that correspond one by one have nothing in between. -/
theorem of_forall₂ (hAll : List.Forall₂ R xs xs') : Interspersed (fun _ => False) R xs xs' := by
  induction hAll with
  | nil => exact .nil
  | cons hFirst _ ih => exact .cons hFirst ih

/-- What is made of the members of both lists is interspersed with what is
made of those in between. -/
theorem map {extra' : β → Prop} {S : β → β → Prop} {f : α → β} (hMembers : Interspersed extra R xs xs')
    (hSame : ∀ x x', R x x' → S (f x) (f x')) (hExtra : ∀ x, extra x → extra' (f x)) :
    Interspersed extra' S (xs.map f) (xs'.map f) := by
  induction hMembers with
  | nil => exact .nil
  | cons hFirst _ ih => exact .cons (hSame _ _ hFirst) ih
  | extra hFirst _ ih => exact .extra (hExtra _ hFirst) ih

/-- The members that pass a test, where related members pass it alike. -/
theorem filter (hMembers : Interspersed extra R xs xs') (hSame : ∀ x x', R x x' → p x' = p x) :
    Interspersed extra R (xs.filter p) (xs'.filter p) := by
  induction hMembers with
  | nil => exact .nil
  | @cons x x' xs xs' hFirst _ ih =>
      rw [List.filter_cons, List.filter_cons, hSame x x' hFirst]
      split
      · exact .cons hFirst ih
      · exact ih
  | @extra x' xs xs' hFirst _ ih =>
      rw [List.filter_cons]
      split
      · exact .extra hFirst ih
      · exact ih

section Tests

variable (hMembers : Interspersed extra R xs xs')

include hMembers

/-- Where nothing extra passes a test, the members that pass it are related
one by one. -/
theorem filter_forall₂ (hSame : ∀ x x', R x x' → p x' = p x) (hExtra : ∀ x, extra x → p x = false) :
    List.Forall₂ (fun x x' => R x x' ∧ p x = true) (xs.filter p) (xs'.filter p) := by
  induction hMembers with
  | nil => exact .nil
  | @cons x x' xs xs' hFirst _ ih =>
      rw [List.filter_cons, List.filter_cons, hSame x x' hFirst]
      split
      · next hTest => exact .cons ⟨hFirst, hTest⟩ ih
      · exact ih
  | @extra x' xs xs' hFirst _ ih => rwa [List.filter_cons, if_neg (by simp [hExtra x' hFirst])]

/-- The first member that passes a test is still the first one. -/
theorem find? (hSame : ∀ x x', R x x' → p x' = p x) (hExtra : ∀ x, extra x → p x = false) :
    Option.Rel (fun x x' => R x x' ∧ p x = true) (xs.find? p) (xs'.find? p) := by
  induction hMembers with
  | nil => exact .none
  | @cons x x' xs xs' hFirst _ ih =>
      rw [List.find?_cons, List.find?_cons, hSame x x' hFirst]
      cases hTest : p x with
      | true => exact .some ⟨hFirst, hTest⟩
      | false => exact ih
  | @extra x' xs xs' hFirst _ ih => rwa [List.find?_cons_of_neg (by simp [hExtra x' hFirst])]

/-- A test that fails for all members in between finds the same. -/
theorem any (hSame : ∀ x x', R x x' → p x' = p x) (hExtra : ∀ x, extra x → p x = false) :
    xs'.any p = xs.any p := by
  induction hMembers with
  | nil => rfl
  | @cons x x' xs xs' hFirst _ ih => rw [List.any_cons, List.any_cons, hSame x x' hFirst, ih]
  | @extra x' xs xs' hFirst _ ih => rw [List.any_cons, hExtra x' hFirst, ih, Bool.false_or]

/-- What is collected from the members is the same if those in
between give nothing. -/
theorem flatMap_eq {f f' : α → List β} (hSame : ∀ x ∈ xs, ∀ x', R x x' → f' x' = f x)
    (hExtra : ∀ x, extra x → f' x = []) : xs'.flatMap f' = xs.flatMap f := by
  induction hMembers with
  | nil => rfl
  | @cons x x' xs xs' hFirst _ ih =>
      obtain ⟨hHead, hTail⟩ := List.forall_mem_cons.mp hSame
      rw [List.flatMap_cons, List.flatMap_cons, hHead x' hFirst, ih hTail]
  | @extra x' xs xs' hFirst _ ih => rw [List.flatMap_cons, hExtra x' hFirst, ih hSame, List.nil_append]

/-- The same for what some members give. -/
theorem filterMap_eq {f f' : α → Option β} (hSame : ∀ x x', R x x' → f' x' = f x)
    (hExtra : ∀ x, extra x → f' x = none) : xs'.filterMap f' = xs.filterMap f := by
  rw [List.filterMap_eq_flatMap_toList, List.filterMap_eq_flatMap_toList]
  exact hMembers.flatMap_eq (fun x _ x' hBoth => by rw [hSame x x' hBoth]) fun x hx => by rw [hExtra x hx]; rfl

/-- Where nothing of a sort is there that is extra, all members are related. -/
theorem forall₂ (hExtra : ∀ x, extra x → p x = true) (hNone : xs'.any p = false) : List.Forall₂ R xs xs' := by
  induction hMembers with
  | nil => exact .nil
  | cons hFirst _ ih =>
      rw [List.any_cons, Bool.or_eq_false_iff] at hNone
      exact .cons hFirst (ih hNone.2)
  | @extra x' xs xs' hFirst _ ih =>
      rw [List.any_cons, hExtra x' hFirst] at hNone
      cases hNone

/-- The first members are related if nothing extra comes first. -/
theorem head? (hExtra : ∀ x, extra x → p x = true) (hNone : xs'.head?.any p = false) :
    Option.Rel R xs.head? xs'.head? := by
  cases hMembers with
  | nil => exact .none
  | cons hFirst _ => exact .some hFirst
  | @extra x' xs xs' hFirst _ => rw [List.head?_cons, Option.any_some, hExtra x' hFirst] at hNone; cases hNone

omit hMembers in
/-- A member may be added behind both lists. -/
theorem concat {x x' : α} (hMembers : Interspersed extra R xs xs') (hLast : R x x') :
    Interspersed extra R (xs ++ [x]) (xs' ++ [x']) := by
  induction hMembers with
  | nil => exact .cons hLast .nil
  | cons hFirst _ ih => exact .cons hFirst ih
  | extra hFirst _ ih => exact .extra hFirst ih

omit hMembers in
/-- An extra member may be added behind the second list alone. -/
theorem concat_extra {x' : α} (hMembers : Interspersed extra R xs xs') (hLast : extra x') :
    Interspersed extra R xs (xs' ++ [x']) := by
  induction hMembers with
  | nil => exact .extra hLast .nil
  | cons hFirst _ ih => exact .cons hFirst ih
  | extra hFirst _ ih => exact .extra hFirst ih

/-- Read backwards, one list is still the other with members in between. The
last of a list is found this way. -/
theorem reverse : Interspersed extra R xs.reverse xs'.reverse := by
  induction hMembers with
  | nil => exact .nil
  | cons hFirst _ ih =>
      rw [List.reverse_cons, List.reverse_cons]
      exact ih.concat hFirst
  | extra hFirst _ ih =>
      rw [List.reverse_cons]
      exact ih.concat_extra hFirst

/-- The last members are related if nothing extra comes last. -/
theorem getLast? (hExtra : ∀ x, extra x → p x = true) (hNone : xs'.getLast?.any p = false) :
    Option.Rel R xs.getLast? xs'.getLast? := by
  rw [← List.head?_reverse] at hNone ⊢
  rw [← List.head?_reverse]
  exact hMembers.reverse.head? hExtra hNone

end Tests

end Interspersed

/-- Whether a tree is a comment that plays no part in the phrase above it. -/
def Tree.isRemark (t : Tree) : Bool := t.isComment && t.field.isNone && t.children.isEmpty

/-- Whether the text of a tree is taken as it is written, comments inside it
with the rest. -/
def quoted (inDecorator : Bool) (above : Label) (t : Tree) : Bool :=
  t.isOneOf [.identifier, .string] ||
    (above != .phrase .variableDeclarator && [some .name, some .alias, some .source].contains t.field) ||
    (above == .phrase .extendsClause && t.field == some .value) ||
    (above == .phrase .implementsClause && !(t.isKind .genericType && (t.part? .name).isSome)) ||
    above == .phrase .namespaceExport ||
    (inDecorator && (t.isKind .memberExpression || t.field == some .key || t.field == some .function))

/-- Whether a comment stands where a part of the phrase is found by its
place: before the arguments in a decorator or the declaration that is
declared ambient, among the types that a class implements, or after the name
of a namespace. -/
def misplaced (inDecorator : Bool) (t : Tree) : Bool :=
  ((inDecorator && t.field == some .arguments || t.isKind .ambientDeclaration) && t.named.head?.any Tree.isComment) ||
    (t.isKind .implementsClause && t.named.any Tree.isComment) ||
    (t.isKind .namespaceExport && t.named.getLast?.any Tree.isComment)

mutual

/-- Whether the second tree, of a source of its own, is the first with
comments put in. -/
def commented (src src' : Source) : Bool → Tree → Tree → Bool
  | inDecorator, .mk label field start _ ts, .mk label' field' start' stop' ts' =>
    label' == label && field' == field && src'.line start' == src.line start &&
      !misplaced inDecorator (.mk label' field' start' stop' ts') &&
      commentedAll src src' (inDecorator || label == .phrase .decorator) label ts ts'

/-- Whether the second forest below a label is the first
with comments put in. -/
def commentedAll (src src' : Source) : Bool → Label → List Tree → List Tree → Bool
  | _, _, ts, [] => ts.isEmpty
  | inDecorator, above, [], t' :: ts' => t'.isRemark && commentedAll src src' inDecorator above [] ts'
  | inDecorator, above, t :: ts, t' :: ts' =>
    (commented src src' inDecorator t t' && (!quoted inDecorator above t || src'.text t' == src.text t) &&
        commentedAll src src' inDecorator above ts ts') ||
      (t'.isRemark && commentedAll src src' inDecorator above (t :: ts) ts')

end

/-- The second tree is the first with comments put in, all of them well
placed. Its source may be another one, as long as every phrase begins on the
line where it was and every text that is quoted is what it was. -/
def Commented (src src' : Source) (inDecorator : Bool) (t t' : Tree) : Prop :=
  commented src src' inDecorator t t' = true

instance (src src' : Source) (inDecorator : Bool) (t t' : Tree) : Decidable (Commented src src' inDecorator t t') :=
  inferInstanceAs (Decidable (_ = true))

/-- A tree below a label, and the same tree with comments put in. -/
structure Matched (src src' : Source) (inDecorator : Bool) (above : Label) (t t' : Tree) : Prop where
  commented : Commented src src' inDecorator t t'
  text : quoted inDecorator above t = true → src'.text t' = src.text t

variable {src src' : Source} {inDecorator : Bool} {above : Label} {t t' : Tree} {ts ts' : List Tree}

/-- The test on forests says what the relation says. After this the test is
not opened again. -/
theorem interspersed_of_commentedAll (hAll : commentedAll src src' inDecorator above ts ts' = true) :
    Interspersed (fun c => c.isRemark = true) (Matched src src' inDecorator above) ts ts' := by
  induction ts' generalizing ts with
  | nil =>
      rw [commentedAll, List.isEmpty_iff] at hAll
      rw [hAll]
      exact .nil
  | cons t' ts' ih =>
      cases ts with
      | nil =>
          rw [commentedAll, Bool.and_eq_true] at hAll
          exact .extra hAll.1 (ih hAll.2)
      | cons t ts =>
          rw [commentedAll] at hAll
          simp only [Bool.or_eq_true, Bool.and_eq_true, Bool.not_eq_true', beq_iff_eq] at hAll
          rcases hAll with ⟨⟨hFirst, hText⟩, hRest⟩ | ⟨hRemark, hRest⟩
          · exact .cons ⟨hFirst, fun hQuoted => hText.resolve_left (by simp [hQuoted])⟩ (ih hRest)
          · exact .extra hRemark (ih hRest)

/-- A remark is a comment without a field and without anything inside. -/
theorem Tree.isRemark_iff : t.isRemark = true ↔ t.label = .phrase .comment ∧ t.field = none ∧ t.children = [] := by
  simp [isRemark, isComment, isKind, and_assoc]

theorem Tree.isComment_of_isRemark (hRemark : t.isRemark = true) : t.isComment = true := by
  simp [isComment, isKind, (isRemark_iff.mp hRemark).1]

namespace Commented

variable (hCommented : Commented src src' inDecorator t t')

include hCommented

theorem label : t'.label = t.label := by
  obtain ⟨⟩ := t
  obtain ⟨⟩ := t'
  simp only [Commented, Syntax.commented, Bool.and_eq_true, beq_iff_eq] at hCommented
  exact hCommented.1.1.1.1

theorem field : t'.field = t.field := by
  obtain ⟨⟩ := t
  obtain ⟨⟩ := t'
  simp only [Commented, Syntax.commented, Bool.and_eq_true, beq_iff_eq] at hCommented
  exact hCommented.1.1.1.2

/-- Every phrase begins on the line on which it began. -/
theorem line : src'.line t'.start = src.line t.start := by
  obtain ⟨⟩ := t
  obtain ⟨⟩ := t'
  simp only [Commented, Syntax.commented, Bool.and_eq_true, beq_iff_eq] at hCommented
  exact hCommented.1.1.2

/-- No comment stands where it would be taken for a part. -/
theorem placed : misplaced inDecorator t' = false := by
  obtain ⟨⟩ := t
  obtain ⟨⟩ := t'
  simp only [Commented, Syntax.commented, Bool.and_eq_true, Bool.not_eq_true'] at hCommented
  exact hCommented.1.2

/-- The children are the old ones, each with comments put in, and
remarks in between. -/
theorem children : Interspersed (fun c => c.isRemark = true)
    (Matched src src' (inDecorator || t.isKind .decorator) t.label) t.children t'.children := by
  obtain ⟨⟩ := t
  obtain ⟨⟩ := t'
  simp only [Commented, Syntax.commented, Bool.and_eq_true] at hCommented
  exact interspersed_of_commentedAll hCommented.2

theorem isKind (k : Kind) : t'.isKind k = t.isKind k := by
  rw [Tree.isKind, Tree.isKind, hCommented.label]

theorem isOneOf (ks : List Kind) : t'.isOneOf ks = t.isOneOf ks := by
  simp only [Tree.isOneOf, hCommented.isKind]

/-- A part of a phrase is still there. -/
theorem part? (f : Field) : Option.Rel
    (fun c c' => Matched src src' (inDecorator || t.isKind .decorator) t.label c c' ∧ c.field = some f)
    (t.part? f) (t'.part? f) := by
  have hPart := hCommented.children.find? (p := fun c => c.field == some f)
    (fun c c' hBoth => by rw [hBoth.commented.field]) fun c hc => by simp [(Tree.isRemark_iff.mp hc).2.1]
  simpa only [beq_iff_eq, Tree.part?] using hPart

/-- A child of a kind is still there, unless it is a comment. -/
theorem child? {k : Kind} (hKind : k ≠ .comment) : Option.Rel
    (fun c c' => Matched src src' (inDecorator || t.isKind .decorator) t.label c c' ∧ c.isKind k = true)
    (t.child? k) (t'.child? k) :=
  hCommented.children.find? (fun c c' hBoth => hBoth.commented.isKind k)
    fun c hc => by simpa [Tree.isKind, (Tree.isRemark_iff.mp hc).1] using hKind.symm

theorem hasToken (text : String) : t'.hasToken text = t.hasToken text := by
  refine hCommented.children.any (fun c c' hBoth => ?_) fun c hc => ?_
  · rw [Tree.isToken, Tree.isToken, hBoth.commented.label]
  · simp [Tree.isToken, (Tree.isRemark_iff.mp hc).1]

/-- The same for those children that the grammar names. -/
theorem named : Interspersed (fun c => c.isRemark = true)
    (Matched src src' (inDecorator || t.isKind .decorator) t.label) t.named t'.named :=
  hCommented.children.filter fun c c' hBoth => by rw [Tree.isNamed, Tree.isNamed, hBoth.commented.label]

/-- Where the first phrase is taken, it is still the first one. -/
theorem firstPhrase (hFirst : (inDecorator && t.field == some .arguments || t.isKind .ambientDeclaration) = true) :
    Option.Rel (Matched src src' (inDecorator || t.isKind .decorator) t.label) t.named.head? t'.named.head? := by
  refine hCommented.named.head? (fun c hc => Tree.isComment_of_isRemark hc) ?_
  have hPlaced := hCommented.placed
  rw [misplaced, hCommented.field, hCommented.isKind, hFirst] at hPlaced
  simp only [Bool.true_and, Bool.or_eq_false_iff] at hPlaced
  exact hPlaced.1.1

/-- The types that a class implements are those that it implemented. -/
theorem types (hImplements : t.isKind .implementsClause = true) :
    List.Forall₂ (Matched src src' (inDecorator || t.isKind .decorator) t.label) t.named t'.named := by
  refine hCommented.named.forall₂ (fun c hc => Tree.isComment_of_isRemark hc) ?_
  have hPlaced := hCommented.placed
  rw [misplaced, hCommented.isKind .implementsClause, hImplements] at hPlaced
  simp only [Bool.true_and, Bool.or_eq_false_iff] at hPlaced
  exact hPlaced.1.2

/-- The last phrase in the export of a namespace is still the last one. -/
theorem lastPhrase (hNamespace : t.isKind .namespaceExport = true) :
    Option.Rel (Matched src src' (inDecorator || t.isKind .decorator) t.label) t.named.getLast? t'.named.getLast? := by
  refine hCommented.named.getLast? (fun c hc => Tree.isComment_of_isRemark hc) ?_
  have hPlaced := hCommented.placed
  rw [misplaced, hCommented.isKind .namespaceExport, hNamespace] at hPlaced
  simp only [Bool.true_and, Bool.or_eq_false_iff] at hPlaced
  exact hPlaced.2

end Commented

/-- The trees of some kinds in a forest, comments not among
them, are still there. -/
theorem Interspersed.ofKinds
    (hMembers : Interspersed (fun c => c.isRemark = true) (Matched src src' inDecorator above) ts ts')
    {ks : List Kind} (hKinds : .comment ∉ ks) :
    List.Forall₂ (fun c c' => Matched src src' inDecorator above c c' ∧ c.isOneOf ks = true)
      (ts.filter (·.isOneOf ks)) (ts'.filter (·.isOneOf ks)) := by
  refine hMembers.filter_forall₂ (fun c c' hBoth => hBoth.commented.isOneOf ks) fun c hc => ?_
  rw [Tree.isOneOf, List.any_eq_false]
  intro k hk hComment
  obtain rfl : Kind.comment = k := by simpa [Tree.isKind, (Tree.isRemark_iff.mp hc).1] using hComment
  exact hKinds hk

/-- The trees of a kind other than a comment correspond one by one, since
all that stands in between are comments. -/
theorem Interspersed.ofKind
    (hMembers : Interspersed (fun c => c.isRemark = true) (Matched src src' inDecorator above) ts ts')
    {k : Kind} (hKind : k ≠ .comment) :
    List.Forall₂ (fun c c' => Matched src src' inDecorator above c c' ∧ c.label = .phrase k)
      (ts.filter (·.isKind k)) (ts'.filter (·.isKind k)) := by
  simpa [Tree.isOneOf, Tree.isKind] using hMembers.ofKinds (show Kind.comment ∉ [k] by simpa using hKind.symm)

namespace Matched

variable (matched : Matched src src' inDecorator above t t')

include matched

/-- A name or a string is quoted wherever it stands. -/
theorem text_of_isKind {k : Kind} (hKind : t.isKind k = true) (hQuoted : k ∈ [Kind.identifier, Kind.string]) :
    src'.text t' = src.text t :=
  matched.text (by
    have hSome : t.isOneOf [.identifier, .string] = true := List.any_eq_true.mpr ⟨k, hQuoted, hKind⟩
    rw [quoted, hSome]
    rfl)

/-- The name of a phrase is quoted, unless it is the pattern of a variable. -/
theorem text_of_field {f : Field} (hField : t.field = some f) (hQuoted : f ∈ [Field.name, Field.alias, Field.source])
    (hAbove : above ≠ .phrase .variableDeclarator) : src'.text t' = src.text t :=
  matched.text (by
    have hSome : [some Field.name, some .alias, some .source].contains t.field = true := by
      rw [hField]
      revert hQuoted
      cases f <;> decide
    rw [quoted, hSome]
    simp [hAbove])

end Matched

end SourceAtlas.Syntax
