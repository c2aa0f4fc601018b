import SourceAtlas.Proofs.Syntax.Placement
import SourceAtlas.Syntax.Grammar

/-!
What every syntax tree of a source has in common: phrases begin in the order of the tree, parameters
stand before the body, decorators are not what they decorate, functions, variables and classes are
introduced by words of their own, and parameters are written out. All of it is read off the rules of
the grammar.
-/
namespace SourceAtlas.Syntax

/-- Kinds whose trees are introduced by a word or mark outside of their
parameters, body and value. -/
def introducedKinds : List Kind :=
  [.functionDeclaration, .generatorFunctionDeclaration, .methodDefinition, .variableDeclarator,
    .classDeclaration, .abstractClassDeclaration, .classExpression]

def parameterKinds : List Kind := [.requiredParameter, .optionalParameter]

/-- The parts in which a phrase keeps what it is about. -/
def mainParts : List Field := [.body, .declaration, .value]

/-- A decorator is in none of these parts. -/
def Tree.Apart (t : Tree) : Prop := t.isKind .decorator = true → ∀ f ∈ mainParts, t.field ≠ some f

/-- What the children of a tree are like, by its label. -/
structure Shaped (l : Label) (children : List Tree) : Prop where
  comment : l = .phrase .comment → children = []
  ordered : children.Pairwise (InOrder .parameters .body)
  apart : ∀ c ∈ children, c.Apart
  introduced : ∀ k ∈ introducedKinds, l = .phrase k → Weighty [.parameters, .body, .value] children
  parameter : ∀ k ∈ parameterKinds, l = .phrase k → Weighty [] children

/-- The phrases that may have a part `parameters`. -/
def mayHaveParameters : Phrase → Bool
  | .callSignature _ => true
  | .arrowSignature => true
  | _ => false

/-- No phrase gives its body to the phrase around it. -/
def mayHaveBody : Phrase → Bool := fun _ => false

/-- Patterns, names and lists of arguments, which hold a word or mark. -/
def written : Phrase → Bool
  | .binding => true
  | .target => true
  | .objectPattern => true
  | .arrayPattern => true
  | .propertyName => true
  | .arguments => true
  | .typeArguments => true
  | .template => true
  | _ => false

/-- Only the phrase of a decorator gives one to the phrase around it. -/
def mayDecorate : Phrase → Bool := fun n => n == .decorator

/-- The kinds that `Shaped` asks something of besides the order of parts. -/
def asksMore (k : Kind) : Bool := k ∈ introducedKinds || k ∈ parameterKinds

/-- What makes the trees of a rule keep their order. -/
def orderly (a : Grammar) : Bool :=
  a.keepsOrder mayHaveParameters mayHaveBody .parameters .body && a.passes (sparing [.parameters, .body])

def shapes : Exam Phrase where
  leaf l := ((introducedKinds ++ parameterKinds).all fun k => l.label != .phrase k)
  node k a := k != .comment && orderly a && (!(k ∈ introducedKinds) || a.holds written [.parameters, .body, .value]) &&
    (!(k ∈ parameterKinds) || a.holds written [])
  field f a := !(f ∈ mainParts) || !a.gives mayDecorate .decorator
  wrap k part a := k != .comment && !asksMore k && orderly a && !a.fills mayHaveParameters .parameters &&
    part.all (· ∉ mainParts)

/-- All that is read off the rule of one phrase. -/
structure Sits (n : Phrase) (r : Grammar) : Prop where
  lone : r.lone false = true
  spares : r.passes (sparing [.parameters, .body]) = true
  parameters : r.fills mayHaveParameters .parameters = true → mayHaveParameters n = true
  body : r.fills mayHaveBody .body = true → mayHaveBody n = true
  keeps : r.keepsOrder mayHaveParameters mayHaveBody .parameters .body = true
  decorators : r.gives mayDecorate .decorator = true → mayDecorate n = true
  written : written n = true → r.holds written [] = true
  shapes : r.passes shapes = true
  anchored : r.passes (anchored SourceAtlas.Syntax.written) = true

instance (n : Phrase) (r : Grammar) : Decidable (Sits n r) :=
  decidable_of_iff
    (r.lone false = true ∧ r.passes (sparing [.parameters, .body]) = true ∧
      (r.fills mayHaveParameters .parameters = true → mayHaveParameters n = true) ∧
      (r.fills mayHaveBody .body = true → mayHaveBody n = true) ∧
      r.keepsOrder mayHaveParameters mayHaveBody .parameters .body = true ∧
      (r.gives mayDecorate .decorator = true → mayDecorate n = true) ∧
      (SourceAtlas.Syntax.written n = true → r.holds SourceAtlas.Syntax.written [] = true) ∧
      r.passes SourceAtlas.Syntax.shapes = true ∧
      r.passes (SourceAtlas.Syntax.anchored SourceAtlas.Syntax.written) = true)
    ⟨fun ⟨h₁, h₂, h₃, h₄, h₅, h₆, h₇, h₈, h₉⟩ => ⟨h₁, h₂, h₃, h₄, h₅, h₆, h₇, h₈, h₉⟩,
      fun ⟨h₁, h₂, h₃, h₄, h₅, h₆, h₇, h₈, h₉⟩ => ⟨h₁, h₂, h₃, h₄, h₅, h₆, h₇, h₈, h₉⟩⟩

/-- Only operands differ from dialect to dialect. -/
theorem grammar_plain (d : Dialect) {n : Phrase} (hOther : ∀ s, n ≠ .operand s) : grammar d n = grammar .plain n := by
  cases n with
  | operand s => exact absurd rfl (hOther s)
  | _ => rfl

/-- Every rule of the grammar is as the tables say. -/
theorem grammar_sits (d : Dialect) (n : Phrase) : Sits n (grammar d n) := by
  cases n with
  | operand s =>
      obtain ⟨open_, typedArrow, heritage⟩ := s
      cases d <;> cases open_ <;> cases typedArrow <;> cases heritage <;> decide +kernel
  | expressions s | expression s | primary s | postfixed s | arrow s | constructed s =>
      obtain ⟨open_, typedArrow, heritage⟩ := s
      rw [grammar_plain d (by simp)]
      cases open_ <;> cases typedArrow <;> cases heritage <;> decide +kernel
  | callSignature tail | type tail | typeOperand tail | typeQuery tail | typeAscription tail | resultType tail =>
      rw [grammar_plain d (by simp)]
      rcases tail with _ | _ | _ <;> decide +kernel
  | method inClass =>
      rw [grammar_plain d (by simp)]
      cases inClass <;> decide +kernel
  | _ =>
      rw [grammar_plain d (by simp)]
      decide +kernel

theorem grammar_orders (d : Dialect) :
    OrdersParts (grammar d) mayHaveParameters mayHaveBody .parameters .body where
  distinct := by decide
  spares n := (grammar_sits d n).spares
  fillsEarly n := (grammar_sits d n).parameters
  fillsLate n := (grammar_sits d n).body
  keeps n := (grammar_sits d n).keeps

theorem weighty_dropWhile {out : List Field} {ts : List Tree} (hts : Weighty out ts) :
    Weighty out (ts.dropWhile Tree.isComment) := by
  obtain ⟨t, ht, hWeight, hParts⟩ := hts
  exact ⟨t, Tree.mem_dropWhile_of_weight ht hWeight, hWeight, hParts⟩

/-- Leaves of other kinds are shaped. -/
theorem shaped_nil {l : Label} (hLabel : ∀ k ∈ introducedKinds ++ parameterKinds, l ≠ .phrase k) : Shaped l [] where
  comment _ := rfl
  ordered := .nil
  apart := by simp
  introduced k hk hSame := absurd hSame (hLabel k (List.mem_append_left _ hk))
  parameter k hk hSame := absurd hSame (hLabel k (List.mem_append_right _ hk))

theorem Tree.apart_of_field {t : Tree} (hField : t.field = none) : t.Apart := by
  intro _ f _
  rw [hField]
  nofun

theorem shapes_establishes (d : Dialect) :
    shapes.Establishes (grammar d) fun t => t.Everywhere Shaped ∧ t.Apart where
  grammar n := (grammar_sits d n).shapes
  comment _ _ := ⟨.mk (shaped_nil (by decide)) (by simp), Tree.apart_of_field rfl⟩
  leaf l _ hLeaf := by
    refine ⟨.mk (shaped_nil fun k hk => ?_) (by simp), Tree.apart_of_field rfl⟩
    simpa using List.all_eq_true.mp hLeaf k hk
  field f a cur ts next hField inner t ht _ hTree := by
    refine ⟨hTree.1.withField f, fun hDecorator f' hf' hSame => ?_⟩
    rw [Tree.field_withField] at hSame
    obtain rfl := Option.some.inj hSame
    have hGives : a.gives mayDecorate .decorator = false := by simpa [shapes, hf'] using hField
    have hOther := inner.not_isKind (by decide) (fun n => (grammar_sits d n).decorators) hGives t ht
    rw [Tree.isKind_withField, hOther] at hDecorator
    cases hDecorator
  part k part a phrase hWrap hTree := by
    simp only [shapes, Bool.and_eq_true] at hWrap
    refine ⟨hTree.1.inPart part, ?_⟩
    cases part with
    | none => exact hTree.2
    | some f =>
        intro _ f' hf' hSame
        rw [Tree.inPart, Tree.field_withField] at hSame
        obtain rfl := Option.some.inj hSame
        simp [hf'] at hWrap
  node k a cur ts next start stop hNode inner hts := by
    simp only [shapes, orderly, Bool.and_eq_true, Bool.or_eq_true, Bool.not_eq_true', decide_eq_false_iff_not] at hNode
    obtain ⟨⟨⟨hPhrase, hKeeps, hSpares⟩, hIntroduced⟩, hParameter⟩ := hNode
    have hTable (n : Phrase) := (grammar_sits d n).written
    have hSub : ts.dropWhile Tree.isComment ⊆ ts := (List.dropWhile_sublist _).subset
    refine ⟨.mk ⟨?comment, ?ordered, fun c hc => (hts c (hSub hc)).2, ?introduced, ?parameter⟩
      fun c hc => (hts c (hSub hc)).1, Tree.apart_of_field rfl⟩
    case comment => exact fun hSame => absurd (Label.phrase.inj hSame) (bne_iff_ne.mp hPhrase)
    case ordered => exact ((grammar_orders d).derives inner hKeeps hSpares (by simp)).sublist (List.dropWhile_sublist _)
    case introduced =>
      intro k' hk' hSame
      obtain rfl := Label.phrase.inj hSame
      exact weighty_dropWhile (inner.weighty hTable (hIntroduced.resolve_left fun hNot => hNot hk'))
    case parameter =>
      intro k' hk' hSame
      obtain rfl := Label.phrase.inj hSame
      exact weighty_dropWhile (inner.weighty hTable (hParameter.resolve_left fun hNot => hNot hk'))
  wrap k part a phrase cur ts next start stop hWrap inner hts := by
    simp only [shapes, orderly, asksMore, Bool.and_eq_true, Bool.not_eq_true', Bool.or_eq_false_iff,
      decide_eq_false_iff_not] at hWrap
    obtain ⟨⟨⟨⟨hPhrase, hIntroduced, hParameter⟩, hKeeps, hSpares⟩, hFills⟩, -⟩ := hWrap
    have hSub : (phrase :: ts).dropWhile Tree.isComment ⊆ phrase :: ts := (List.dropWhile_sublist _).subset
    refine ⟨.mk ⟨?comment, ?ordered, fun c hc => (hts c (hSub hc)).2, ?introduced, ?parameter⟩
      fun c hc => (hts c (hSub hc)).1, Tree.apart_of_field rfl⟩
    case comment => exact fun hSame => absurd (Label.phrase.inj hSame) (bne_iff_ne.mp hPhrase)
    case ordered =>
      have hApart := (grammar_orders d).field_ne inner hSpares (by simp) (by simp) (grammar_orders d).fillsEarly hFills
      have hOrder := (grammar_orders d).derives inner hKeeps hSpares (by simp)
      exact (List.pairwise_cons.mpr ⟨fun t ht => .of_right (hApart t ht) phrase, hOrder⟩).sublist
        (List.dropWhile_sublist _)
    case introduced =>
      intro k' hk' hSame
      exact absurd (Label.phrase.inj hSame ▸ hk') hIntroduced
    case parameter =>
      intro k' hk' hSame
      exact absurd (Label.phrase.inj hSame ▸ hk') hParameter

/-- A shaped phrase weighs at least what its children weigh. -/
theorem Tree.Everywhere.weightAll_le {t : Tree} (hTree : t.Everywhere Shaped) :
    Tree.weightAll t.children ≤ t.weight := by
  cases hComment : t.isComment with
  | false => exact Tree.weightAll_children_le hComment
  | true =>
      have hLabel : t.label = .phrase .comment := by simpa [Tree.isComment, Tree.isKind] using hComment
      rw [hTree.root.comment hLabel]
      exact Nat.zero_le _

/-- What a source parses to is the last tree that its rule derives, or a
program without parts. -/
theorem parse_derives {d : Dialect} {cs : List Char} {t : Tree} (hParse : parse d cs = .ok t) :
    (∃ ts next, Derives (grammar d) none (.call Phrase.program) ⟨cs, 0⟩ ts next ∧ t ∈ ts) ∨
      t = .mk (.phrase .program) none 0 0 [] := by
  rw [parse] at hParse
  split at hParse
  · next trees hRead =>
    obtain ⟨next, derives⟩ := read_derives hRead
    split at hParse
    · next tree hLast =>
      obtain rfl := Except.ok.inj hParse
      exact .inl ⟨trees, next, derives, List.mem_of_getLast? hLast⟩
    · exact .inr (Except.ok.inj hParse).symm
  · cases hParse

/-- Everything in the syntax tree of a source is shaped. -/
theorem parse_shaped {d : Dialect} {cs : List Char} {t : Tree} (hParse : parse d cs = .ok t) :
    t.Everywhere Shaped := by
  rcases parse_derives hParse with ⟨ts, next, derives, ht⟩ | rfl
  · exact ((shapes_establishes d).derives derives rfl (by simp) t ht).1
  · exact .mk (shaped_nil (by decide)) (by simp)

/-- The phrases and tokens in the syntax tree of a source begin in the order
of the tree. -/
theorem parse_starts {d : Dialect} {cs : List Char} {t : Tree} (hParse : parse d cs = .ok t) :
    t.starts.Pairwise (· ≤ ·) := by
  rcases parse_derives hParse with ⟨ts, next, derives, ht⟩ | rfl
  · have hAll := derives.placed (fun n => (grammar_sits d n).lone) (fun n => (grammar_sits d n).anchored)
      (fun n => (grammar_sits d n).written) false rfl rfl
    exact (hAll.2.1 rfl).ordered.sublist (Tree.starts_sublist ht)
  · exact List.pairwise_singleton _ _

/-- The syntax tree of a source weighs no more than the source has
characters. -/
theorem parse_weight_le {d : Dialect} {cs : List Char} {t : Tree} (hParse : parse d cs = .ok t) :
    t.weight ≤ cs.length := by
  rcases parse_derives hParse with ⟨ts, next, derives, ht⟩ | rfl
  · have hAll := derives.weight_le (fun n => (grammar_sits d n).lone) false rfl
    have hWeight := Tree.weight_le_of_mem ht
    simp only [leftWeight, Bool.false_eq_true, if_false] at hAll
    omega
  · exact Nat.zero_le _

end SourceAtlas.Syntax
