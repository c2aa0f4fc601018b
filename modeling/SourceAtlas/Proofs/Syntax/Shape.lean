import SourceAtlas.Proofs.Syntax.Weight

/-!
What the trees of a grammar look like, judged from its rules alone. A rule is examined once, for the
parts it fills, the order it fills them in, and whether it holds a word at all. Of the phrases it
calls a table says what to expect, and the table is right if the rule of every phrase bears it out.
-/
namespace SourceAtlas.Syntax

/-- A property of all trees within a tree, itself included, that speaks of
label and children. -/
inductive Tree.Everywhere (P : Label → List Tree → Prop) : Tree → Prop
  | mk {l : Label} {f : Option Field} {start stop : Nat} {cs : List Tree} (here : P l cs)
      (inside : ∀ c ∈ cs, Tree.Everywhere P c) : Tree.Everywhere P (.mk l f start stop cs)

namespace Tree

namespace Everywhere

variable {P : Label → List Tree → Prop} {t : Tree}

theorem root (hTree : t.Everywhere P) : P t.label t.children := by
  cases hTree with
  | mk here _ => exact here

/-- What holds everywhere in a tree holds everywhere in its children. -/
theorem child (hTree : t.Everywhere P) {c : Tree} (hc : c ∈ t.children) : c.Everywhere P := by
  cases hTree with
  | mk _ inside => exact inside c hc

/-- A property of labels and children does not see which part a
tree is read into. -/
theorem withField (hTree : t.Everywhere P) (f : Field) : (t.withField f).Everywhere P := by
  cases hTree with
  | mk here inside => exact .mk here inside

theorem inPart (hTree : t.Everywhere P) (part : Option Field) : (t.inPart part).Everywhere P := by
  cases part with
  | none => exact hTree
  | some f => exact hTree.withField f

end Everywhere

theorem isKind_withField (k : Kind) (f : Field) (t : Tree) : (t.withField f).isKind k = t.isKind k := by
  cases t
  rfl

theorem isComment_withField (f : Field) (t : Tree) : (t.withField f).isComment = t.isComment :=
  isKind_withField .comment f t

theorem field_withField (f : Field) (t : Tree) : (t.withField f).field = some f := by
  cases t
  rfl

/-- A tree of an enclosed forest is a comment of the forest, or the phrase
around the others. -/
theorem mem_enclose {k : Kind} {here : Nat} {ts : List Tree} {t : Tree} (ht : t ∈ enclose k here ts) :
    t ∈ ts ∧ t.isComment = true ∨ ∃ start stop, t = .mk (.phrase k) none start stop (ts.dropWhile isComment) := by
  rcases List.mem_append.mp ht with hOutside | hPhrase
  · exact .inl ⟨(List.takeWhile_sublist _).subset hOutside, List.mem_takeWhile_imp hOutside⟩
  · exact .inr ⟨_, _, List.mem_singleton.mp hPhrase⟩

/-- Every member of what is read into a part is a comment as it was, or a
tree that has the part as its field now. -/
theorem mem_assign {f : Field} {ts : List Tree} {t : Tree} (ht : t ∈ assign f ts) :
    t ∈ ts ∧ t.isComment = true ∨ ∃ u ∈ ts, u.isComment = false ∧ t = u.withField f := by
  obtain ⟨u, hu, rfl⟩ := List.mem_map.mp ht
  cases hComment : u.isComment with
  | true => exact .inl ⟨by simpa [hComment] using hu, by simp [hComment]⟩
  | false => exact .inr ⟨u, hu, hComment, by simp⟩

/-- A tree that holds a word or mark is no comment. -/
theorem isComment_of_weight {t : Tree} (hWeight : 0 < t.weight) : t.isComment = false := by
  by_contra hComment
  rw [weight_comment (by simpa using hComment)] at hWeight
  exact Nat.lt_irrefl 0 hWeight

/-- A tree that weighs something is not among the comments in
front of a phrase. -/
theorem mem_dropWhile_of_weight {ts : List Tree} {t : Tree} (ht : t ∈ ts) (hWeight : 0 < t.weight) :
    t ∈ ts.dropWhile isComment := by
  rw [← List.takeWhile_append_dropWhile (p := isComment) (l := ts)] at ht
  refine (List.mem_append.mp ht).resolve_left fun hOutside => ?_
  have hPhrase := isComment_of_weight hWeight
  rw [List.mem_takeWhile_imp hOutside] at hPhrase
  cases hPhrase

/-- The phrase around a forest weighs as much as the forest. -/
theorem exists_enclose (k : Kind) (here : Nat) (ts : List Tree) (hKind : k ≠ .comment) :
    ∃ outside phrase, enclose k here ts = outside ++ [phrase] ∧ phrase.field = none ∧
      phrase.weight = weightAll ts := by
  refine ⟨_, _, rfl, rfl, ?_⟩
  have hAll := weightAll_enclose k here ts
  rw [enclose, weightAll_append, weightAll_comments fun t ht => List.mem_takeWhile_imp ht, Nat.zero_add,
    weightAll_singleton, if_neg hKind] at hAll
  exact hAll

end Tree

/-- A leaf of a lexeme weighs one if anything was read and it is no comment. -/
theorem Lexeme.weight_leaf {l : Lexeme} {cur : Cursor} (hLabel : l.label ≠ .phrase .comment)
    (hLength : 0 < l.length cur.rest) : (l.leaf cur).weight = 1 := by
  have hSpan : cur.offset < (cur.advance (l.length cur.rest)).offset := Nat.lt_add_of_pos_right hLength
  rw [leaf, Tree.weight, if_neg hLabel]
  simp [hSpan]

/-- What is asked of the leaves, nodes, parts and wrappings of a grammar. -/
structure Exam (N : Type) where
  leaf : Lexeme → Bool
  node : Kind → Rule N → Bool
  field : Field → Rule N → Bool
  wrap : Kind → Option Field → Rule N → Bool

variable {N : Type} {g : N → Rule N}

/-- Whether all leaves, nodes, parts and wrappings within a rule pass. Calls
are left to the rules called, and what is only looked at builds nothing. -/
def Rule.passes (e : Exam N) : Rule N → Bool
  | .token l => e.leaf l
  | .here l => e.leaf l
  | .seq a b => passes e a && passes e b
  | .alt a b => passes e a && passes e b
  | .many a => passes e a
  | .node k a => e.node k a && passes e a
  | .field f a => e.field f a && passes e a
  | .choose _ a b => passes e a && passes e b
  | .grow a suffix => passes e a && passes e suffix
  | .wrap _ k part a => e.wrap k part a && passes e a
  | .item a => passes e a
  | _ => true

/-- How a property of trees comes about, step by step of a reading. -/
structure Exam.Establishes (e : Exam N) (g : N → Rule N) (Q : Tree → Prop) : Prop where
  grammar : ∀ n, (g n).passes e = true
  comment : ∀ start stop, Q (commentTree start stop)
  leaf : ∀ l cur, e.leaf l = true → Q (l.leaf cur)
  field : ∀ f a cur ts next, e.field f a = true → Derives g none a cur ts next →
    ∀ t ∈ ts, t.isComment = false → Q t → Q (t.withField f)
  part : ∀ k part a phrase, e.wrap k part a = true → Q phrase → Q (phrase.inPart part)
  node : ∀ k a cur ts next start stop, e.node k a = true → Derives g none a cur ts next → (∀ t ∈ ts, Q t) →
    Q (.mk (.phrase k) none start stop (ts.dropWhile Tree.isComment))
  wrap : ∀ k part a phrase cur ts next start stop, e.wrap k part a = true → Derives g none a cur ts next →
    (∀ t ∈ phrase :: ts, Q t) → Q (.mk (.phrase k) none start stop ((phrase :: ts).dropWhile Tree.isComment))

/-- What an exam establishes holds of every tree that is read. -/
theorem Exam.Establishes.derives {e : Exam N} {Q : Tree → Prop} (establishes : e.Establishes g Q) {left : Option Tree}
    {r : Rule N} {cur next : Cursor} {ts : List Tree} (derives : Derives g left r cur ts next)
    (hRule : r.passes e = true) (hLeft : ∀ p ∈ left, Q p) : ∀ t ∈ ts, Q t := by
  have hPassed {cur next : Cursor} {ts : List Tree} (hPasses : Passes cur ts next) : ∀ t ∈ ts, Q t := by
    induction hPasses with
    | here => simp
    | blank _ _ ih => exact ih
    | comment _ _ ih => exact List.forall_mem_cons.mpr ⟨establishes.comment _ _, ih⟩
  have hBoth {ts us : List Tree} (hts : ∀ t ∈ ts, Q t) (hus : ∀ t ∈ us, Q t) : ∀ t ∈ ts ++ us, Q t :=
    List.forall_mem_append.mpr ⟨hts, hus⟩
  have hEnclose {k : Kind} {here : Nat} {ts : List Tree} (hts : ∀ t ∈ ts, Q t)
      (hPhrase : ∀ start stop, Q (.mk (.phrase k) none start stop (ts.dropWhile Tree.isComment))) :
      ∀ t ∈ Tree.enclose k here ts, Q t := by
    intro t ht
    rcases Tree.mem_enclose ht with ⟨ht, -⟩ | ⟨start, stop, rfl⟩
    · exact hts t ht
    · exact hPhrase start stop
  induction derives with
  | done | stop | fits | unfit => simp
  | token hPasses _ => exact hBoth (hPassed hPasses) (by simpa using establishes.leaf _ _ hRule)
  | here _ => simpa using establishes.leaf _ _ hRule
  | unwritten hPasses | finish hPasses => exact hPassed hPasses
  | call _ ih => exact ih (establishes.grammar _) hLeft
  | seq _ _ ihFirst ihSecond =>
      simp only [Rule.passes, Bool.and_eq_true] at hRule
      exact hBoth (ihFirst hRule.1 hLeft) (ihSecond hRule.2 hLeft)
  | altLeft _ ih | yes _ ih =>
      simp only [Rule.passes, Bool.and_eq_true] at hRule
      exact ih hRule.1 hLeft
  | altRight _ ih | no _ ih =>
      simp only [Rule.passes, Bool.and_eq_true] at hRule
      exact ih hRule.2 hLeft
  | more _ _ ihFirst ihRest => exact hBoth (ihFirst hRule hLeft) (ihRest hRule hLeft)
  | node inner ih =>
      simp only [Rule.passes, Bool.and_eq_true] at hRule
      have hInner := ih hRule.2 (by simp)
      exact hEnclose hInner fun start stop => establishes.node _ _ _ _ _ start stop hRule.1 inner hInner
  | field inner ih =>
      simp only [Rule.passes, Bool.and_eq_true] at hRule
      intro t ht
      have hInner := ih hRule.2 (by simp)
      rcases Tree.mem_assign ht with ⟨ht, -⟩ | ⟨u, hu, hPhrase, rfl⟩
      · exact hInner t ht
      · exact establishes.field _ _ _ _ _ hRule.1 inner u hu hPhrase (hInner u hu)
  | seed _ ih =>
      simp only [Rule.passes, Bool.and_eq_true] at hRule
      exact ih hRule.1 (by simp)
  | grown _ _ hLast ihShorter ihStep =>
      have hShorter := List.forall_mem_append.mp (ihShorter hRule hLeft)
      simp only [Rule.passes, Bool.and_eq_true] at hRule
      have hStep := ihStep hRule.2 (by simpa using hShorter.2)
      exact hBoth hShorter.1 (by simpa using hStep _ (List.mem_of_getLast? hLast))
  | wrap inner ih =>
      simp only [Rule.passes, Bool.and_eq_true] at hRule
      have hInner := List.forall_mem_cons.mpr
        ⟨establishes.part _ _ _ _ hRule.1 (hLeft _ rfl), ih hRule.2 (by simp)⟩
      exact hEnclose hInner fun start stop => establishes.wrap _ _ _ _ _ _ _ start stop hRule.1 inner hInner
  | item _ ih => exact ih hRule hLeft

/-- The exam that a grammar passes if no phrase is wrapped in
one of these parts. -/
def sparing (fs : List Field) : Exam N where
  leaf _ := true
  node _ _ := true
  field _ _ := true
  wrap _ part _ := part.all (· ∉ fs)

/-- A comment is in none of these parts. -/
def Tree.Bare (fs : List Field) (t : Tree) : Prop := t.isComment = true → ∀ f ∈ fs, t.field ≠ some f

/-- A tree without a field is in no part at all. -/
theorem Tree.bare_of_field {t : Tree} (hField : t.field = none) (fs : List Field) : t.Bare fs := by
  intro _ f _
  rw [hField]
  nofun

/-- Comments are in no part that no phrase is wrapped in. -/
theorem sparing_establishes {fs : List Field} (hGrammar : ∀ n, (g n).passes (sparing fs) = true) :
    (sparing fs).Establishes g (Tree.Bare fs) where
  grammar := hGrammar
  comment _ _ := Tree.bare_of_field rfl fs
  leaf _ _ _ := Tree.bare_of_field rfl fs
  field f' _ _ _ _ _ _ t _ hPhrase _ hComment := by
    rw [Tree.isComment_withField, hPhrase] at hComment
    cases hComment
  part k part a phrase hPart hPhrase := by
    cases part with
    | none => exact hPhrase
    | some f' =>
        intro _ f hf hField
        rw [Tree.inPart, Tree.field_withField] at hField
        obtain rfl := Option.some.inj hField
        simp [sparing, hf] at hPart
  node _ _ _ _ _ _ _ _ _ _ := Tree.bare_of_field rfl fs
  wrap _ _ _ _ _ _ _ _ _ _ _ _ := Tree.bare_of_field rfl fs

namespace Rule

/-- Whether the rule may read a phrase in the part `f`, if the table says of
which phrases this is to be expected. -/
def fills (table : N → Bool) (f : Field) : Rule N → Bool
  | .call n => table n
  | .seq a b => fills table f a || fills table f b
  | .alt a b => fills table f a || fills table f b
  | .many a => fills table f a
  | .field f' _ => f' == f
  | .choose _ a b => fills table f a || fills table f b
  | .grow a suffix => fills table f a || fills table f suffix
  | .item a => fills table f a
  | _ => false

/-- Whether the rule may read a tree of kind `k`, if the table says of which
phrases this is to be expected. -/
def gives (table : N → Bool) (k : Kind) : Rule N → Bool
  | .token l => l.label == .phrase k
  | .here l => l.label == .phrase k
  | .call n => table n
  | .seq a b => gives table k a || gives table k b
  | .alt a b => gives table k a || gives table k b
  | .many a => gives table k a
  | .node k' _ => k' == k
  | .field _ a => gives table k a
  | .choose _ a b => gives table k a || gives table k b
  | .grow a suffix => gives table k a || gives table k suffix
  | .wrap _ k' _ _ => k' == k
  | .item a => gives table k a
  | _ => false

/-- Whether no phrase in the part `late` is read before one in
the part `early`. -/
def keepsOrder (early late : N → Bool) (f f' : Field) : Rule N → Bool
  | .seq a b => keepsOrder early late f f' a && keepsOrder early late f f' b &&
      !(a.fills late f' && b.fills early f)
  | .alt a b => keepsOrder early late f f' a && keepsOrder early late f f' b
  | .many a => keepsOrder early late f f' a && !(a.fills late f' && a.fills early f)
  | .choose _ a b => keepsOrder early late f f' a && keepsOrder early late f f' b
  | .grow a suffix => keepsOrder early late f f' a && !suffix.fills early f
  | .item a => keepsOrder early late f f' a
  | _ => true

/-- Whether whatever the rule reads ends in the wrapping of the phrase it
went on from. -/
def wraps : Rule N → Bool
  | .seq _ b => wraps b
  | .alt a b => wraps a && wraps b
  | .choose _ a b => wraps a && wraps b
  | .wrap _ k _ _ => k != .comment
  | .item a => wraps a
  | _ => false

/-- Whether whatever the rule reads holds a word or mark outside of the
given parts, if all phrases in the table hold one. -/
def holds (table : N → Bool) : List Field → Rule N → Bool
  | _, .token l => l.label != .phrase .comment
  | _, .here l => l.label != .phrase .comment
  | out, .call n => out.isEmpty && table n
  | out, .seq a b => holds table out a || holds table out b
  | out, .alt a b => holds table out a && holds table out b
  | _, .node k a => k != .comment && holds table [] a
  | out, .field f a => !out.contains f && holds table [] a
  | out, .choose _ a b => holds table out a && holds table out b
  | out, .grow a suffix => holds table out a && suffix.wraps
  | out, .item a => holds table out a
  | _, _ => false

end Rule

/-- A test of rules finds every place from which a tree on top of what is
read may lack a property. Comments have it wherever they are read. -/
structure Rule.Finds (test : Rule N → Bool) (g : N → Rule N) (Q : Tree → Prop) : Prop where
  comment : ∀ t, t.isComment = true → Q t
  token : ∀ l cur, test (.token l) = false → Q (l.leaf cur)
  here : ∀ l cur, test (.here l) = false → Q (l.leaf cur)
  call : ∀ n, test (.call n) = false → test (g n) = false
  seq : ∀ a b, test (.seq a b) = (test a || test b)
  alt : ∀ a b, test (.alt a b) = (test a || test b)
  many : ∀ a, test (.many a) = test a
  node : ∀ k a start stop ts, test (.node k a) = false → Q (.mk (.phrase k) none start stop ts)
  field : ∀ f a t, test (.field f a) = false → (test a = false → Q t) → Q (t.withField f)
  choose : ∀ guard a b, test (.choose guard a b) = (test a || test b)
  grow : ∀ a suffix, test (.grow a suffix) = (test a || test suffix)
  wrap : ∀ after k part a start stop ts, test (.wrap after k part a) = false →
    Q (.mk (.phrase k) none start stop ts)
  item : ∀ a, test (.item a) = test a

/-- Where the test finds nothing, all trees on top have the property. -/
theorem Rule.Finds.derives {test : Rule N → Bool} {Q : Tree → Prop} (finds : Finds test g Q) {left : Option Tree}
    {r : Rule N} {cur next : Cursor} {ts : List Tree} (derives : Derives g left r cur ts next)
    (hRule : test r = false) : ∀ t ∈ ts, Q t := by
  have hPassed {cur next : Cursor} {ts : List Tree} (hPasses : Passes cur ts next) : ∀ t ∈ ts, Q t :=
    fun t ht => finds.comment t (hPasses.comments t ht).1
  have hBoth {ts us : List Tree} (hts : ∀ t ∈ ts, Q t) (hus : ∀ t ∈ us, Q t) : ∀ t ∈ ts ++ us, Q t :=
    List.forall_mem_append.mpr ⟨hts, hus⟩
  have hEnclose {k : Kind} {here : Nat} {ts : List Tree}
      (hPhrase : ∀ start stop us, Q (.mk (.phrase k) none start stop us)) : ∀ t ∈ Tree.enclose k here ts, Q t := by
    intro t ht
    rcases Tree.mem_enclose ht with ⟨-, hComment⟩ | ⟨start, stop, rfl⟩
    · exact finds.comment t hComment
    · exact hPhrase start stop _
  induction derives with
  | done | stop | fits | unfit => simp
  | token hPasses _ => exact hBoth (hPassed hPasses) (by simpa using finds.token _ _ hRule)
  | here _ => simpa using finds.here _ _ hRule
  | unwritten hPasses | finish hPasses => exact hPassed hPasses
  | call _ ih => exact ih (finds.call _ hRule)
  | seq _ _ ihFirst ihSecond =>
      rw [finds.seq, Bool.or_eq_false_iff] at hRule
      exact hBoth (ihFirst hRule.1) (ihSecond hRule.2)
  | altLeft _ ih =>
      rw [finds.alt, Bool.or_eq_false_iff] at hRule
      exact ih hRule.1
  | altRight _ ih =>
      rw [finds.alt, Bool.or_eq_false_iff] at hRule
      exact ih hRule.2
  | more _ _ ihFirst ihRest => exact hBoth (ihFirst (finds.many _ ▸ hRule)) (ihRest hRule)
  | node _ _ => exact hEnclose fun start stop us => finds.node _ _ start stop us hRule
  | field _ ih =>
      intro t ht
      rcases Tree.mem_assign ht with ⟨-, hComment⟩ | ⟨u, hu, -, rfl⟩
      · exact finds.comment t hComment
      · exact finds.field _ _ u hRule fun hInner => ih hInner u hu
  | yes _ ih =>
      rw [finds.choose, Bool.or_eq_false_iff] at hRule
      exact ih hRule.1
  | no _ ih =>
      rw [finds.choose, Bool.or_eq_false_iff] at hRule
      exact ih hRule.2
  | seed _ ih =>
      rw [finds.grow, Bool.or_eq_false_iff] at hRule
      exact ih hRule.1
  | grown _ _ hLast ihShorter ihStep =>
      have hShorter := List.forall_mem_append.mp (ihShorter hRule)
      rw [finds.grow, Bool.or_eq_false_iff] at hRule
      exact hBoth hShorter.1 (by simpa using ihStep hRule.2 _ (List.mem_of_getLast? hLast))
  | wrap _ _ => exact hEnclose fun start stop us => finds.wrap _ _ _ _ start stop us hRule
  | item _ ih => exact ih (finds.item _ ▸ hRule)

/-- The test for a part finds each place from which a tree that is no
comment may come to have it as its field. -/
theorem fills_finds {f : Field} {table : N → Bool} (hTable : ∀ n, (g n).fills table f = true → table n = true) :
    Rule.Finds (Rule.fills table f) g fun t => t.isComment = false → t.field ≠ some f where
  comment t hComment hPhrase := by
    rw [hComment] at hPhrase
    cases hPhrase
  token _ _ _ _ := nofun
  here _ _ _ _ := nofun
  call n hUnknown := by
    by_contra hFills
    exact absurd (hTable n (by simpa using hFills)) (by simpa [Rule.fills] using hUnknown)
  seq _ _ := rfl
  alt _ _ := rfl
  many _ := rfl
  node _ _ _ _ _ _ _ := nofun
  field f' a t hOther _ _ := by
    rw [Tree.field_withField]
    simpa [Rule.fills] using hOther
  choose _ _ _ := rfl
  grow _ _ := rfl
  wrap _ _ _ _ _ _ _ _ _ := nofun
  item _ := rfl

/-- A rule that fills no part `f` reads no phrase in it. -/
theorem Derives.field_ne {f : Field} {table : N → Bool} (hTable : ∀ n, (g n).fills table f = true → table n = true)
    {left : Option Tree} {r : Rule N} {cur next : Cursor} {ts : List Tree} (derives : Derives g left r cur ts next)
    (hRule : r.fills table f = false) : ∀ t ∈ ts, t.isComment = false → t.field ≠ some f :=
  (fills_finds hTable).derives derives hRule

/-- The test for a kind finds each place from which a tree of
the kind may come. -/
theorem gives_finds {k : Kind} (hKind : k ≠ .comment) {table : N → Bool}
    (hTable : ∀ n, (g n).gives table k = true → table n = true) :
    Rule.Finds (Rule.gives table k) g fun t => t.isKind k = false where
  comment t hComment := by
    simp only [Tree.isComment, Tree.isKind, beq_iff_eq] at hComment
    simp only [Tree.isKind, hComment, beq_eq_false_iff_ne, ne_eq, Label.phrase.injEq]
    exact hKind.symm
  token _ _ hOther := hOther
  here _ _ hOther := hOther
  call n hUnknown := by
    by_contra hGives
    exact absurd (hTable n (by simpa using hGives)) (by simpa [Rule.gives] using hUnknown)
  seq _ _ := rfl
  alt _ _ := rfl
  many _ := rfl
  node _ _ _ _ _ hOther := by simpa [Tree.isKind, Tree.label, Rule.gives] using hOther
  field f a t hRule hInner := by
    rw [Tree.isKind_withField]
    exact hInner hRule
  choose _ _ _ := rfl
  grow _ _ := rfl
  wrap _ _ _ _ _ _ _ hOther := by simpa [Tree.isKind, Tree.label, Rule.gives] using hOther
  item _ := rfl

/-- A rule that gives no tree of a kind reads none. -/
theorem Derives.not_isKind {k : Kind} (hKind : k ≠ .comment) {table : N → Bool}
    (hTable : ∀ n, (g n).gives table k = true → table n = true) {left : Option Tree} {r : Rule N}
    {cur next : Cursor} {ts : List Tree} (derives : Derives g left r cur ts next)
    (hRule : r.gives table k = false) : ∀ t ∈ ts, t.isKind k = false :=
  (gives_finds hKind hTable).derives derives hRule

/-- What the rules of a grammar say of two parts, of which the first is to
come first. -/
structure OrdersParts (g : N → Rule N) (early late : N → Bool) (f f' : Field) : Prop where
  distinct : f ≠ f'
  spares : ∀ n, (g n).passes (sparing [f, f']) = true
  fillsEarly : ∀ n, (g n).fills early f = true → early n = true
  fillsLate : ∀ n, (g n).fills late f' = true → late n = true
  keeps : ∀ n, (g n).keepsOrder early late f f' = true

/-- Two trees stand in an order in which they may: not the part `f'` in
front of the part `f`. -/
def InOrder (f f' : Field) (a b : Tree) : Prop := ¬ (a.field = some f' ∧ b.field = some f)

namespace InOrder

variable {f f' : Field}

theorem of_left {a : Tree} (ha : a.field ≠ some f') (b : Tree) : InOrder f f' a b := fun hBoth => ha hBoth.1

theorem of_right {b : Tree} (hb : b.field ≠ some f) (a : Tree) : InOrder f f' a b := fun hBoth => hb hBoth.2

/-- Trees of which none is the late part stand in order. -/
theorem pairwise_of_left {ts : List Tree} (hts : ∀ t ∈ ts, t.field ≠ some f') : ts.Pairwise (InOrder f f') :=
  List.pairwise_of_forall_mem_list fun a ha b _ => of_left (hts a ha) b

/-- Trees of which none is the early part stand in order. -/
theorem pairwise_of_right {ts : List Tree} (hts : ∀ t ∈ ts, t.field ≠ some f) : ts.Pairwise (InOrder f f') :=
  List.pairwise_of_forall_mem_list fun a _ b hb => of_right (hts b hb) a

/-- Where comments are in neither part, what is around a forest is
in order with it. -/
theorem pairwise_enclose {ts : List Tree} (hBare : ∀ t ∈ ts, t.Bare [f, f']) (k : Kind) (here : Nat) :
    (Tree.enclose k here ts).Pairwise (InOrder f f') := by
  apply pairwise_of_left
  intro t ht
  rcases Tree.mem_enclose ht with ⟨ht, hComment⟩ | ⟨start, stop, rfl⟩
  · exact hBare t ht hComment f' (by simp)
  · nofun

end InOrder

namespace OrdersParts

variable {early late : N → Bool} {f f' : Field}

/-- A rule that fills one of the parts with no phrase fills it with no
comment either. -/
theorem field_ne (ordering : OrdersParts g early late f f') {left : Option Tree} {r : Rule N} {cur next : Cursor}
    {ts : List Tree} {f₀ : Field} {table : N → Bool} (derives : Derives g left r cur ts next)
    (hSpares : r.passes (sparing [f, f']) = true) (hLeft : ∀ p ∈ left, p.Bare [f, f']) (hPart : f₀ ∈ [f, f'])
    (hTable : ∀ n, (g n).fills table f₀ = true → table n = true) (hFills : r.fills table f₀ = false) :
    ∀ t ∈ ts, t.field ≠ some f₀ := by
  intro t ht
  cases hComment : t.isComment with
  | true => exact (sparing_establishes ordering.spares).derives derives hSpares hLeft t ht hComment f₀ hPart
  | false => exact derives.field_ne hTable hFills t ht hComment

/-- What a rule reads is in order, if the rule keeps it. -/
theorem derives (ordering : OrdersParts g early late f f') {left : Option Tree} {r : Rule N} {cur next : Cursor}
    {ts : List Tree} (derives : Derives g left r cur ts next) (hKeeps : r.keepsOrder early late f f' = true)
    (hSpares : r.passes (sparing [f, f']) = true) (hLeft : ∀ p ∈ left, p.Bare [f, f']) :
    ts.Pairwise (InOrder f f') := by
  have hBare {left : Option Tree} {r : Rule N} {cur next : Cursor} {ts : List Tree}
      (derives : Derives g left r cur ts next) (hSpares : r.passes (sparing [f, f']) = true)
      (hLeft : ∀ p ∈ left, p.Bare [f, f']) : ∀ t ∈ ts, t.Bare [f, f'] :=
    (sparing_establishes ordering.spares).derives derives hSpares hLeft
  have hAppend {left : Option Tree} {a b : Rule N} {cur mid next : Cursor} {ts us : List Tree}
      (first : Derives g left a cur ts mid) (second : Derives g left b mid us next)
      (ha : a.passes (sparing [f, f']) = true) (hb : b.passes (sparing [f, f']) = true)
      (hLeft : ∀ p ∈ left, p.Bare [f, f']) (hFills : (a.fills late f' && b.fills early f) = false)
      (hts : ts.Pairwise (InOrder f f')) (hus : us.Pairwise (InOrder f f')) : (ts ++ us).Pairwise (InOrder f f') := by
    refine List.pairwise_append.mpr ⟨hts, hus, fun t ht u hu => ?_⟩
    rcases Bool.and_eq_false_iff.mp hFills with hLate | hEarly
    · exact .of_left (ordering.field_ne first ha hLeft (by simp) ordering.fillsLate hLate t ht) u
    · exact .of_right (ordering.field_ne second hb hLeft (by simp) ordering.fillsEarly hEarly u hu) t
  have hPassed {cur next : Cursor} {ts : List Tree} (hPasses : Passes cur ts next) : ∀ t ∈ ts, t.field ≠ some f' := by
    intro t ht
    rw [(hPasses.comments t ht).2]
    nofun
  induction derives with
  | done | stop | fits | unfit => exact .nil
  | token hPasses _ =>
      exact InOrder.pairwise_of_left (List.forall_mem_append.mpr ⟨hPassed hPasses, by simp [Lexeme.leaf, Tree.field]⟩)
  | here _ => exact List.pairwise_singleton _ _
  | unwritten hPasses | finish hPasses => exact InOrder.pairwise_of_left (hPassed hPasses)
  | call _ ih => exact ih (ordering.keeps _) (ordering.spares _) hLeft
  | seq first second ihFirst ihSecond =>
      simp only [Rule.keepsOrder, Rule.passes, Bool.and_eq_true, Bool.not_eq_true'] at hKeeps hSpares
      obtain ⟨⟨ha, hb⟩, hFills⟩ := hKeeps
      exact hAppend first second hSpares.1 hSpares.2 hLeft hFills (ihFirst ha hSpares.1 hLeft)
        (ihSecond hb hSpares.2 hLeft)
  | altLeft _ ih | yes _ ih =>
      simp only [Rule.keepsOrder, Rule.passes, Bool.and_eq_true] at hKeeps hSpares
      exact ih hKeeps.1 hSpares.1 hLeft
  | altRight _ ih | no _ ih =>
      simp only [Rule.keepsOrder, Rule.passes, Bool.and_eq_true] at hKeeps hSpares
      exact ih hKeeps.2 hSpares.2 hLeft
  | more first rest ihFirst ihRest =>
      have hRest := ihRest hKeeps hSpares hLeft
      simp only [Rule.keepsOrder, Bool.and_eq_true, Bool.not_eq_true'] at hKeeps
      exact hAppend first rest hSpares hSpares hLeft hKeeps.2 (ihFirst hKeeps.1 hSpares hLeft) hRest
  | node inner _ => exact InOrder.pairwise_enclose (hBare inner (Bool.and_eq_true_iff.mp hSpares).2 (by simp)) _ _
  | @field _ f₀ _ _ _ _ inner _ =>
      have hParts := hBare inner (Bool.and_eq_true_iff.mp hSpares).2 (by simp)
      by_cases hLate : f₀ = f'
      · apply InOrder.pairwise_of_right
        intro t ht
        rcases Tree.mem_assign ht with ⟨ht, hComment⟩ | ⟨u, -, -, rfl⟩
        · exact hParts t ht hComment f (by simp)
        · rw [Tree.field_withField, hLate]
          exact fun hSame => ordering.distinct (Option.some.inj hSame).symm
      · apply InOrder.pairwise_of_left
        intro t ht
        rcases Tree.mem_assign ht with ⟨ht, hComment⟩ | ⟨u, -, -, rfl⟩
        · exact hParts t ht hComment f' (by simp)
        · rw [Tree.field_withField]
          exact fun hSame => hLate (Option.some.inj hSame)
  | seed _ ih =>
      simp only [Rule.keepsOrder, Rule.passes, Bool.and_eq_true] at hKeeps hSpares
      exact ih hKeeps.1 hSpares.1 (by simp)
  | grown shorter step hLast ihShorter _ =>
      have hShorter := List.pairwise_append.mp (ihShorter hKeeps hSpares hLeft)
      have hGrown := hBare shorter hSpares hLeft
      simp only [Rule.keepsOrder, Rule.passes, Bool.and_eq_true, Bool.not_eq_true'] at hKeeps hSpares
      have hStep := ordering.field_ne step hSpares.2 (by simpa using hGrown _ (by simp)) (by simp)
        ordering.fillsEarly hKeeps.2
      refine List.pairwise_append.mpr ⟨hShorter.1, List.pairwise_singleton _ _, fun t _ u hu => ?_⟩
      obtain rfl := List.mem_singleton.mp hu
      exact .of_right (hStep _ (List.mem_of_getLast? hLast)) t
  | wrap inner _ =>
      simp only [Rule.passes, Bool.and_eq_true] at hSpares
      have hPhrase := (sparing_establishes ordering.spares).part _ _ _ _ hSpares.1 (hLeft _ rfl)
      exact InOrder.pairwise_enclose (List.forall_mem_cons.mpr ⟨hPhrase, hBare inner hSpares.2 (by simp)⟩) _ _
  | item _ ih => exact ih hKeeps hSpares hLeft

end OrdersParts

/-- A suffix wraps the phrase that it goes on from. -/
theorem Derives.wraps {left : Option Tree} {r : Rule N} {cur next : Cursor} {ts : List Tree}
    (derives : Derives g left r cur ts next) (hWraps : r.wraps = true) :
    ∃ phrase before wrapped, left = some phrase ∧ ts = before ++ [wrapped] ∧ wrapped.field = none ∧
      phrase.weight ≤ wrapped.weight := by
  induction derives with
  | seq _ _ _ ihSecond =>
      obtain ⟨phrase, before, wrapped, hLeft, rfl, hWrapped⟩ := ihSecond hWraps
      exact ⟨phrase, _, wrapped, hLeft, (List.append_assoc ..).symm, hWrapped⟩
  | altLeft _ ih | yes _ ih =>
      simp only [Rule.wraps, Bool.and_eq_true] at hWraps
      exact ih hWraps.1
  | altRight _ ih | no _ ih =>
      simp only [Rule.wraps, Bool.and_eq_true] at hWraps
      exact ih hWraps.2
  | @wrap phrase _ k part _ _ _ ts _ _ =>
      obtain ⟨outside, wrapped, hEnclose, hField, hWeight⟩ :=
        Tree.exists_enclose k phrase.start (phrase.inPart part :: ts) (bne_iff_ne.mp hWraps)
      refine ⟨phrase, outside, wrapped, rfl, hEnclose, hField, ?_⟩
      rw [hWeight, Tree.weightAll, Tree.weight_inPart]
      exact Nat.le_add_right _ _
  | item _ ih => exact ih hWraps
  | _ => cases hWraps

/-- Some tree outside of these parts holds a word or mark. -/
def Weighty (out : List Field) (ts : List Tree) : Prop := ∃ t ∈ ts, 0 < t.weight ∧ ∀ f ∈ out, t.field ≠ some f

theorem Weighty.append_left {out : List Field} {ts : List Tree} (hts : Weighty out ts) (us : List Tree) :
    Weighty out (ts ++ us) := by
  obtain ⟨t, ht, hWeight⟩ := hts
  exact ⟨t, List.mem_append_left us ht, hWeight⟩

theorem Weighty.append_right {out : List Field} {us : List Tree} (hus : Weighty out us) (ts : List Tree) :
    Weighty out (ts ++ us) := by
  obtain ⟨t, ht, hWeight⟩ := hus
  exact ⟨t, List.mem_append_right ts ht, hWeight⟩

theorem Weighty.of_field {out : List Field} {t : Tree} (hWeight : 0 < t.weight) (hField : t.field = none) :
    Weighty out [t] := by
  refine ⟨t, List.mem_singleton_self t, hWeight, fun f _ => ?_⟩
  rw [hField]
  nofun

/-- What holds a word or mark outside of some parts has a weight. -/
theorem Weighty.weightAll_pos {out : List Field} {ts : List Tree} (hts : Weighty out ts) : 0 < Tree.weightAll ts := by
  obtain ⟨t, ht, hWeight, -⟩ := hts
  exact hWeight.trans_le (Tree.weight_le_of_mem ht)

/-- What a rule reads holds a word or mark, if the rule promises one. -/
theorem Derives.weighty {table : N → Bool} (hTable : ∀ n, table n = true → (g n).holds table [] = true)
    {left : Option Tree} {r : Rule N} {cur next : Cursor} {ts : List Tree} (derives : Derives g left r cur ts next)
    {out : List Field} (hHolds : r.holds table out = true) : Weighty out ts := by
  have hLexeme {l : Lexeme} {cur : Cursor} (hLength : 0 < l.length cur.rest) (out : List Field)
      (hLabel : (l.label != .phrase .comment) = true) : Weighty out [l.leaf cur] :=
    .of_field (by rw [Lexeme.weight_leaf (bne_iff_ne.mp hLabel) hLength]; exact Nat.one_pos) rfl
  induction derives generalizing out with
  | token _ hLength => exact (hLexeme hLength out hHolds).append_right _
  | here hLength => exact hLexeme hLength out hHolds
  | call _ ih =>
      simp only [Rule.holds, Bool.and_eq_true, List.isEmpty_iff] at hHolds
      obtain ⟨rfl, hKnown⟩ := hHolds
      exact ih (hTable _ hKnown)
  | seq _ _ ihFirst ihSecond =>
      simp only [Rule.holds, Bool.or_eq_true] at hHolds
      rcases hHolds with ha | hb
      · exact (ihFirst ha).append_left _
      · exact (ihSecond hb).append_right _
  | altLeft _ ih | yes _ ih =>
      simp only [Rule.holds, Bool.and_eq_true] at hHolds
      exact ih hHolds.1
  | altRight _ ih | no _ ih =>
      simp only [Rule.holds, Bool.and_eq_true] at hHolds
      exact ih hHolds.2
  | @node _ k _ cur _ ts _ ih =>
      simp only [Rule.holds, Bool.and_eq_true, bne_iff_ne] at hHolds
      obtain ⟨outside, phrase, hEnclose, hField, hWeight⟩ := Tree.exists_enclose k cur.offset ts hHolds.1
      rw [hEnclose]
      exact (Weighty.of_field (hWeight ▸ (ih hHolds.2).weightAll_pos) hField).append_right _
  | @field _ f₀ _ _ _ _ _ ih =>
      simp only [Rule.holds, Bool.and_eq_true, Bool.not_eq_true', List.contains_eq_mem, decide_eq_false_iff_not] at hHolds
      obtain ⟨t, ht, hWeight, -⟩ := ih hHolds.2
      refine ⟨t.withField f₀, List.mem_map.mpr ⟨t, ht, ?_⟩, ?_, fun f hf hSame => ?_⟩
      · rw [Tree.isComment_of_weight hWeight]
        rfl
      · rwa [Tree.weight_withField]
      · rw [Tree.field_withField] at hSame
        exact hHolds.1 (Option.some.inj hSame ▸ hf)
  | seed _ ih =>
      simp only [Rule.holds, Bool.and_eq_true] at hHolds
      exact ih hHolds.1
  | grown _ step hLast ihShorter _ =>
      have hShorter := ihShorter hHolds
      simp only [Rule.holds, Bool.and_eq_true] at hHolds
      obtain ⟨phrase, before, wrapped, hLeft, rfl, hField, hWeight⟩ := step.wraps hHolds.2
      obtain rfl := Option.some.inj hLeft
      obtain rfl : wrapped = _ := by simpa using hLast
      obtain ⟨t, ht, hPositive, hParts⟩ := hShorter
      rcases List.mem_append.mp ht with hOld | hNew
      · exact Weighty.append_left ⟨t, hOld, hPositive, hParts⟩ _
      · obtain rfl := List.mem_singleton.mp hNew
        exact (Weighty.of_field (hPositive.trans_le hWeight) hField).append_right _
  | item _ ih => exact ih hHolds
  | _ => cases hHolds

end SourceAtlas.Syntax
